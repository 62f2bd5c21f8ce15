import Mathlib
import SimpleChain.Lib.GoMap
import SimpleChain.Lib.Loop
import SimpleChain.Lib.FirstMatch

/-! # The cross-chain index DB and its record cache

`indexDB` (`cross/database/indexdb.go`) keeps one `CrossTransactionIndexed` per
cross transaction in a storm node, and an ARC cache of the records it read, keyed
by `(field, value)`.  The storm node is a map from `CtxId` to record that also
answers lookups by `TxHash`: here the records in primary-key order, `One` the
first whose field holds the key, `Save` an append, and `Update` and
`DeleteStruct` act where the `One` before them found the record.  The cache is
the map of its entries: the store's 4096-entry ARC cache evicts nothing while it
holds fewer, and an eviction only drops an entry (`CoherentOn.remove`).  A cache
size of 0 makes `newIndexDbCache` return nil, `cache = none`.

Reads fill the cache and writers remove the keys they change.  `Updates` and
`Deletes` remove `(CtxId, id)` and `(TxHash, TxHash)`, which keeps every cached
entry equal to storm's answer; `Writes` removes `(CtxId, id)` and `(CtxId, TxHash)`,
and `Write` puts the record it was given under `(CtxId, id)` whether `Writes`
stored it or `canReplace` refused it. -/
set_option autoImplicit false

namespace SimpleChain.Cross

/-- `common.Hash`. -/
abbrev Hash := BitVec 256

/-- `cc.CtxStatusPending`, the first `CtxStatus` code. -/
def ctxStatusPending : Nat := 0

/-- The indexed fields the index DB looks records up by. -/
inductive FieldName
  | ctxIdIndex
  | txHashIndex
  deriving DecidableEq, Repr

/-- `CrossTransactionIndexed` as `ToCrossTransaction` hands it out.  Its primary
key is its place in the store; `From`, `To`, `Price`, `Value` and the rest, which
the index DB stores and returns unread, are the payload `data`. -/
structure CrossTransactionIndexed (δ : Type) where
  ctxId : Hash
  txHash : Hash
  blockNum : Nat
  status : Nat
  data : δ
  deriving DecidableEq, Repr

/-- The `ErrCtxDbFailure` values of the index DB. -/
inductive DbError
  | invalidUpdatesParams
  | updatedNotExist
  | updateFailed
  | getFailed (ctxId : Hash)
  deriving DecidableEq, Repr

variable {δ : Type}

def CrossTransactionIndexed.field (ctx : CrossTransactionIndexed δ) : FieldName → Hash
  | .ctxIdIndex => ctx.ctxId
  | .txHashIndex => ctx.txHash

/-! ## The storm node -/

/-- `One(field, key)`: the first record, in primary-key order, whose field holds `key`. -/
def stormOne (db : List (CrossTransactionIndexed δ)) (field : FieldName) (key : Hash) :
    Option (CrossTransactionIndexed δ) :=
  db.find? fun ctx => ctx.field field == key

/-- `Update` of the record `One(CtxIdIndex, id)` found, under its primary key. -/
def stormUpdate (db : List (CrossTransactionIndexed δ)) (id : Hash)
    (ctx : CrossTransactionIndexed δ) : List (CrossTransactionIndexed δ) :=
  FirstMatch.replaceFirst (fun old => old.ctxId == id) ctx db

/-- `DeleteStruct` of the record `One(CtxIdIndex, id)` found. -/
def stormDelete (db : List (CrossTransactionIndexed δ)) (id : Hash) :
    List (CrossTransactionIndexed δ) :=
  db.eraseP fun old => old.ctxId == id

/-- The unique index on `CtxId` lets `Update` give the record at `id` a `CtxId`
only if no record holds it already (storm's `ErrAlreadyExists` otherwise). -/
def stormUnique (db : List (CrossTransactionIndexed δ)) (id : Hash)
    (ctx : CrossTransactionIndexed δ) : Bool :=
  ctx.ctxId == id || (stormOne db .ctxIdIndex ctx.ctxId).isNone

theorem field_of_stormOne {db : List (CrossTransactionIndexed δ)} {field : FieldName}
    {key : Hash} {ctx : CrossTransactionIndexed δ} (found : stormOne db field key = some ctx) :
    ctx.field field = key := by
  simpa using List.find?_some found

/-! ## The index DB -/

/-- `IndexDbCache`: records by `(field, key)`. -/
abbrev IndexDbCache (δ : Type) := GoMap (FieldName × Hash) (CrossTransactionIndexed δ)

structure IndexDB (δ : Type) where
  db : List (CrossTransactionIndexed δ)
  cache : Option (IndexDbCache δ)

/-- `lru.NewARC` refuses a size of 0, and `newIndexDbCache` then returns nil. -/
def newIndexDbCache (cap : Nat) : Option (IndexDbCache δ) :=
  if cap = 0 then none else some ∅

def newIndexDB (db : List (CrossTransactionIndexed δ)) (cacheSize : Nat) : IndexDB δ :=
  ⟨db, newIndexDbCache cacheSize⟩

/-- `d.cache.Get(field, key)`, nil without a cache. -/
def IndexDB.cached (d : IndexDB δ) (field : FieldName) (key : Hash) :
    Option (CrossTransactionIndexed δ) :=
  d.cache.bind fun cache => cache.lookup (field, key)

/-- `if d.cache != nil { d.cache.Put(field, key, ctx) }` -/
def IndexDB.put (d : IndexDB δ) (field : FieldName) (key : Hash)
    (ctx : CrossTransactionIndexed δ) : IndexDB δ :=
  { d with cache := d.cache.map fun cache => cache.insert (field, key) ctx }

/-- `if d.cache != nil { d.cache.Remove(field, key) }` -/
def IndexDB.remove (d : IndexDB δ) (field : FieldName) (key : Hash) : IndexDB δ :=
  { d with cache := d.cache.map fun cache => cache.erase (field, key) }

theorem IndexDB.cached_of_cached_remove {d : IndexDB δ} {field' field : FieldName}
    {key' key : Hash} {ctx : CrossTransactionIndexed δ}
    (cached : (d.remove field' key').cached field key = some ctx) :
    (field, key) ≠ (field', key') ∧ d.cached field key = some ctx := by
  obtain ⟨db, _ | cache⟩ := d
  · cases cached
  · simp only [IndexDB.remove, IndexDB.cached, Option.map_some, Option.bind_some] at cached ⊢
    by_cases same : (field, key) = (field', key')
    · rw [same, AList.lookup_erase] at cached
      cases cached
    · rw [AList.lookup_erase_ne same] at cached
      exact ⟨same, cached⟩

theorem IndexDB.cached_of_cached_put {d : IndexDB δ} {field' field : FieldName} {key' key : Hash}
    {ctx' ctx : CrossTransactionIndexed δ} (cached : (d.put field' key' ctx').cached field key = some ctx) :
    ((field, key) = (field', key') ∧ ctx = ctx') ∨ d.cached field key = some ctx := by
  obtain ⟨db, _ | cache⟩ := d
  · cases cached
  · simp only [IndexDB.put, IndexDB.cached, Option.map_some, Option.bind_some] at cached ⊢
    by_cases same : (field, key) = (field', key')
    · rw [same, AList.lookup_insert] at cached
      exact .inl ⟨same, (Option.some.inj cached).symm⟩
    · rw [AList.lookup_insert_ne same] at cached
      exact .inr cached

/-! ### Reads -/

def IndexDB.one (d : IndexDB δ) (field : FieldName) (key : Hash) :
    Option (CrossTransactionIndexed δ) × IndexDB δ :=
  match d.cached field key with
  | some ctx => (some ctx, d)
  | none =>
      match stormOne d.db field key with
      | none => (none, d)
      | some ctx => (some ctx, d.put field key ctx)

/-- `get` is `One(CtxIdIndex, ctxId)` that fails where `One` returns nil. -/
def IndexDB.get (d : IndexDB δ) (ctxId : Hash) :
    Except DbError (CrossTransactionIndexed δ) × IndexDB δ :=
  match d.one .ctxIdIndex ctxId with
  | (some ctx, d) => (.ok ctx, d)
  | (none, d) => (.error (.getFailed ctxId), d)

def IndexDB.read (d : IndexDB δ) (ctxId : Hash) :
    Except DbError (CrossTransactionIndexed δ) × IndexDB δ :=
  d.get ctxId

def IndexDB.has (d : IndexDB δ) (id : Hash) : Bool × IndexDB δ :=
  match d.get id with
  | (.ok _, d) => (true, d)
  | (.error _, d) => (false, d)

theorem IndexDB.get_fst (d : IndexDB δ) (ctxId : Hash) :
    (d.get ctxId).1 = match (d.one .ctxIdIndex ctxId).1 with
      | some ctx => .ok ctx
      | none => .error (.getFailed ctxId) := by
  unfold IndexDB.get
  cases d.one .ctxIdIndex ctxId with
  | mk found d' => cases found <;> rfl

theorem IndexDB.get_snd (d : IndexDB δ) (ctxId : Hash) :
    (d.get ctxId).2 = (d.one .ctxIdIndex ctxId).2 := by
  unfold IndexDB.get
  cases d.one .ctxIdIndex ctxId with
  | mk found d' => cases found <;> rfl

theorem IndexDB.has_fst (d : IndexDB δ) (id : Hash) :
    (d.has id).1 = match (d.get id).1 with
      | .ok _ => true
      | .error _ => false := by
  unfold IndexDB.has
  cases d.get id with
  | mk result d' => cases result <;> rfl

theorem IndexDB.has_snd (d : IndexDB δ) (id : Hash) : (d.has id).2 = (d.get id).2 := by
  unfold IndexDB.has
  cases d.get id with
  | mk result d' => cases result <;> rfl

/-! ### Writers

Storm's `Save` and `Update` in `Writes` and its `DeleteStruct` in `Deletes` act on
a record whose `CtxId` is free or unchanged, so on a map they do not fail; their
loops are folds.  The loop of `Updates` fails on a missing id or a taken `CtxId`,
and then storm rolls its records back while the cache keeps what was removed. -/

/-- The `canReplace` closure of `Writes`. -/
def canReplace (replaceable : Bool) (old new : CrossTransactionIndexed δ) : Bool :=
  if !replaceable then false
  else if new.status = ctxStatusPending then false
  else if new.blockNum < old.blockNum then false
  else if new.status ≤ old.status then false
  else true

/-- One iteration of the `Writes` loop. -/
def IndexDB.writeStep (replaceable : Bool) (d : IndexDB δ) (new : CrossTransactionIndexed δ) :
    IndexDB δ :=
  let saved : Option (IndexDB δ) :=
    match stormOne d.db .ctxIdIndex new.ctxId with
    | none => some { d with db := d.db ++ [new] }
    | some old =>
        if canReplace replaceable old new then some { d with db := stormUpdate d.db new.ctxId new }
        else none
  match saved with
  | some d => (d.remove .ctxIdIndex new.ctxId).remove .ctxIdIndex new.txHash
  | none => d

/-- What one iteration of `Writes` does: save a new id, replace the record, or
keep it. -/
theorem IndexDB.writeStep_cases (replaceable : Bool) (d : IndexDB δ)
    (new : CrossTransactionIndexed δ) :
    (stormOne d.db .ctxIdIndex new.ctxId = none ∧
      d.writeStep replaceable new = (({ d with db := d.db ++ [new] } : IndexDB δ).remove
        .ctxIdIndex new.ctxId).remove .ctxIdIndex new.txHash) ∨
    (∃ old, stormOne d.db .ctxIdIndex new.ctxId = some old ∧ canReplace replaceable old new = true ∧
      d.writeStep replaceable new = (({ d with db := stormUpdate d.db new.ctxId new } : IndexDB δ).remove
        .ctxIdIndex new.ctxId).remove .ctxIdIndex new.txHash) ∨
    (∃ old, stormOne d.db .ctxIdIndex new.ctxId = some old ∧ canReplace replaceable old new = false ∧
      d.writeStep replaceable new = d) := by
  unfold IndexDB.writeStep
  cases found : stormOne d.db .ctxIdIndex new.ctxId with
  | none => exact .inl ⟨rfl, rfl⟩
  | some old =>
      cases can : canReplace replaceable old new with
      | true => exact .inr (.inl ⟨old, rfl, can, by simp only [can, if_true]⟩)
      | false => exact .inr (.inr ⟨old, rfl, can, by simp only [can, Bool.false_eq_true, if_false]⟩)

def IndexDB.writes (d : IndexDB δ) (ctxList : List (CrossTransactionIndexed δ))
    (replaceable : Bool) : IndexDB δ :=
  ctxList.foldl (IndexDB.writeStep replaceable) d

def IndexDB.write (d : IndexDB δ) (ctx : CrossTransactionIndexed δ) : IndexDB δ :=
  (d.writes [ctx] true).put .ctxIdIndex ctx.ctxId ctx

/-- One iteration of the `Updates` loop.  A failure carries the state it stopped in. -/
def IndexDB.updateStep (d : IndexDB δ)
    (item : Hash × (CrossTransactionIndexed δ → CrossTransactionIndexed δ)) :
    Except (DbError × IndexDB δ) (IndexDB δ) :=
  match stormOne d.db .ctxIdIndex item.1 with
  | none => .error (.updatedNotExist, d)
  | some ctx =>
      let ctx := item.2 ctx
      if stormUnique d.db item.1 ctx then
        .ok (({ d with db := stormUpdate d.db item.1 ctx } : IndexDB δ).remove .ctxIdIndex item.1
          |>.remove .txHashIndex ctx.txHash)
      else .error (.updateFailed, d)

theorem IndexDB.updateStep_ok {d t : IndexDB δ}
    {item : Hash × (CrossTransactionIndexed δ → CrossTransactionIndexed δ)}
    (step : d.updateStep item = .ok t) :
    ∃ ctx, stormOne d.db .ctxIdIndex item.1 = some ctx ∧ stormUnique d.db item.1 (item.2 ctx) = true ∧
      t = (({ d with db := stormUpdate d.db item.1 (item.2 ctx) } : IndexDB δ).remove
        .ctxIdIndex item.1).remove .txHashIndex (item.2 ctx).txHash := by
  unfold IndexDB.updateStep at step
  cases found : stormOne d.db .ctxIdIndex item.1 with
  | none =>
      rw [found] at step
      cases step
  | some ctx =>
      simp only [found] at step
      by_cases unique : stormUnique d.db item.1 (item.2 ctx) = true
      · rw [if_pos unique] at step
        cases step
        exact ⟨ctx, rfl, unique, rfl⟩
      · rw [if_neg unique] at step
        cases step

/-- A failed iteration of `Updates` hands back the state it started from. -/
theorem IndexDB.updateStep_error {d t : IndexDB δ}
    {item : Hash × (CrossTransactionIndexed δ → CrossTransactionIndexed δ)} {e : DbError}
    (step : d.updateStep item = .error (e, t)) : t = d := by
  unfold IndexDB.updateStep at step
  cases found : stormOne d.db .ctxIdIndex item.1 with
  | none =>
      rw [found] at step
      cases step
      rfl
  | some ctx =>
      simp only [found] at step
      by_cases unique : stormUnique d.db item.1 (item.2 ctx) = true
      · rw [if_pos unique] at step
        cases step
      · rw [if_neg unique] at step
        cases step
        rfl

def IndexDB.updates (d : IndexDB δ) (idList : List Hash)
    (updaters : List (CrossTransactionIndexed δ → CrossTransactionIndexed δ)) :
    Except DbError Unit × IndexDB δ :=
  if idList.length ≠ updaters.length then (.error .invalidUpdatesParams, d)
  else
    match (idList.zip updaters).foldlM IndexDB.updateStep d with
    | .ok tx => (.ok (), tx)
    -- `tx.Rollback()`: the records are the ones before the loop
    | .error (e, tx) => (.error e, { d with cache := tx.cache })

def IndexDB.update (d : IndexDB δ) (id : Hash)
    (updater : CrossTransactionIndexed δ → CrossTransactionIndexed δ) :
    Except DbError Unit × IndexDB δ :=
  d.updates [id] [updater]

/-- One iteration of the `Deletes` loop. -/
def IndexDB.deleteStep (d : IndexDB δ) (id : Hash) : IndexDB δ :=
  match stormOne d.db .ctxIdIndex id with
  | none => d
  | some ctx =>
      let d := (d.remove .ctxIdIndex id).remove .txHashIndex ctx.txHash
      { d with db := stormDelete d.db id }

def IndexDB.deletes (d : IndexDB δ) (idList : List Hash) : IndexDB δ :=
  idList.foldl IndexDB.deleteStep d

/-! ### Histories -/

/-- A call of the index DB's interface. -/
inductive Call (δ : Type)
  | write (ctx : CrossTransactionIndexed δ)
  | writes (ctxList : List (CrossTransactionIndexed δ)) (replaceable : Bool)
  | update (id : Hash) (updater : CrossTransactionIndexed δ → CrossTransactionIndexed δ)
  | updates (idList : List Hash)
      (updaters : List (CrossTransactionIndexed δ → CrossTransactionIndexed δ))
  | deletes (idList : List Hash)
  | read (ctxId : Hash)
  | has (id : Hash)
  | one (field : FieldName) (key : Hash)

/-- The index DB after a call. -/
def IndexDB.call (d : IndexDB δ) : Call δ → IndexDB δ
  | .write ctx => d.write ctx
  | .writes ctxList replaceable => d.writes ctxList replaceable
  | .update id updater => (d.update id updater).2
  | .updates idList updaters => (d.updates idList updaters).2
  | .deletes idList => d.deletes idList
  | .read ctxId => (d.read ctxId).2
  | .has id => (d.has id).2
  | .one field key => (d.one field key).2

def IndexDB.run (d : IndexDB δ) (calls : List (Call δ)) : IndexDB δ :=
  calls.foldl IndexDB.call d

/-! ### The updaters of `CrossStore.Updates` (`cross/backend/store.go`) -/

/-- `cc.ModType`. -/
inductive ModType
  | normal
  | remote
  | reorg
  deriving DecidableEq, Repr

/-- `cc.CrossTransactionModifier`. -/
structure CrossTransactionModifier where
  type : ModType
  id : Hash
  status : Nat
  atBlockNumber : Nat
  deriving DecidableEq, Repr

/-- The updater `CrossStore.Updates` builds for a modifier. -/
def CrossTransactionModifier.updater (txm : CrossTransactionModifier)
    (ctx : CrossTransactionIndexed δ) : CrossTransactionIndexed δ :=
  -- a reorg may move the status back; a remote or local update only forward
  if txm.type = .reorg ∧ txm.status < ctx.status then { ctx with status := txm.status }
  else if txm.type = .remote ∧ txm.status > ctx.status then { ctx with status := txm.status }
  else if txm.type = .normal ∧ txm.status > ctx.status then
    { ctx with status := txm.status, blockNum := txm.atBlockNumber }
  else ctx

/-- `CrossStore.Updates` on the chain's index DB. -/
def crossStoreUpdates (txmList : List CrossTransactionModifier) : Call δ :=
  .updates (txmList.map fun txm => txm.id) (txmList.map CrossTransactionModifier.updater)

end SimpleChain.Cross
