import Mathlib
import SimpleChain.Cross.IndexDb

/-! # The cross-chain signature pool

`CrossPool` (`cross/backend/pool.go`) gathers the anchors' signatures on each cross
transaction.  A ctx this node signed itself has its entry in `pending`; signatures
from peers on a ctx it has not signed wait in `queued`.  When a pending entry holds
`RequireSignatures()` signatures, `Commit` takes it out of `pending` and sends it to
the other chain's handler; the handler answers later through a callback, which
stores the entries whose signatures it accepted (`Store`) and puts the others back
into `pending` without the signatures it rejected (`Rollback`).

The model is the pool's state and one function per entry point.  Each exported
call runs as one step: `AddLocals` and `AddRemotes` hold `pool.mu`, and the callback
runs on the handler's goroutine between them.  The pool's store is the chain's
index DB, read through `store.Get` (`Read`) and written through `store.Adds`
(`Writes`).  A signature object is a value here: the pool never shares an entry
between `pending`, `queued` and a commit batch, except a batch that names one ctx
twice, which the model does not follow. -/
set_option autoImplicit false

namespace SimpleChain.Cross

/-- `common.Address`. -/
abbrev Address := BitVec 160

/-- `cc.CtxStatusWaiting`. -/
def ctxStatusWaiting : Nat := 1

/-- `expireQueueNumber`. -/
def expireQueueNumber : Nat := 63

/-- One anchor's signature `(V, R, S)`. -/
structure Signature where
  v : Nat
  r : Nat
  s : Nat
  deriving DecidableEq, Repr

/-- A `CrossTransaction` as the pool reads it: its id, `Data.TxHash`, the hash
`Hash()` of its data, its block hash and its one signature. -/
structure CrossTransaction where
  id : Hash
  txHash : Hash
  hash : Hash
  blockHash : Hash
  signature : Signature
  deriving DecidableEq, Repr

/-- A `CrossTransactionWithSignatures`; `hash` is its `Hash()`, over the same data. -/
structure CrossTransactionWithSignatures where
  id : Hash
  txHash : Hash
  hash : Hash
  blockHash : Hash
  status : Nat
  blockNum : Nat
  signatures : List Signature
  deriving DecidableEq, Repr

/-- The errors of the pool's entry points. -/
inductive PoolError
  | finishedCtx
  | reorgCtx
  | alreadyExistCtx
  | localSignCtx
  | invalidSign
  | duplicateSign
  /-- A refusal by the retriever (`VerifySigner`, `VerifyExpire`, `VerifyContract`)
  or by the local signer, with its code. -/
  | rejected (code : Nat)
  deriving DecidableEq, Repr

/-- What the pool asks outside itself: the chain retriever, the local key
(`SignCtx` with `pool.signer`) and `config.Signer`. -/
structure PoolEnv where
  requireSignatures : Nat
  confirmedNumber : CrossTransaction → Nat
  verifySigner : CrossTransaction → Address × Option PoolError
  verifyExpire : CrossTransaction → Option PoolError
  verifyContract : CrossTransaction → Option PoolError
  signTx : CrossTransaction → Except PoolError CrossTransaction
  signer : Address

/-! ## Signatures -/

def newCrossTransactionWithSignatures (ctx : CrossTransaction) (num : Nat) :
    CrossTransactionWithSignatures :=
  ⟨ctx.id, ctx.txHash, ctx.hash, ctx.blockHash, ctxStatusPending, num, [ctx.signature]⟩

def CrossTransactionWithSignatures.addSignature (cws : CrossTransactionWithSignatures)
    (ctx : CrossTransaction) : Except PoolError CrossTransactionWithSignatures :=
  if cws.hash ≠ ctx.hash then .error .invalidSign
  else if cws.signatures.any fun signature => signature.r == ctx.signature.r then
    .error .duplicateSign
  else .ok { cws with signatures := cws.signatures ++ [ctx.signature] }

def CrossTransactionWithSignatures.removeSignature (cws : CrossTransactionWithSignatures)
    (index : Nat) : CrossTransactionWithSignatures :=
  if index < cws.signatures.length then { cws with signatures := cws.signatures.eraseIdx index }
  else cws

theorem CrossTransactionWithSignatures.addSignature_ok {cws cws' : CrossTransactionWithSignatures}
    {ctx : CrossTransaction} (added : cws.addSignature ctx = .ok cws') :
    cws' = { cws with signatures := cws.signatures ++ [ctx.signature] } := by
  unfold CrossTransactionWithSignatures.addSignature at added
  split_ifs at added
  cases added
  rfl

/-- `NewCrossTransactionIndexed`, with the block hash as the payload the pool reads back. -/
def CrossTransactionWithSignatures.indexed (cws : CrossTransactionWithSignatures) :
    CrossTransactionIndexed Hash :=
  ⟨cws.id, cws.txHash, cws.blockNum, cws.status, cws.blockHash⟩

/-! ## `CtxSortedByBlockNum`

A map from id to entry with an index by block number: the entries in the index's
order, an entry put after those of its number or below.  `Get` returns the
entry itself, so `AddSignature` on it changes it in place (`update`). -/

structure CtxSortedByBlockNum where
  items : List CrossTransactionWithSignatures
  unique : (items.map CrossTransactionWithSignatures.id).Nodup

namespace CtxSortedByBlockNum

def empty : CtxSortedByBlockNum := ⟨[], List.nodup_nil⟩

def get (m : CtxSortedByBlockNum) (txId : Hash) : Option CrossTransactionWithSignatures :=
  m.items.find? fun ctx => ctx.id == txId

theorem id_not_mem_of_get {m : CtxSortedByBlockNum} {txId : Hash} (absent : m.get txId = none) :
    txId ∉ m.items.map CrossTransactionWithSignatures.id := by
  rw [List.mem_map]
  rintro ⟨ctx, member, rfl⟩
  simpa using List.find?_eq_none.mp absent ctx member

/-- `Put` keeps the entry of an id it already holds. -/
def put (m : CtxSortedByBlockNum) (ctx : CrossTransactionWithSignatures) : CtxSortedByBlockNum :=
  match held : m.get ctx.id with
  | some _ => m
  | none =>
      ⟨m.items.orderedInsert (fun a b => a.blockNum < b.blockNum) ctx,
        ((List.perm_orderedInsert _ ctx m.items).map _).nodup_iff.mpr
          (List.nodup_cons.mpr ⟨id_not_mem_of_get held, m.unique⟩)⟩

/-- The entry `Get` returned, changed in place. -/
def update (m : CtxSortedByBlockNum) (ctx : CrossTransactionWithSignatures) : CtxSortedByBlockNum :=
  ⟨FirstMatch.replaceFirst (fun old => old.id == ctx.id) ctx m.items, by
    rw [FirstMatch.map_replaceFirst _ _ fun old same => by simpa using same]
    exact m.unique⟩

def removeByID (m : CtxSortedByBlockNum) (id : Hash) : CtxSortedByBlockNum :=
  ⟨m.items.eraseP fun ctx => ctx.id == id, m.unique.sublist (List.eraseP_sublist.map _)⟩

def removeUnderNum (m : CtxSortedByBlockNum) (num : Nat) : CtxSortedByBlockNum :=
  ⟨m.items.filter fun ctx => num < ctx.blockNum, m.unique.sublist ((List.filter_sublist).map _)⟩

end CtxSortedByBlockNum

/-! ## The pool -/

structure CrossPool where
  pending : CtxSortedByBlockNum
  queued : CtxSortedByBlockNum
  /-- The chain's index DB behind `pool.store`. -/
  indexDB : IndexDB Hash
  /-- The ids `txLog.IsFinish` reports. -/
  finished : List Hash
  /-- The batches `Commit` sent whose callback has not run. -/
  commits : List (List CrossTransactionWithSignatures)

def newCrossPool (indexDB : IndexDB Hash) (finished : List Hash) : CrossPool :=
  ⟨.empty, .empty, indexDB, finished, []⟩

/-- `store.Get(chainID, id)`, nil on a read error. -/
def CrossPool.storeGet (pool : CrossPool) (id : Hash) :
    Option (CrossTransactionIndexed Hash) × CrossPool :=
  match pool.indexDB.read id with
  | (.ok ctx, db) => (some ctx, { pool with indexDB := db })
  | (.error _, db) => (none, { pool with indexDB := db })

def CrossPool.verifyReorg (pool : CrossPool) (ctx : CrossTransaction) :
    Option PoolError × CrossPool :=
  match pool.storeGet ctx.id with
  | (some old, pool) => (if ctx.blockHash ≠ old.data then some .reorgCtx else none, pool)
  | (none, pool) => (none, pool)

/-! ### `addTx` and `Commit` -/

/-- `checkAndCommit`: the pending entry, once it has enough signatures. -/
def CrossPool.checkAndCommit (env : PoolEnv) (pool : CrossPool) (id : Hash) :
    Option CrossTransactionWithSignatures :=
  match pool.pending.get id with
  | some cws => if cws.signatures.length ≥ env.requireSignatures then some cws else none
  | none => none

def CrossPool.addTx (env : PoolEnv) (pool : CrossPool) (ctx : CrossTransaction) (isLocal : Bool) :
    Except PoolError (Option CrossTransactionWithSignatures) × CrossPool :=
  match pool.pending.get ctx.id with
  | some cws =>
      -- a pending entry takes every signature
      match cws.addSignature ctx with
      | .error e => (.error e, pool)
      | .ok cws =>
          let pool := { pool with pending := pool.pending.update cws }
          (.ok (pool.checkAndCommit env ctx.id), pool)
  | none =>
      if isLocal then
        -- a local ctx opens the pending entry, taking over the queued signatures
        let moved := match pool.queued.get ctx.id with
          | some queuedRws => queuedRws.addSignature ctx
          | none => .ok (newCrossTransactionWithSignatures ctx (env.confirmedNumber ctx))
        match moved with
        | .error e => (.error e, pool)
        | .ok pendingRws =>
            let pool := { pool with pending := pool.pending.put pendingRws,
                                    queued := pool.queued.removeByID ctx.id }
            (.ok (pool.checkAndCommit env ctx.id), pool)
      else
        match pool.queued.get ctx.id with
        | some cws =>
            match cws.addSignature ctx with
            | .error e => (.error e, pool)
            | .ok cws => (.ok none, { pool with queued := pool.queued.update cws })
        | none =>
            let queued := pool.queued.put (newCrossTransactionWithSignatures ctx (env.confirmedNumber ctx))
            (.ok none, { pool with queued := queued })

/-- `Commit`: the entries leave `pending` at once, and go out as one batch.  The
batch holds the entries as they are now (`addTxs` commits after its loop). -/
def CrossPool.commit (pool : CrossPool) (txs : List CrossTransactionWithSignatures) : CrossPool :=
  let batch := txs.filterMap fun tx => pool.pending.get tx.id
  { pool with pending := txs.foldl (fun pending tx => pending.removeByID tx.id) pool.pending,
              commits := pool.commits ++ [batch] }

/-- One iteration of `addTxs`: the commits, the errors and the pool. -/
def CrossPool.addTxStep (env : PoolEnv) (isLocal : Bool)
    (acc : List CrossTransactionWithSignatures × List PoolError × CrossPool)
    (signedTx : CrossTransaction) : List CrossTransactionWithSignatures × List PoolError × CrossPool :=
  match acc.2.2.addTx env signedTx isLocal with
  | (.error e, pool) => (acc.1, acc.2.1 ++ [e], pool)
  | (.ok none, pool) => (acc.1, acc.2.1, pool)
  | (.ok (some cws), pool) => (acc.1 ++ [cws], acc.2.1, pool)

def CrossPool.addTxs (env : PoolEnv) (pool : CrossPool) (signed : List CrossTransaction)
    (isLocal : Bool) : List CrossTransactionWithSignatures × List PoolError × CrossPool :=
  let (commits, errs, pool) := signed.foldl (CrossPool.addTxStep env isLocal) ([], [], pool)
  (commits, errs, if commits.isEmpty then pool else pool.commit commits)

/-! ### The entry points -/

/-- One iteration of `AddLocals`' loop: the signed ctxs, the errors and the pool. -/
def CrossPool.addLocalStep (env : PoolEnv) (acc : List CrossTransaction × List PoolError × CrossPool)
    (ctx : CrossTransaction) : List CrossTransaction × List PoolError × CrossPool :=
  let (signed, errs, pool) := acc
  if ctx.id ∈ pool.finished then (signed, errs ++ [.finishedCtx], pool)
  else
    match pool.verifyReorg ctx with
    | (some e, pool) => (signed, errs ++ [e], pool)
    | (none, pool) =>
        match pool.storeGet ctx.id with
        | (some _, pool) => (signed, errs ++ [.alreadyExistCtx], pool)
        | (none, pool) =>
            match env.signTx ctx with
            | .error e => (signed, errs ++ [e], pool)
            | .ok signedTx => (signed ++ [signedTx], errs, pool)

def CrossPool.addLocals (env : PoolEnv) (pool : CrossPool) (txs : List CrossTransaction) :
    List CrossTransaction × List CrossTransactionWithSignatures × List PoolError × CrossPool :=
  let (signed, errs, pool) := txs.foldl (CrossPool.addLocalStep env) ([], [], pool)
  let (commits, addErrs, pool) := pool.addTxs env signed true
  (signed, commits, errs ++ addErrs, pool)

def CrossPool.addRemoteTx (env : PoolEnv) (pool : CrossPool) (ctx : CrossTransaction) :
    (Address × Option PoolError) × CrossPool :=
  let (signer, err) := env.verifySigner ctx
  -- the checks after the store's
  let verified : Option PoolError := (env.verifyExpire ctx).or (env.verifyContract ctx)
  match err with
  | some e => ((signer, some e), pool)
  | none =>
      if signer = env.signer then ((signer, some .localSignCtx), pool)
      else if ctx.id ∈ pool.finished then ((signer, some .finishedCtx), pool)
      else
        match pool.storeGet ctx.id with
        | (some old, pool) =>
            if old.status ≠ ctxStatusPending then ((signer, some .alreadyExistCtx), pool)
            else ((signer, verified), pool)
        | (none, pool) => ((signer, verified), pool)

/-- One iteration of `AddRemotes`' loop: the signers, the errors, the legal ctxs and the pool. -/
def CrossPool.addRemoteStep (env : PoolEnv)
    (acc : List Address × List PoolError × List CrossTransaction × CrossPool) (ctx : CrossTransaction) :
    List Address × List PoolError × List CrossTransaction × CrossPool :=
  let (signers, errs, legals, pool) := acc
  let ((signer, err), pool) := pool.addRemoteTx env ctx
  match err with
  | none => (signers ++ [signer], errs, legals ++ [ctx], pool)
  | some .localSignCtx => (signers ++ [signer], errs, legals, pool)
  | some e => (signers ++ [signer], errs ++ [e], legals, pool)

def CrossPool.addRemotes (env : PoolEnv) (pool : CrossPool) (ctxList : List CrossTransaction) :
    List Address × List PoolError × CrossPool :=
  let (signers, errs, legals, pool) := ctxList.foldl (CrossPool.addRemoteStep env) ([], [], [], pool)
  let (_, addErrs, pool) := pool.addTxs env legals false
  (signers, errs ++ addErrs, pool)

/-- `Store`: `store.Adds(chainID, cwsList, true)`. -/
def CrossPool.store (pool : CrossPool) (cwsList : List CrossTransactionWithSignatures) : CrossPool :=
  { pool with indexDB := pool.indexDB.writes (cwsList.map CrossTransactionWithSignatures.indexed) true }

/-- `Rollback`: the invalid signatures go, one index after another, and the entry is put back. -/
def CrossPool.rollback (pool : CrossPool) (cws : CrossTransactionWithSignatures)
    (invalidSigIndex : List Nat) : CrossPool :=
  let cws := invalidSigIndex.foldl CrossTransactionWithSignatures.removeSignature cws
  { pool with pending := pool.pending.put cws }

/-- One `CommitEvent` of the callback's loop: it names an entry of the batch and
the indexes of its invalid signatures (nil when all are valid).  The loop gathers
the entries to store. -/
def CrossPool.callbackStep (batch : List CrossTransactionWithSignatures)
    (acc : List CrossTransactionWithSignatures × CrossPool) (ev : Nat × Option (List Nat)) :
    List CrossTransactionWithSignatures × CrossPool :=
  match batch[ev.1]?, ev.2 with
  | none, _ => acc
  | some tx, none => (acc.1 ++ [{ tx with status := ctxStatusWaiting }], acc.2)
  | some tx, some invalidSigIndex => (acc.1, acc.2.rollback tx invalidSigIndex)

/-- The callback `Commit` hands the handler, called with its `CommitEvent`s. -/
def CrossPool.callback (pool : CrossPool) (batch : List CrossTransactionWithSignatures)
    (evs : List (Nat × Option (List Nat))) : CrossPool :=
  let (stored, pool) := evs.foldl (CrossPool.callbackStep batch) ([], pool)
  pool.store stored

/-- The walk of `Pending` in block-number order: the entries it returns and the
finished ids it collects for deletion. -/
def CrossPool.pendingScan (finished : List Hash) (startNumber : Nat) (limit : Int) :
    List CrossTransactionWithSignatures → List CrossTransactionWithSignatures → List Hash →
      List CrossTransactionWithSignatures × List Hash
  | [], pending, deletes => (pending, deletes)
  | ctx :: rest, pending, deletes =>
      if ctx.blockNum ≤ startNumber then pendingScan finished startNumber limit rest pending deletes
      else if pending ≠ [] ∧ (pending.length : Int) ≥ limit ∧
          (pending.getLast?.map CrossTransactionWithSignatures.blockNum) ≠ some ctx.blockNum then
        (pending, deletes)
      else if ctx.id ∈ finished then pendingScan finished startNumber limit rest pending (deletes ++ [ctx.id])
      else pendingScan finished startNumber limit rest (pending ++ [ctx]) deletes

def CrossPool.pendingCall (pool : CrossPool) (startNumber : Nat) (limit : Int) :
    List Hash × List CrossTransactionWithSignatures × CrossPool :=
  let (pending, deletes) := CrossPool.pendingScan pool.finished startNumber limit pool.pending.items [] []
  (pending.map CrossTransactionWithSignatures.id, pending,
    { pool with pending := deletes.foldl (fun m did => m.removeByID did) pool.pending,
                queued := deletes.foldl (fun m did => m.removeByID did) pool.queued })

/-- A tick of `loop`'s expiry timer. -/
def CrossPool.expire (pool : CrossPool) (currentNum : Nat) (expireNum : Int) : CrossPool :=
  -- `CurrentBlockNumber() - expireQueueNumber` in `uint64`
  let queued := pool.queued.removeUnderNum ((currentNum + 2 ^ 64 - expireQueueNumber) % 2 ^ 64)
  let pool := { pool with queued := queued }
  if expireNum < 0 then pool
  else if currentNum > expireNum.toNat then
    { pool with pending := pool.pending.removeUnderNum (currentNum - expireNum.toNat),
                queued := pool.queued.removeUnderNum (currentNum - expireNum.toNat) }
  else pool

/-! ## Runs -/

/-- What happens to a pool: its entry points, the handler's answer to the
`batch`-th commit still waiting, the expiry timer, and the finished log and the
index DB changed by other components. -/
inductive PoolEvent
  | addLocals (env : PoolEnv) (txs : List CrossTransaction)
  | addRemotes (env : PoolEnv) (ctxList : List CrossTransaction)
  | callback (batch : Nat) (evs : List (Nat × Option (List Nat)))
  | pending (startNumber : Nat) (limit : Int)
  | expire (currentNum : Nat) (expireNum : Int)
  | finish (id : Hash)
  | storeCall (c : Call Hash)

def CrossPool.step (pool : CrossPool) : PoolEvent → CrossPool
  | .addLocals env txs => (pool.addLocals env txs).2.2.2
  | .addRemotes env ctxList => (pool.addRemotes env ctxList).2.2
  | .callback batch evs =>
      match pool.commits[batch]? with
      | some txs => ({ pool with commits := pool.commits.eraseIdx batch }).callback txs evs
      | none => pool
  | .pending startNumber limit => (pool.pendingCall startNumber limit).2.2
  | .expire currentNum expireNum => pool.expire currentNum expireNum
  | .finish id => { pool with finished := pool.finished ++ [id] }
  | .storeCall c => { pool with indexDB := pool.indexDB.call c }

def CrossPool.run (pool : CrossPool) (events : List PoolEvent) : CrossPool :=
  events.foldl CrossPool.step pool

end SimpleChain.Cross
