import Mathlib
import SimpleChain.Cross.IndexDb

/-! # When the index DB's cache is transparent

The cache is transparent for a field when every entry it holds under that field
is storm's answer for its key (`CoherentOn`): `One` then answers as it would with
no cache.  Reads put storm's answer, and storm's records never depend on the
cache (`run_uncached`), so what remains is each writer: it must change storm's
answer only for keys it removes.  `Updates` and `Deletes` do, for both fields
(for `TxHash` given an updater that keeps it, as `CrossStore`'s do).  `Writes`
does for `CtxId`, and for `TxHash` only when it replaces nothing: a replaced record
changes the answer for `(TxHash, TxHash)`, and `Writes` removes `(CtxId, TxHash)`.
`Write` puts its record under `(CtxId, id)` also when `canReplace` kept the stored
one.  Over every history of the other calls the cached index DB answers every
read as the uncached one does; each of the two exceptions breaks that on a
history of three calls. -/
set_option autoImplicit false

namespace SimpleChain.Cross

variable {δ : Type}

/-- The same index DB with a cache size of 0. -/
def IndexDB.uncached (d : IndexDB δ) : IndexDB δ := { d with cache := none }

theorem newIndexDB_uncached (db : List (CrossTransactionIndexed δ)) (cacheSize : Nat) :
    (newIndexDB db cacheSize).uncached = newIndexDB db 0 := rfl

/-! ## Storm's answers after each change -/

section Storm
variable {db : List (CrossTransactionIndexed δ)} {field : FieldName} {key : Hash}

theorem stormOne_append {ctx : CrossTransactionIndexed δ} (new : CrossTransactionIndexed δ)
    (found : stormOne db field key = some ctx) : stormOne (db ++ [new]) field key = some ctx :=
  FirstMatch.find?_append_of_eq_some _ found

/-- An update that neither takes `key` away from the record at `id` nor gives it
to that record leaves the answer for `key`. -/
theorem stormOne_stormUpdate {id : Hash} {ctx : CrossTransactionIndexed δ}
    (outside : ∀ old, stormOne db .ctxIdIndex id = some old → old.field field ≠ key)
    (fresh : ctx.field field ≠ key) :
    stormOne (stormUpdate db id ctx) field key = stormOne db field key :=
  FirstMatch.find?_replaceFirst db (fun old found => by simpa using outside old found)
    (by simpa using fresh)

theorem stormOne_stormDelete {id : Hash}
    (outside : ∀ old, stormOne db .ctxIdIndex id = some old → old.field field ≠ key) :
    stormOne (stormDelete db id) field key = stormOne db field key :=
  FirstMatch.find?_eraseP db fun old found => by simpa using outside old found

end Storm

/-! ## Coherence -/

/-- Every entry the cache holds under `field` is storm's answer for its key. -/
def IndexDB.CoherentOn (field : FieldName) (d : IndexDB δ) : Prop :=
  ∀ key ctx, d.cached field key = some ctx → stormOne d.db field key = some ctx

/-- Every entry of `d'`'s cache is an entry of `d`'s. -/
def IndexDB.CacheWithin (d' d : IndexDB δ) : Prop :=
  ∀ field key ctx, d'.cached field key = some ctx → d.cached field key = some ctx

section Coherence
variable {field : FieldName} {d : IndexDB δ}

theorem IndexDB.uncached_coherentOn (d : IndexDB δ) (field : FieldName) :
    d.uncached.CoherentOn field := fun _ _ cached => by cases cached

theorem newIndexDB_coherentOn (db : List (CrossTransactionIndexed δ)) (cacheSize : Nat)
    (field : FieldName) : (newIndexDB db cacheSize).CoherentOn field := by
  intro key ctx cached
  by_cases empty : cacheSize = 0
  · simp [newIndexDB, newIndexDbCache, IndexDB.cached, empty] at cached
  · simp [newIndexDB, newIndexDbCache, IndexDB.cached, empty, AList.lookup_empty] at cached

theorem IndexDB.CacheWithin.refl (d : IndexDB δ) : d.CacheWithin d := fun _ _ _ cached => cached

theorem IndexDB.CacheWithin.trans {d'' d' : IndexDB δ} (inner : d''.CacheWithin d')
    (outer : d'.CacheWithin d) : d''.CacheWithin d := fun field key ctx cached =>
  outer field key ctx (inner field key ctx cached)

theorem IndexDB.CacheWithin.remove {d' : IndexDB δ} (within : d'.CacheWithin d)
    (field' : FieldName) (key' : Hash) : (d'.remove field' key').CacheWithin d :=
  fun _ _ _ cached => within _ _ _ (IndexDB.cached_of_cached_remove cached).2

/-- Dropping an entry, as a writer or an eviction does, keeps the cache coherent. -/
theorem IndexDB.CoherentOn.remove (coherent : d.CoherentOn field) (field' : FieldName)
    (key' : Hash) : (d.remove field' key').CoherentOn field := fun key ctx cached =>
  coherent key ctx (IndexDB.cached_of_cached_remove cached).2

/-- A cache that only lost entries is coherent with the records it was coherent with. -/
theorem IndexDB.CoherentOn.within {d' : IndexDB δ} (coherent : d.CoherentOn field)
    (within : d'.CacheWithin d) : ({ d with cache := d'.cache } : IndexDB δ).CoherentOn field :=
  fun key ctx cached => coherent key ctx (within field key ctx cached)

/-- Putting storm's answer keeps the cache coherent. -/
theorem IndexDB.CoherentOn.put (coherent : d.CoherentOn field) {field' : FieldName} {key' : Hash}
    {ctx' : CrossTransactionIndexed δ} (found : stormOne d.db field' key' = some ctx') :
    (d.put field' key' ctx').CoherentOn field := by
  intro key ctx cached
  rcases IndexDB.cached_of_cached_put cached with ⟨same, rfl⟩ | before
  · -- the entry just put
    obtain ⟨rfl, rfl⟩ := Prod.mk.inj same
    exact found
  · exact coherent key ctx before

/-- A change of the records that keeps storm's answer for every cached key it
does not remove keeps the cache coherent: the shape of every writer's step. -/
theorem IndexDB.CoherentOn.change (coherent : d.CoherentOn field)
    (db' : List (CrossTransactionIndexed δ)) (field₁ field₂ : FieldName) (key₁ key₂ : Hash)
    (same : ∀ key ctx, (field, key) ≠ (field₁, key₁) → (field, key) ≠ (field₂, key₂) →
      stormOne d.db field key = some ctx → stormOne db' field key = some ctx) :
    ((({ d with db := db' } : IndexDB δ).remove field₁ key₁).remove field₂ key₂).CoherentOn field := by
  intro key ctx cached
  obtain ⟨removed₂, cached₁⟩ := IndexDB.cached_of_cached_remove cached
  obtain ⟨removed₁, cached₀⟩ := IndexDB.cached_of_cached_remove cached₁
  exact same key ctx removed₁ removed₂ (coherent key ctx cached₀)

end Coherence

/-! ## Reads -/

section Reads
variable {field : FieldName} {d : IndexDB δ}

/-- A coherent cache makes `One` answer as storm does. -/
theorem IndexDB.CoherentOn.one_fst (coherent : d.CoherentOn field) (key : Hash) :
    (d.one field key).1 = stormOne d.db field key := by
  unfold IndexDB.one
  cases cached : d.cached field key with
  | some ctx => exact (coherent key ctx cached).symm
  | none => cases stormOne d.db field key <;> rfl

theorem IndexDB.CoherentOn.one (coherent : d.CoherentOn field) (field' : FieldName)
    (key' : Hash) : (d.one field' key').2.CoherentOn field := by
  unfold IndexDB.one
  cases d.cached field' key' with
  | some ctx => exact coherent
  | none =>
      cases found : stormOne d.db field' key' with
      | none => exact coherent
      | some ctx => exact coherent.put found

theorem IndexDB.CoherentOn.get (coherent : d.CoherentOn field) (id : Hash) :
    (d.get id).2.CoherentOn field := by
  rw [IndexDB.get_snd]
  exact coherent.one .ctxIdIndex id

theorem IndexDB.CoherentOn.has (coherent : d.CoherentOn field) (id : Hash) :
    (d.has id).2.CoherentOn field := by
  rw [IndexDB.has_snd]
  exact coherent.get id

/-- `One` from a coherent cache answers as the index DB without one. -/
theorem IndexDB.one_transparent (coherent : d.CoherentOn field) (key : Hash) :
    (d.one field key).1 = (d.uncached.one field key).1 := by
  rw [coherent.one_fst, (d.uncached_coherentOn field).one_fst]
  rfl

theorem IndexDB.get_transparent (coherent : d.CoherentOn .ctxIdIndex) (id : Hash) :
    (d.get id).1 = (d.uncached.get id).1 := by
  rw [IndexDB.get_fst, IndexDB.get_fst, IndexDB.one_transparent coherent]

theorem IndexDB.has_transparent (coherent : d.CoherentOn .ctxIdIndex) (id : Hash) :
    (d.has id).1 = (d.uncached.has id).1 := by
  rw [IndexDB.has_fst, IndexDB.has_fst, IndexDB.get_transparent coherent]

end Reads

/-! ## Writers -/

section Writers
variable {d : IndexDB δ}

/-- `Writes` keeps the `CtxId` entries coherent: it removes the one of the id it
saves or replaces. -/
theorem IndexDB.writeStep_coherentOn_ctxIdIndex (replaceable : Bool)
    (new : CrossTransactionIndexed δ) (coherent : d.CoherentOn .ctxIdIndex) :
    (d.writeStep replaceable new).CoherentOn .ctxIdIndex := by
  rcases d.writeStep_cases replaceable new with ⟨-, saved⟩ | ⟨old, -, -, replaced⟩ | ⟨-, -, -, kept⟩
  · rw [saved]
    exact coherent.change _ _ _ _ _ fun key ctx _ _ found => stormOne_append new found
  · rw [replaced]
    refine coherent.change _ _ _ _ _ fun key ctx removed _ found => ?_
    have other : new.ctxId ≠ key := fun same => removed (by rw [same])
    rw [stormOne_stormUpdate (fun old' found' => by rw [field_of_stormOne found']; exact other)
      (show new.field .ctxIdIndex ≠ key from other)]
    exact found
  · rw [kept]
    exact coherent

/-- `Writes` that may not replace keeps every entry coherent: it only saves new ids. -/
theorem IndexDB.writeStep_coherentOn_of_not_replaceable (field : FieldName)
    (new : CrossTransactionIndexed δ) (coherent : d.CoherentOn field) :
    (d.writeStep false new).CoherentOn field := by
  rcases d.writeStep_cases false new with ⟨-, saved⟩ | ⟨old, -, can, -⟩ | ⟨-, -, -, kept⟩
  · rw [saved]
    exact coherent.change _ _ _ _ _ fun key ctx _ _ found => stormOne_append new found
  · simp [canReplace] at can
  · rw [kept]
    exact coherent

theorem IndexDB.writes_coherentOn_ctxIdIndex (ctxList : List (CrossTransactionIndexed δ))
    (replaceable : Bool) (coherent : d.CoherentOn .ctxIdIndex) :
    (d.writes ctxList replaceable).CoherentOn .ctxIdIndex :=
  GoLoop.foldl_invariant _ _ ctxList d
    (fun t new _ coherentT => t.writeStep_coherentOn_ctxIdIndex replaceable new coherentT) coherent

theorem IndexDB.writes_coherentOn_of_not_replaceable (field : FieldName)
    (ctxList : List (CrossTransactionIndexed δ)) (coherent : d.CoherentOn field) :
    (d.writes ctxList false).CoherentOn field :=
  GoLoop.foldl_invariant _ _ ctxList d
    (fun t new _ coherentT => t.writeStep_coherentOn_of_not_replaceable field new coherentT) coherent

/-- An iteration of `Updates` keeps the cache coherent: the record it moves held
and holds only keys it removes, given for `TxHash` that the updater keeps it. -/
theorem IndexDB.updateStep_coherentOn (field : FieldName) {t : IndexDB δ}
    {item : Hash × (CrossTransactionIndexed δ → CrossTransactionIndexed δ)}
    (keeps : field = .txHashIndex → ∀ ctx, (item.2 ctx).txHash = ctx.txHash)
    (coherent : d.CoherentOn field) (step : d.updateStep item = .ok t) : t.CoherentOn field := by
  obtain ⟨old, found, unique, rfl⟩ := IndexDB.updateStep_ok step
  refine coherent.change _ _ _ _ _ fun key ctx removed₁ removed₂ cachedFound => ?_
  have moved : old.field field ≠ key ∧ (item.2 old).field field ≠ key := by
    cases field with
    | ctxIdIndex =>
        have other : item.1 ≠ key := fun same => removed₁ (by rw [same])
        refine ⟨by rw [field_of_stormOne found]; exact other, fun taken => ?_⟩
        -- the record's new `CtxId` was free, yet the cache answers for it
        rcases Bool.or_eq_true_iff.mp unique with same | free
        · exact other ((beq_iff_eq.mp same) ▸ taken)
        · change (item.2 old).ctxId = key at taken
          rw [taken, Option.isNone_iff_eq_none, cachedFound] at free
          cases free
    | txHashIndex =>
        have other : (item.2 old).txHash ≠ key := fun same => removed₂ (by rw [same])
        refine ⟨?_, other⟩
        show old.txHash ≠ key
        rw [← keeps rfl old]
        exact other
  rw [stormOne_stormUpdate (fun old' found' => by rw [found] at found'; cases found'; exact moved.1)
    moved.2]
  exact cachedFound

theorem IndexDB.updateStep_cacheWithin {t : IndexDB δ}
    {item : Hash × (CrossTransactionIndexed δ → CrossTransactionIndexed δ)}
    (step : d.updateStep item = .ok t) : t.CacheWithin d := by
  obtain ⟨old, -, -, rfl⟩ := IndexDB.updateStep_ok step
  exact ((IndexDB.CacheWithin.refl d).remove _ _).remove _ _

theorem IndexDB.updates_coherentOn (field : FieldName) (idList : List Hash)
    (updaters : List (CrossTransactionIndexed δ → CrossTransactionIndexed δ))
    (keeps : field = .txHashIndex → ∀ updater ∈ updaters, ∀ ctx, (updater ctx).txHash = ctx.txHash)
    (coherent : d.CoherentOn field) : (d.updates idList updaters).2.CoherentOn field := by
  unfold IndexDB.updates
  by_cases mismatch : idList.length ≠ updaters.length
  · rw [if_pos mismatch]
    exact coherent
  · rw [if_neg mismatch]
    cases run : (idList.zip updaters).foldlM IndexDB.updateStep d with
    | ok tx =>
        exact GoLoop.foldlM_invariant (IndexDB.CoherentOn field) IndexDB.updateStep _ d tx
          (fun t item t' member coherentT step => t.updateStep_coherentOn field
            (fun isTxHash => keeps isTxHash item.2 (List.of_mem_zip member).2) coherentT step)
          coherent run
    | error stop =>
        -- rolled back: the records before the loop, and a cache that only lost entries
        obtain ⟨e, tx⟩ := stop
        have within : tx.CacheWithin d :=
          GoLoop.foldlM_failure_invariant (fun t => t.CacheWithin d) IndexDB.updateStep
            (fun t _ t' within step => (IndexDB.updateStep_cacheWithin step).trans within)
            (fun t _ _ t' within step => by rw [IndexDB.updateStep_error step]; exact within)
            _ d e tx (IndexDB.CacheWithin.refl d) run
        exact coherent.within within

/-- An iteration of `Deletes` keeps the cache coherent: the record it deletes
held only keys it removes. -/
theorem IndexDB.deleteStep_coherentOn (field : FieldName) (id : Hash)
    (coherent : d.CoherentOn field) : (d.deleteStep id).CoherentOn field := by
  unfold IndexDB.deleteStep
  cases found : stormOne d.db .ctxIdIndex id with
  | none => exact coherent
  | some old =>
      show ((({ d with db := stormDelete d.db id } : IndexDB δ).remove .ctxIdIndex id).remove
        .txHashIndex old.txHash).CoherentOn field
      refine coherent.change _ _ _ _ _ fun key ctx removed₁ removed₂ cachedFound => ?_
      have erased : old.field field ≠ key := by
        cases field with
        | ctxIdIndex =>
            rw [field_of_stormOne found]
            exact fun same => removed₁ (by rw [same])
        | txHashIndex => exact fun same => removed₂ (by rw [← same]; rfl)
      rw [stormOne_stormDelete fun old' found' => by rw [found] at found'; cases found'; exact erased]
      exact cachedFound

theorem IndexDB.deletes_coherentOn (field : FieldName) (idList : List Hash)
    (coherent : d.CoherentOn field) : (d.deletes idList).CoherentOn field :=
  GoLoop.foldl_invariant _ _ idList d
    (fun t id _ coherentT => t.deleteStep_coherentOn field id coherentT) coherent

end Writers

/-! ## Storm's records do not depend on the cache -/

section Frame
variable (d : IndexDB δ)

@[simp] theorem IndexDB.uncached_db : d.uncached.db = d.db := rfl

@[simp] theorem IndexDB.uncached_cached (field : FieldName) (key : Hash) :
    d.uncached.cached field key = none := rfl

@[simp] theorem IndexDB.uncached_remove (field : FieldName) (key : Hash) :
    (d.remove field key).uncached = d.uncached := rfl

@[simp] theorem IndexDB.uncached_put (field : FieldName) (key : Hash)
    (ctx : CrossTransactionIndexed δ) : (d.put field key ctx).uncached = d.uncached := rfl

@[simp] theorem IndexDB.put_uncached (field : FieldName) (key : Hash)
    (ctx : CrossTransactionIndexed δ) : d.uncached.put field key ctx = d.uncached := rfl

theorem IndexDB.uncached_one (field : FieldName) (key : Hash) :
    d.uncached.one field key = (stormOne d.db field key, d.uncached) := by
  unfold IndexDB.one
  rw [IndexDB.uncached_cached, IndexDB.uncached_db]
  cases stormOne d.db field key <;> rfl

theorem IndexDB.one_uncached (field : FieldName) (key : Hash) :
    (d.one field key).2.uncached = (d.uncached.one field key).2 := by
  rw [IndexDB.uncached_one]
  unfold IndexDB.one
  cases d.cached field key with
  | some ctx => rfl
  | none => cases stormOne d.db field key <;> rfl

theorem IndexDB.get_uncached (id : Hash) : (d.get id).2.uncached = (d.uncached.get id).2 := by
  rw [IndexDB.get_snd, IndexDB.get_snd, IndexDB.one_uncached]

theorem IndexDB.has_uncached (id : Hash) : (d.has id).2.uncached = (d.uncached.has id).2 := by
  rw [IndexDB.has_snd, IndexDB.has_snd, IndexDB.get_uncached]

theorem IndexDB.writeStep_uncached (replaceable : Bool) (new : CrossTransactionIndexed δ) :
    (d.writeStep replaceable new).uncached = d.uncached.writeStep replaceable new := by
  simp only [IndexDB.writeStep, IndexDB.uncached]
  cases stormOne d.db .ctxIdIndex new.ctxId with
  | none => rfl
  | some old =>
      dsimp only
      cases canReplace replaceable old new <;> rfl

theorem IndexDB.writes_uncached (ctxList : List (CrossTransactionIndexed δ)) (replaceable : Bool) :
    (d.writes ctxList replaceable).uncached = d.uncached.writes ctxList replaceable :=
  (List.foldl_hom IndexDB.uncached fun t new => (t.writeStep_uncached replaceable new).symm).symm

theorem IndexDB.write_uncached (ctx : CrossTransactionIndexed δ) :
    (d.write ctx).uncached = d.uncached.write ctx := by
  unfold IndexDB.write
  rw [IndexDB.uncached_put, ← IndexDB.writes_uncached, IndexDB.put_uncached]

theorem IndexDB.updateStep_uncached
    (item : Hash × (CrossTransactionIndexed δ → CrossTransactionIndexed δ)) :
    d.uncached.updateStep item =
      ((d.updateStep item).map IndexDB.uncached).mapError fun stop => (stop.1, stop.2.uncached) := by
  unfold IndexDB.updateStep
  rw [IndexDB.uncached_db]
  cases stormOne d.db .ctxIdIndex item.1 with
  | none => rfl
  | some ctx =>
      dsimp only
      by_cases unique : stormUnique d.db item.1 (item.2 ctx) = true
      · rw [if_pos unique, if_pos unique]
        rfl
      · rw [if_neg unique, if_neg unique]
        rfl

theorem IndexDB.updates_uncached (idList : List Hash)
    (updaters : List (CrossTransactionIndexed δ → CrossTransactionIndexed δ)) :
    (d.updates idList updaters).2.uncached = (d.uncached.updates idList updaters).2 := by
  unfold IndexDB.updates
  by_cases mismatch : idList.length ≠ updaters.length
  · rw [if_pos mismatch, if_pos mismatch]
  · rw [if_neg mismatch, if_neg mismatch, GoLoop.foldlM_map_state IndexDB.uncached IndexDB.updateStep
      (fun t item => t.updateStep_uncached item)]
    cases (idList.zip updaters).foldlM IndexDB.updateStep d with
    | ok tx => rfl
    | error stop => rfl

theorem IndexDB.deleteStep_uncached (id : Hash) :
    (d.deleteStep id).uncached = d.uncached.deleteStep id := by
  simp only [IndexDB.deleteStep, IndexDB.uncached]
  cases stormOne d.db .ctxIdIndex id <;> rfl

theorem IndexDB.deletes_uncached (idList : List Hash) :
    (d.deletes idList).uncached = d.uncached.deletes idList :=
  (List.foldl_hom IndexDB.uncached fun t id => (t.deleteStep_uncached id).symm).symm

theorem IndexDB.call_uncached (c : Call δ) : (d.call c).uncached = d.uncached.call c := by
  cases c with
  | write ctx => exact d.write_uncached ctx
  | writes ctxList replaceable => exact d.writes_uncached ctxList replaceable
  | update id updater => exact d.updates_uncached [id] [updater]
  | updates idList updaters => exact d.updates_uncached idList updaters
  | deletes idList => exact d.deletes_uncached idList
  | read ctxId => exact d.get_uncached ctxId
  | has id => exact d.has_uncached id
  | one field key => exact d.one_uncached field key

/-- The index DB without a cache goes through the same records over every history. -/
theorem IndexDB.run_uncached (calls : List (Call δ)) :
    (d.run calls).uncached = d.uncached.run calls :=
  (List.foldl_hom IndexDB.uncached fun t c => (t.call_uncached c).symm).symm

end Frame

/-! ## Histories -/

/-- Every call but `Write` keeps the `CtxId` entries coherent. -/
def Call.KeepsCtxIdCache : Call δ → Prop
  | .write _ => False
  | _ => True

/-- The calls that keep every entry coherent: reads, `Deletes`, `Writes` that may
not replace, and `Updates` whose updaters keep the `TxHash`. -/
def Call.KeepsCache : Call δ → Prop
  | .write _ => False
  | .writes _ replaceable => replaceable = false
  | .update _ updater => ∀ ctx, (updater ctx).txHash = ctx.txHash
  | .updates _ updaters => ∀ updater ∈ updaters, ∀ ctx, (updater ctx).txHash = ctx.txHash
  | .deletes _ | .read _ | .has _ | .one _ _ => True

theorem CrossTransactionModifier.updater_txHash (txm : CrossTransactionModifier)
    (ctx : CrossTransactionIndexed δ) : (txm.updater ctx).txHash = ctx.txHash := by
  unfold CrossTransactionModifier.updater
  split_ifs <;> rfl

/-- The updates `CrossStore` makes keep the whole cache coherent. -/
theorem crossStoreUpdates_keepsCache (txmList : List CrossTransactionModifier) :
    (crossStoreUpdates txmList : Call δ).KeepsCache := by
  intro updater member ctx
  obtain ⟨txm, -, rfl⟩ := List.mem_map.mp member
  exact txm.updater_txHash ctx

section Histories
variable {d : IndexDB δ}

theorem IndexDB.call_coherentOn_ctxIdIndex {c : Call δ} (keeps : c.KeepsCtxIdCache)
    (coherent : d.CoherentOn .ctxIdIndex) : (d.call c).CoherentOn .ctxIdIndex := by
  cases c with
  | write ctx => exact keeps.elim
  | writes ctxList replaceable => exact d.writes_coherentOn_ctxIdIndex ctxList replaceable coherent
  | update id updater => exact d.updates_coherentOn .ctxIdIndex [id] [updater] nofun coherent
  | updates idList updaters => exact d.updates_coherentOn .ctxIdIndex idList updaters nofun coherent
  | deletes idList => exact d.deletes_coherentOn .ctxIdIndex idList coherent
  | read ctxId => exact coherent.get ctxId
  | has id => exact coherent.has id
  | one field key => exact coherent.one field key

theorem IndexDB.call_coherentOn (field : FieldName) {c : Call δ} (keeps : c.KeepsCache)
    (coherent : d.CoherentOn field) : (d.call c).CoherentOn field := by
  cases c with
  | write ctx => exact keeps.elim
  | writes ctxList replaceable =>
      cases (keeps : replaceable = false)
      exact d.writes_coherentOn_of_not_replaceable field ctxList coherent
  | update id updater =>
      refine d.updates_coherentOn field [id] [updater] (fun _ keep member => ?_) coherent
      rw [List.mem_singleton.mp member]
      exact keeps
  | updates idList updaters =>
      exact d.updates_coherentOn field idList updaters (fun _ => keeps) coherent
  | deletes idList => exact d.deletes_coherentOn field idList coherent
  | read ctxId => exact coherent.get ctxId
  | has id => exact coherent.has id
  | one field' key => exact coherent.one field' key

/-- After any history without `Write`, `Read`, `Has` and `One` by `CtxId` answer as
they do without a cache. -/
theorem IndexDB.ctxIdReads_transparent (coherent : d.CoherentOn .ctxIdIndex)
    (calls : List (Call δ)) (keeps : ∀ c ∈ calls, c.KeepsCtxIdCache) (id : Hash) :
    ((d.run calls).read id).1 = ((d.uncached.run calls).read id).1 ∧
      ((d.run calls).has id).1 = ((d.uncached.run calls).has id).1 ∧
      ((d.run calls).one .ctxIdIndex id).1 = ((d.uncached.run calls).one .ctxIdIndex id).1 := by
  have after : (d.run calls).CoherentOn .ctxIdIndex :=
    GoLoop.foldl_invariant _ _ calls d
      (fun t c member coherentT => t.call_coherentOn_ctxIdIndex (keeps c member) coherentT) coherent
  rw [← IndexDB.run_uncached]
  exact ⟨IndexDB.get_transparent after id, IndexDB.has_transparent after id,
    IndexDB.one_transparent after id⟩

/-- After any history of reads, `Deletes`, `Writes` that may not replace and
`Updates` that keep the `TxHash`, every read answers as it does without a cache. -/
theorem IndexDB.reads_transparent (coherent : ∀ field, d.CoherentOn field)
    (calls : List (Call δ)) (keeps : ∀ c ∈ calls, c.KeepsCache) (field : FieldName) (key : Hash) :
    ((d.run calls).one field key).1 = ((d.uncached.run calls).one field key).1 ∧
      ((d.run calls).read key).1 = ((d.uncached.run calls).read key).1 ∧
      ((d.run calls).has key).1 = ((d.uncached.run calls).has key).1 := by
  have after : ∀ field, (d.run calls).CoherentOn field := fun field =>
    GoLoop.foldl_invariant _ _ calls d
      (fun t c member coherentT => t.call_coherentOn field (keeps c member) coherentT) (coherent field)
  rw [← IndexDB.run_uncached]
  exact ⟨IndexDB.one_transparent (after field) key, IndexDB.get_transparent (after .ctxIdIndex) key,
    IndexDB.has_transparent (after .ctxIdIndex) key⟩

/-- A DB made by `NewIndexDB` answers every read after such a history as the same DB
made with a cache size of 0 does. -/
theorem newIndexDB_reads_transparent (db : List (CrossTransactionIndexed δ)) (cacheSize : Nat)
    (calls : List (Call δ)) (keeps : ∀ c ∈ calls, c.KeepsCache) (field : FieldName) (key : Hash) :
    (((newIndexDB db cacheSize).run calls).one field key).1 = (((newIndexDB db 0).run calls).one field key).1 ∧
      (((newIndexDB db cacheSize).run calls).read key).1 = (((newIndexDB db 0).run calls).read key).1 ∧
      (((newIndexDB db cacheSize).run calls).has key).1 = (((newIndexDB db 0).run calls).has key).1 := by
  rw [← newIndexDB_uncached db cacheSize]
  exact IndexDB.reads_transparent (newIndexDB_coherentOn db cacheSize) calls keeps field key

/-- `CrossStore`'s own updates are such a history. -/
theorem newIndexDB_crossStoreUpdates_transparent (db : List (CrossTransactionIndexed δ)) (cacheSize : Nat)
    (txmLists : List (List CrossTransactionModifier)) (field : FieldName) (key : Hash) :
    (((newIndexDB db cacheSize).run (txmLists.map crossStoreUpdates)).one field key).1 =
        (((newIndexDB db 0).run (txmLists.map crossStoreUpdates)).one field key).1 ∧
      (((newIndexDB db cacheSize).run (txmLists.map crossStoreUpdates)).read key).1 =
        (((newIndexDB db 0).run (txmLists.map crossStoreUpdates)).read key).1 ∧
      (((newIndexDB db cacheSize).run (txmLists.map crossStoreUpdates)).has key).1 =
        (((newIndexDB db 0).run (txmLists.map crossStoreUpdates)).has key).1 := by
  refine newIndexDB_reads_transparent db cacheSize _ (fun c listed => ?_) field key
  obtain ⟨txmList, -, rfl⟩ := List.mem_map.mp listed
  exact crossStoreUpdates_keepsCache txmList

end Histories

/-! ## The two writers that break it -/

/-- A cross transaction executed (status 4) at block 5. -/
def executedCtx : CrossTransactionIndexed Unit := ⟨1#256, 2#256, 5, 4, ()⟩

/-- The same cross transaction as an earlier report has it: waiting (status 1). -/
def waitingCtx : CrossTransactionIndexed Unit := ⟨1#256, 2#256, 5, 1, ()⟩

/-- The same cross transaction finishing (status 5) at block 6. -/
def finishingCtx : CrossTransactionIndexed Unit := ⟨1#256, 2#256, 6, 5, ()⟩

/-- A `Write` that `canReplace` refuses leaves its record cached, and `Read` returns
it; a `Writes` that replaces a record leaves `One(TxHash, ·)` cached with the old one. -/
theorem indexDB_cache_serves_stale_records :
    (((newIndexDB [] 4096).run [.write executedCtx, .write waitingCtx]).read 1#256).1 =
        .ok waitingCtx ∧
      (((newIndexDB [] 0).run [.write executedCtx, .write waitingCtx]).read 1#256).1 =
        .ok executedCtx ∧
      (((newIndexDB [] 4096).run [.writes [executedCtx] true, .one .txHashIndex 2#256,
          .writes [finishingCtx] true]).one .txHashIndex 2#256).1 = some executedCtx ∧
      (((newIndexDB [] 0).run [.writes [executedCtx] true, .one .txHashIndex 2#256,
          .writes [finishingCtx] true]).one .txHashIndex 2#256).1 = some finishingCtx :=
  ⟨rfl, rfl, rfl, rfl⟩

end SimpleChain.Cross
