import Mathlib
import SimpleChain.Cross.Pool

/-! # Pending and queued entries of the pool

A ctx's signatures are meant to live in one place: in `pending` once this node has
signed it, in `queued` before.  `addTx` keeps that: a signature goes to the
pending entry when there is one, a local ctx takes the queued entry over, and a
remote one is queued only while no pending entry exists.  Every other entry point
only removes entries (`Commit`, `Pending`, the expiry timer) or leaves both maps
alone, so the separation holds over every run in which no callback rolls back
(`run_separated`).

`Rollback` breaks it.  `Commit` takes the entry out of `pending` before the handler
has answered, so a peer's signature arriving meanwhile is queued, and `Rollback`
then puts the entry back into `pending` next to it.  It also removes the invalid
signatures by their indexes one after another, so after the first removal each
index points one signature further on: a valid signature is dropped and an
invalid one kept. -/
set_option autoImplicit false

namespace SimpleChain.Cross

namespace CtxSortedByBlockNum

def ids (m : CtxSortedByBlockNum) : List Hash := m.items.map CrossTransactionWithSignatures.id

theorem get_eq_none_iff (m : CtxSortedByBlockNum) (id : Hash) : m.get id = none ↔ id ∉ m.ids := by
  unfold get ids
  rw [List.find?_eq_none, List.mem_map]
  constructor
  · rintro absent ⟨ctx, member, rfl⟩
    simpa using absent ctx member
  · intro absent ctx member same
    exact absent ⟨ctx, member, by simpa using same⟩

theorem id_of_get {m : CtxSortedByBlockNum} {id : Hash} {cws : CrossTransactionWithSignatures}
    (found : m.get id = some cws) : cws.id = id := by
  simpa using List.find?_some found

theorem ids_update (m : CtxSortedByBlockNum) (cws : CrossTransactionWithSignatures) :
    (m.update cws).ids = m.ids :=
  FirstMatch.map_replaceFirst _ _ fun _ same => by simpa using same

theorem mem_ids_put {m : CtxSortedByBlockNum} {cws : CrossTransactionWithSignatures} {id : Hash}
    (member : id ∈ (m.put cws).ids) : id ∈ m.ids ∨ id = cws.id := by
  unfold put at member
  split at member
  · exact .inl member
  · have inserted := ((List.perm_orderedInsert _ cws m.items).map
      CrossTransactionWithSignatures.id).mem_iff.mp member
    rcases List.mem_cons.mp inserted with same | earlier
    · exact .inr same
    · exact .inl earlier

theorem ids_removeByID_subset (m : CtxSortedByBlockNum) (id : Hash) :
    (m.removeByID id).ids ⊆ m.ids :=
  (List.eraseP_sublist.map _).subset

theorem not_mem_ids_removeByID (m : CtxSortedByBlockNum) (id : Hash) : id ∉ (m.removeByID id).ids := by
  unfold ids removeByID
  rw [List.mem_map]
  rintro ⟨ctx, member, same⟩
  exact FirstMatch.key_ne_of_mem_eraseP CrossTransactionWithSignatures.id id m.items m.unique ctx
    member same

theorem ids_removeUnderNum_subset (m : CtxSortedByBlockNum) (num : Nat) :
    (m.removeUnderNum num).ids ⊆ m.ids :=
  ((List.filter_sublist).map _).subset

theorem ids_foldl_removeByID_subset {β : Type} (m : CtxSortedByBlockNum) (key : β → Hash)
    (l : List β) : (l.foldl (fun m x => m.removeByID (key x)) m).ids ⊆ m.ids :=
  GoLoop.foldl_invariant (fun m' => m'.ids ⊆ m.ids) (fun m x => m.removeByID (key x)) l m
    (fun m' x _ within => List.Subset.trans (ids_removeByID_subset m' (key x)) within)
    (List.Subset.refl _)

end CtxSortedByBlockNum

/-- No ctx id has an entry both in `pending` and in `queued`. -/
def CrossPool.Separated (pool : CrossPool) : Prop :=
  ∀ id ∈ pool.pending.ids, id ∉ pool.queued.ids

instance : DecidablePred CrossPool.Separated := fun pool =>
  inferInstanceAs (Decidable (∀ id ∈ pool.pending.ids, id ∉ pool.queued.ids))

/-- The two maps, all that separation reads. -/
def CrossPool.held (pool : CrossPool) : CtxSortedByBlockNum × CtxSortedByBlockNum :=
  (pool.pending, pool.queued)

section Separation
variable {pool : CrossPool}

theorem CrossPool.Separated.of_held {pool' : CrossPool} (separated : pool.Separated)
    (same : pool'.held = pool.held) : pool'.Separated := by
  obtain ⟨samePending, sameQueued⟩ := Prod.mk.inj same
  intro id member
  rw [sameQueued]
  exact separated id (samePending ▸ member)

/-- Removing entries keeps the maps separated. -/
theorem CrossPool.Separated.shrink {pool' : CrossPool} (separated : pool.Separated)
    (pending : pool'.pending.ids ⊆ pool.pending.ids) (queued : pool'.queued.ids ⊆ pool.queued.ids) :
    pool'.Separated := fun id member inQueued =>
  separated id (pending member) (queued inQueued)

/-! ### The reads of the store and the checks -/

theorem CrossPool.storeGet_held (pool : CrossPool) (id : Hash) : (pool.storeGet id).2.held = pool.held := by
  unfold CrossPool.storeGet
  cases pool.indexDB.read id with
  | mk result db => cases result <;> rfl

theorem CrossPool.verifyReorg_held (pool : CrossPool) (ctx : CrossTransaction) :
    (pool.verifyReorg ctx).2.held = pool.held := by
  unfold CrossPool.verifyReorg
  have read := pool.storeGet_held ctx.id
  cases found : pool.storeGet ctx.id with
  | mk old pool' =>
      rw [found] at read
      cases old <;> exact read

theorem CrossPool.addLocalStep_held (env : PoolEnv)
    (acc : List CrossTransaction × List PoolError × CrossPool) (ctx : CrossTransaction) :
    (CrossPool.addLocalStep env acc ctx).2.2.held = acc.2.2.held := by
  obtain ⟨signed, errs, pool⟩ := acc
  unfold CrossPool.addLocalStep
  dsimp only
  split_ifs
  · rfl
  · split
    next e pool' checked => rw [← pool.verifyReorg_held ctx, checked]
    next pool' checked =>
      have reorg : pool'.held = pool.held := by rw [← pool.verifyReorg_held ctx, checked]
      split
      next old pool'' found => rw [← reorg, ← pool'.storeGet_held ctx.id, found]
      next pool'' found =>
        have read : pool''.held = pool'.held := by rw [← pool'.storeGet_held ctx.id, found]
        split <;> exact read.trans reorg

theorem CrossPool.addRemoteTx_held (env : PoolEnv) (pool : CrossPool) (ctx : CrossTransaction) :
    (pool.addRemoteTx env ctx).2.held = pool.held := by
  unfold CrossPool.addRemoteTx
  dsimp only
  split
  · rfl
  · split_ifs
    · rfl
    · rfl
    · split
      next old pool' found =>
        have read : pool'.held = pool.held := by rw [← pool.storeGet_held ctx.id, found]
        split_ifs <;> exact read
      next pool' found => rw [← pool.storeGet_held ctx.id, found]

theorem CrossPool.addRemoteStep_held (env : PoolEnv)
    (acc : List Address × List PoolError × List CrossTransaction × CrossPool) (ctx : CrossTransaction) :
    (CrossPool.addRemoteStep env acc ctx).2.2.2.held = acc.2.2.2.held := by
  obtain ⟨signers, errs, legals, pool⟩ := acc
  unfold CrossPool.addRemoteStep
  dsimp only
  split <;> exact pool.addRemoteTx_held env ctx

/-! ### `addTx` and `Commit` -/

/-- A new pending entry whose ctx leaves `queued` keeps the maps separated. -/
theorem CrossPool.Separated.promote (separated : pool.Separated) {id : Hash}
    {cws : CrossTransactionWithSignatures} (sameId : cws.id = id) :
    ({ pool with pending := pool.pending.put cws, queued := pool.queued.removeByID id } : CrossPool).Separated := by
  intro id' member inQueue
  rcases CtxSortedByBlockNum.mem_ids_put member with earlier | same
  · exact separated id' earlier (CtxSortedByBlockNum.ids_removeByID_subset _ _ inQueue)
  · rw [same, sameId] at inQueue
    exact CtxSortedByBlockNum.not_mem_ids_removeByID _ _ inQueue

/-- A new queued entry for a ctx with no pending entry keeps the maps separated. -/
theorem CrossPool.Separated.enqueue (separated : pool.Separated) {cws : CrossTransactionWithSignatures}
    (fresh : cws.id ∉ pool.pending.ids) :
    ({ pool with queued := pool.queued.put cws } : CrossPool).Separated := by
  intro id member inQueue
  rcases CtxSortedByBlockNum.mem_ids_put inQueue with earlier | same
  · exact separated id member earlier
  · exact fresh (same ▸ member)

/-- `addTx` keeps the maps separated: a signature goes to the pending entry if
there is one, a local ctx takes over its queued entry, and a remote one is queued
only while it has no pending entry. -/
theorem CrossPool.addTx_separated (env : PoolEnv) (ctx : CrossTransaction) (isLocal : Bool)
    (separated : pool.Separated) : (pool.addTx env ctx isLocal).2.Separated := by
  unfold CrossPool.addTx
  cases inPending : pool.pending.get ctx.id with
  | some cws =>
      dsimp only
      cases cws.addSignature ctx with
      | error e => exact separated
      | ok cws' =>
          refine separated.shrink ?_ (List.Subset.refl _)
          rw [CtxSortedByBlockNum.ids_update]
          exact List.Subset.refl _
  | none =>
      have fresh := (pool.pending.get_eq_none_iff ctx.id).mp inPending
      cases isLocal with
      | true =>
          rw [if_pos rfl]
          cases inQueue : pool.queued.get ctx.id with
          | some queuedRws =>
              dsimp only
              cases added : queuedRws.addSignature ctx with
              | error e => exact separated
              | ok pendingRws =>
                  refine separated.promote ?_
                  rw [CrossTransactionWithSignatures.addSignature_ok added]
                  show queuedRws.id = ctx.id
                  exact CtxSortedByBlockNum.id_of_get inQueue
          | none => exact separated.promote rfl
      | false =>
          rw [if_neg Bool.false_ne_true]
          cases inQueue : pool.queued.get ctx.id with
          | some cws =>
              dsimp only
              cases cws.addSignature ctx with
              | error e => exact separated
              | ok cws' =>
                  refine separated.shrink (List.Subset.refl _) ?_
                  rw [CtxSortedByBlockNum.ids_update]
                  exact List.Subset.refl _
          | none => exact separated.enqueue fresh

theorem CrossPool.commit_separated (txs : List CrossTransactionWithSignatures)
    (separated : pool.Separated) : (pool.commit txs).Separated := by
  exact separated.shrink (pool.pending.ids_foldl_removeByID_subset CrossTransactionWithSignatures.id txs)
    (List.Subset.refl _)

theorem CrossPool.addTxStep_pool (env : PoolEnv) (isLocal : Bool)
    (acc : List CrossTransactionWithSignatures × List PoolError × CrossPool) (signedTx : CrossTransaction) :
    (CrossPool.addTxStep env isLocal acc signedTx).2.2 = (acc.2.2.addTx env signedTx isLocal).2 := by
  unfold CrossPool.addTxStep
  split <;> simp_all

theorem CrossPool.addTxs_separated (env : PoolEnv) (signed : List CrossTransaction) (isLocal : Bool)
    (separated : pool.Separated) : (pool.addTxs env signed isLocal).2.2.Separated := by
  have looped : (signed.foldl (CrossPool.addTxStep env isLocal) ([], [], pool)).2.2.Separated :=
    GoLoop.foldl_invariant
      (fun acc : List CrossTransactionWithSignatures × List PoolError × CrossPool => acc.2.2.Separated)
      (CrossPool.addTxStep env isLocal) signed ([], [], pool)
      (fun acc signedTx _ separatedAcc => by
        rw [CrossPool.addTxStep_pool]
        exact CrossPool.addTx_separated env signedTx isLocal separatedAcc)
      separated
  unfold CrossPool.addTxs
  dsimp only
  split
  · exact looped
  · exact CrossPool.commit_separated _ looped

/-! ### The entry points -/

theorem CrossPool.addLocals_separated (env : PoolEnv) (txs : List CrossTransaction)
    (separated : pool.Separated) : (pool.addLocals env txs).2.2.2.Separated := by
  have checked : (txs.foldl (CrossPool.addLocalStep env) ([], [], pool)).2.2.held = pool.held :=
    GoLoop.foldl_proj_eq (fun acc : List CrossTransaction × List PoolError × CrossPool => acc.2.2.held)
      (CrossPool.addLocalStep env) (CrossPool.addLocalStep_held env) txs _
  exact CrossPool.addTxs_separated env _ true (separated.of_held checked)

theorem CrossPool.addRemotes_separated (env : PoolEnv) (ctxList : List CrossTransaction)
    (separated : pool.Separated) : (pool.addRemotes env ctxList).2.2.Separated := by
  have checked : (ctxList.foldl (CrossPool.addRemoteStep env) ([], [], [], pool)).2.2.2.held = pool.held :=
    GoLoop.foldl_proj_eq
      (fun acc : List Address × List PoolError × List CrossTransaction × CrossPool => acc.2.2.2.held)
      (CrossPool.addRemoteStep env) (CrossPool.addRemoteStep_held env) ctxList _
  exact CrossPool.addTxs_separated env _ false (separated.of_held checked)

/-- The handler accepted every signature of the entries it answered for. -/
def CommitVerdicts.AllValid (evs : List (Nat × Option (List Nat))) : Prop := ∀ ev ∈ evs, ev.2 = none

theorem CrossPool.callbackStep_held (batch : List CrossTransactionWithSignatures)
    (acc : List CrossTransactionWithSignatures × CrossPool) (index : Nat) :
    (CrossPool.callbackStep batch acc (index, none)).2.held = acc.2.held := by
  unfold CrossPool.callbackStep
  split
  · rfl
  · rfl
  · contradiction

/-- A callback without rollbacks only stores. -/
theorem CrossPool.callback_held (batch : List CrossTransactionWithSignatures)
    (evs : List (Nat × Option (List Nat))) (valid : CommitVerdicts.AllValid evs) :
    (pool.callback batch evs).held = pool.held :=
  GoLoop.foldl_invariant (fun acc : List CrossTransactionWithSignatures × CrossPool => acc.2.held = pool.held)
    (CrossPool.callbackStep batch) evs ([], pool)
    (fun acc ev member same => by
      obtain ⟨index, verdict⟩ := ev
      cases (valid _ member : verdict = none)
      exact (CrossPool.callbackStep_held batch acc index).trans same)
    rfl

theorem CrossPool.pendingCall_separated (startNumber : Nat) (limit : Int)
    (separated : pool.Separated) : (pool.pendingCall startNumber limit).2.2.Separated :=
  separated.shrink (pool.pending.ids_foldl_removeByID_subset id _)
    (pool.queued.ids_foldl_removeByID_subset id _)

theorem CrossPool.expire_separated (currentNum : Nat) (expireNum : Int)
    (separated : pool.Separated) : (pool.expire currentNum expireNum).Separated := by
  have queuedShrinks := CtxSortedByBlockNum.ids_removeUnderNum_subset pool.queued
    ((currentNum + 2 ^ 64 - expireQueueNumber) % 2 ^ 64)
  unfold CrossPool.expire
  dsimp only
  split_ifs
  · exact separated.shrink (List.Subset.refl _) queuedShrinks
  · exact separated.shrink (CtxSortedByBlockNum.ids_removeUnderNum_subset _ _)
      (List.Subset.trans (CtxSortedByBlockNum.ids_removeUnderNum_subset _ _) queuedShrinks)
  · exact separated.shrink (List.Subset.refl _) queuedShrinks

/-- Every event but a handler's answer that rejects a signature. -/
def PoolEvent.NoRollback : PoolEvent → Prop
  | .callback _ evs => CommitVerdicts.AllValid evs
  | _ => True

theorem CrossPool.step_separated {event : PoolEvent} (noRollback : event.NoRollback)
    (separated : pool.Separated) : (pool.step event).Separated := by
  cases event with
  | addLocals env txs => exact CrossPool.addLocals_separated env txs separated
  | addRemotes env ctxList => exact CrossPool.addRemotes_separated env ctxList separated
  | callback batch evs =>
      dsimp only [CrossPool.step]
      split
      · -- the batch leaves `commits`, which separation does not read
        have stillSeparated : ({ pool with commits := pool.commits.eraseIdx batch } : CrossPool).Separated :=
          separated
        exact stillSeparated.of_held (CrossPool.callback_held _ evs noRollback)
      · exact separated
  | pending startNumber limit => exact CrossPool.pendingCall_separated startNumber limit separated
  | expire currentNum expireNum => exact CrossPool.expire_separated currentNum expireNum separated
  | finish id => exact separated
  | storeCall c => exact separated

/-- Over every run whose callbacks roll nothing back, no ctx is both pending and queued. -/
theorem CrossPool.run_separated (events : List PoolEvent) (noRollback : ∀ e ∈ events, e.NoRollback)
    (separated : pool.Separated) : (pool.run events).Separated :=
  GoLoop.foldl_invariant CrossPool.Separated _ events pool
    (fun _ e member separatedP => CrossPool.step_separated (noRollback e member) separatedP) separated

end Separation

/-! ## Callbacks that roll back -/

/-- A retriever under which an anchor's address is the `R` of its signature, and
this node, anchor 1, signs with `R = 1`. -/
def anchorEnv (requireSignatures : Nat) : PoolEnv where
  requireSignatures := requireSignatures
  confirmedNumber := fun _ => 10
  verifySigner := fun ctx => (BitVec.ofNat 160 ctx.signature.r, none)
  verifyExpire := fun _ => none
  verifyContract := fun _ => none
  signTx := fun ctx => .ok { ctx with signature := ⟨0, 1, 0⟩ }
  signer := 1#160

/-- Cross transaction 7 as the chain subscriber reports it, before any signature. -/
def makerCtx : CrossTransaction := ⟨7#256, 8#256, 9#256, 3#256, ⟨0, 0, 0⟩⟩

/-- Cross transaction 7 as anchor `r` signed it. -/
def signedBy (r : Nat) : CrossTransaction := { makerCtx with signature := ⟨0, r, 0⟩ }

def freshPool : CrossPool := newCrossPool (newIndexDB [] 4096) []

/-- With one signature required, the local one commits at once; anchor 2's, arriving
before the handler answers, is queued; the handler rejects signature 0 and the
rollback puts the entry back into `pending`.  With three required, the handler
rejects signatures 0 and 1 (the local one and anchor 2's): `Rollback` removes
index 0 and then index 1 of what is left, anchor 3's, and keeps anchor 2's.
Neither run stores the ctx. -/
theorem crossPool_rollback_breaks_separation :
    ((freshPool.run [.addLocals (anchorEnv 1) [makerCtx], .addRemotes (anchorEnv 1) [signedBy 2],
        .callback 0 [(0, some [0])]]).pending.get 7#256).map
        CrossTransactionWithSignatures.signatures = some [] ∧
      ((freshPool.run [.addLocals (anchorEnv 1) [makerCtx], .addRemotes (anchorEnv 1) [signedBy 2],
        .callback 0 [(0, some [0])]]).queued.get 7#256).map
        CrossTransactionWithSignatures.signatures = some [⟨0, 2, 0⟩] ∧
      (freshPool.run [.addLocals (anchorEnv 1) [makerCtx], .addRemotes (anchorEnv 1) [signedBy 2],
        .callback 0 [(0, some [0])]]).indexDB.db = [] ∧
      ((freshPool.run [.addLocals (anchorEnv 3) [makerCtx],
        .addRemotes (anchorEnv 3) [signedBy 2, signedBy 3], .callback 0 [(0, some [0, 1])]]).pending.get
          7#256).map CrossTransactionWithSignatures.signatures = some [⟨0, 2, 0⟩] ∧
      (freshPool.run [.addLocals (anchorEnv 3) [makerCtx],
        .addRemotes (anchorEnv 3) [signedBy 2, signedBy 3], .callback 0 [(0, some [0, 1])]]).queued.get
          7#256 = none ∧
      (freshPool.run [.addLocals (anchorEnv 3) [makerCtx],
        .addRemotes (anchorEnv 3) [signedBy 2, signedBy 3], .callback 0 [(0, some [0, 1])]]).indexDB.db = [] :=
  ⟨rfl, rfl, rfl, rfl, rfl, rfl⟩

end SimpleChain.Cross
