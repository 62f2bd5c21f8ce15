import Mathlib
import SimpleChain.Dpos.Run

/-! # The elected signer queue does not depend on map order

`buildTallySlice` walks `Tally` in Go's random map order, and `sort.Sort` is
not stable.  The queue is still a function of the snapshot's value: the tally
items of distinct candidates are never unordered by `TallySlice.Less`, so every
routine honouring `sort.Sort`'s contract returns the one sorted slice, and
everything after the tally sort reads only that slice, the signers and the
history window.  Two nodes holding the same snapshot value therefore elect the
same queue, and `verifySignerQueue` accepts exactly the queue the other wrote. -/
set_option autoImplicit false

namespace SimpleChain.Dpos

/-- What `createSignerQueue` reads of two snapshots is the same Go value. -/
structure Snapshot.SameElection (s₁ s₂ : Snapshot) : Prop where
  config : s₁.config = s₂.config
  lcrs : s₁.lcrs = s₂.lcrs
  number : s₁.number = s₂.number
  hash : s₁.hash = s₂.hash
  historyHash : s₁.historyHash = s₂.historyHash
  signers : s₁.signers = s₂.signers
  tally : s₁.tally.Equiv s₂.tally
  punished : s₁.punished.Equiv s₂.punished
  candidates : s₁.candidates.Equiv s₂.candidates

/-- A snapshot held with its maps in another order elects like the original. -/
theorem Snapshot.Reordered.sameElection {s₁ s₂ : Snapshot} (reordered : s₁.Reordered s₂) :
    s₁.SameElection s₂ := by
  obtain ⟨-, tally, -, candidates, punished, -, -, -, rest⟩ := reordered
  rw [← rest]
  exact ⟨rfl, rfl, rfl, rfl, rfl, rfl, tally, punished, candidates⟩

section Queue
variable (sortTally : GoSort TallyItem TallySlice.less)
  (sortSigner : GoSort SignerItem SignerSlice.less)
variable {s₁ s₂ : Snapshot}

theorem Snapshot.tallyItem_eq (same : s₁.SameElection s₂) : s₁.tallyItem = s₂.tallyItem := by
  funext entry
  unfold Snapshot.tallyItem Snapshot.isCandidate
  rw [same.candidates entry.1, same.punished entry.1]

theorem Snapshot.buildTallySlice_perm (same : s₁.SameElection s₂) :
    s₁.buildTallySlice.Perm s₂.buildTallySlice := by
  unfold Snapshot.buildTallySlice
  rw [Snapshot.tallyItem_eq same]
  exact ((GoMap.equiv_iff_perm _ _).mp same.tally).filterMap _

/-- The sorted tally slice is the same whichever order the tally was walked in. -/
theorem Snapshot.sortedTally_eq (same : s₁.SameElection s₂) :
    sortTally.run s₁.buildTallySlice = sortTally.run s₂.buildTallySlice :=
  sortTally.run_eq_of_perm TallySlice.less_total (Snapshot.buildTallySlice_perm same)

theorem Snapshot.signerSlice_eq (same : s₁.SameElection s₂) :
    s₁.signerSlice sortTally sortSigner = s₂.signerSlice sortTally sortSigner := by
  unfold Snapshot.signerSlice
  rw [same.number, same.config, same.lcrs, Snapshot.sortedTally_eq sortTally same,
    same.historyHash, same.signers]

theorem Snapshot.createSignerQueue_eq (same : s₁.SameElection s₂) :
    s₁.createSignerQueue sortTally sortSigner = s₂.createSignerQueue sortTally sortSigner := by
  unfold Snapshot.createSignerQueue
  rw [same.number, same.config, same.historyHash, same.hash,
    Snapshot.signerSlice_eq sortTally sortSigner same]

/-- An elected queue has `MaxSignerCount` entries. -/
theorem Snapshot.createSignerQueue_length {s : Snapshot} {queue : List Address}
    (elected : s.createSignerQueue sortTally sortSigner = .ok queue) :
    queue.length = s.config.maxSignerCount := by
  simp only [Snapshot.createSignerQueue] at elected
  by_cases boundary : (s.number + 1) % s.config.maxSignerCount = 0
  · simp only [boundary, ne_eq, not_true_eq_false, if_false] at elected
    obtain ⟨last, -, elected⟩ := GoLoop.bind_eq_ok.mp elected
    by_cases current : s.hash = last
    · simp only [current, not_true_eq_false, if_false] at elected
      obtain ⟨items, -, elected⟩ := GoLoop.bind_eq_ok.mp elected
      split at elected
      · cases elected
      · cases elected
        simp
    · simp [current] at elected
      cases elected
  · simp [boundary] at elected
    cases elected

/-- `verifySignerQueue` accepts a queue exactly when `createSignerQueue`
elects it. -/
theorem Snapshot.verifySignerQueue_ok_iff (s : Snapshot) (signerQueue : List Address) :
    s.verifySignerQueue sortTally sortSigner signerQueue = .ok () ↔
      s.createSignerQueue sortTally sortSigner = .ok signerQueue := by
  simp only [Snapshot.verifySignerQueue]
  by_cases tooLong : signerQueue.length > s.config.maxSignerCount
  · simp only [tooLong, if_true]
    constructor
    · intro accepted
      cases accepted
    · intro elected
      have electedLength := Snapshot.createSignerQueue_length sortTally sortSigner elected
      omega
  · simp only [tooLong, if_false]
    cases elected : s.createSignerQueue sortTally sortSigner with
    | error e =>
        constructor
        · intro accepted
          cases accepted
        · intro wrong
          cases wrong
    | ok queue =>
        have electedLength := Snapshot.createSignerQueue_length sortTally sortSigner elected
        rw [Except.ok.injEq]
        constructor
        · intro accepted
          obtain ⟨sq, fetched, checked⟩ := GoLoop.bind_eq_ok.mp accepted
          cases fetched
          by_cases lengthBad : queue.length = 0 ∨ queue.length ≠ signerQueue.length
          · simp only [lengthBad, if_true] at checked
            cases checked
          · simp only [lengthBad, if_false] at checked
            have sameLength : signerQueue.length = queue.length := by omega
            by_cases mismatch : ((signerQueue.zip queue).any fun pair => pair.1 != pair.2) = true
            · simp only [mismatch, if_true] at checked
              cases checked
            · rw [Bool.not_eq_true] at mismatch
              exact ((GoLoop.zip_any_bne_eq_false_iff signerQueue queue sameLength).mp mismatch).symm
        · rintro rfl
          have positive := s.config.maxSignerCount_pos
          have matched := (GoLoop.zip_any_bne_eq_false_iff queue queue rfl).mpr rfl
          have lengthOk : ¬ (queue.length = 0 ∨ queue.length ≠ queue.length) := by omega
          refine GoLoop.bind_eq_ok.mpr ⟨queue, rfl, ?_⟩
          simp only [lengthOk, if_false, matched]
          rfl

/-- Two nodes holding the same snapshot value elect the same signer queue (the
same error or the same addresses), and each accepts exactly the queue the other
elected. -/
theorem createSignerQueue_eq_of_sameElection (same : s₁.SameElection s₂) :
    s₁.createSignerQueue sortTally sortSigner = s₂.createSignerQueue sortTally sortSigner ∧
      ∀ signerQueue, s₂.verifySignerQueue sortTally sortSigner signerQueue = .ok () ↔
        s₁.createSignerQueue sortTally sortSigner = .ok signerQueue := by
  have elected := Snapshot.createSignerQueue_eq sortTally sortSigner same
  refine ⟨elected, fun signerQueue => ?_⟩
  rw [elected]
  exact Snapshot.verifySignerQueue_ok_iff sortTally sortSigner s₂ signerQueue

end Queue

/-- Two self-vote signers, every block a loop boundary and every loop an election. -/
def electionConfig : DPoSConfig where
  period := 3
  epoch := 201600
  maxSignerCount := 1
  minVoterBalance := 0
  genesisTimestamp := 0
  selfVoteSigners := [1#160, 2#160]
  voterReward := false
  maxSignerCount_pos := Nat.one_pos

theorem createSignerQueue_eq_of_genesis_order :
    (newSnapshot electionConfig 0#256 [⟨1#160, 1#160, 5⟩, ⟨2#160, 2#160, 7⟩] 1 0).SameElection
        (newSnapshot electionConfig 0#256 [⟨2#160, 2#160, 7⟩, ⟨1#160, 1#160, 5⟩] 1 0) ∧
      ((newSnapshot electionConfig 0#256 [⟨1#160, 1#160, 5⟩, ⟨2#160, 2#160, 7⟩] 1 0).createSignerQueue
          (insertionGoSort TallySlice.less TallySlice.less_strictWeak)
          (insertionGoSort SignerSlice.less SignerSlice.less_strictWeak) =
        (newSnapshot electionConfig 0#256 [⟨2#160, 2#160, 7⟩, ⟨1#160, 1#160, 5⟩] 1 0).createSignerQueue
          (insertionGoSort TallySlice.less TallySlice.less_strictWeak)
          (insertionGoSort SignerSlice.less SignerSlice.less_strictWeak) ∧
      ∀ signerQueue,
        (newSnapshot electionConfig 0#256 [⟨2#160, 2#160, 7⟩, ⟨1#160, 1#160, 5⟩] 1 0).verifySignerQueue
            (insertionGoSort TallySlice.less TallySlice.less_strictWeak)
            (insertionGoSort SignerSlice.less SignerSlice.less_strictWeak) signerQueue = .ok () ↔
          (newSnapshot electionConfig 0#256 [⟨1#160, 1#160, 5⟩, ⟨2#160, 2#160, 7⟩] 1 0).createSignerQueue
            (insertionGoSort TallySlice.less TallySlice.less_strictWeak)
            (insertionGoSort SignerSlice.less SignerSlice.less_strictWeak) = .ok signerQueue) := by
  have same : (newSnapshot electionConfig 0#256 [⟨1#160, 1#160, 5⟩, ⟨2#160, 2#160, 7⟩] 1 0).SameElection
      (newSnapshot electionConfig 0#256 [⟨2#160, 2#160, 7⟩, ⟨1#160, 1#160, 5⟩] 1 0) :=
    ⟨rfl, rfl, rfl, rfl, rfl, rfl, (GoMap.equiv_iff_perm _ _).mpr (by decide),
      GoMap.Equiv.refl _, (GoMap.equiv_iff_perm _ _).mpr (by decide)⟩
  exact ⟨same, createSignerQueue_eq_of_sameElection _ _ same⟩

end SimpleChain.Dpos
