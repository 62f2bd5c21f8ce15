import Mathlib
import SimpleChain.Dpos.Snapshot

/-! # Runs of `Snapshot.apply`

What each step of `apply` writes and leaves alone, the inversion of one
successful `applyHeader` and of one successful `apply`, the errors a header can
end a run with, and the snapshots a node can hold: those `apply` builds from a
start snapshot, with their maps enumerated in any order (`Reachable`).

Two projections carry the frame lemmas: `position` (config, number, hash and
`HistoryHash`, which only `recordHeader` and the end of `apply` write) and
`ballot` (votes and tally, which only the vote steps and the expiry write). -/
set_option autoImplicit false

namespace SimpleChain.Dpos

/-- Where a snapshot stands on the chain. -/
def Snapshot.position (s : Snapshot) : DPoSConfig × Nat × Hash × List Hash :=
  (s.config, s.number, s.hash, s.historyHash)

/-- What one header does to a position: its hash is pushed on the window. -/
def pushHistory (position : DPoSConfig × Nat × Hash × List Hash) (header : Header) :
    DPoSConfig × Nat × Hash × List Hash :=
  (position.1, position.2.1, position.2.2.1,
    historyHashPush (2 * position.1.maxSignerCount) position.2.2.2 header.hash)

/-- The votes and the tally kept from them. -/
def Snapshot.ballot (s : Snapshot) : GoMap Address Vote × GoMap Address Int :=
  (s.votes, s.tally)

/-! ## Frame lemmas -/

section Frame
variable (s : Snapshot)

theorem newSnapshot_position (config : DPoSConfig) (hash : Hash) (votes : List Vote)
    (lcrs now : Nat) : (newSnapshot config hash votes lcrs now).position = (config, 0, hash, [hash]) :=
  GoLoop.foldl_proj_eq Snapshot.position addGenesisVote (fun _ _ => rfl) votes _

@[simp] theorem Snapshot.copy_position : s.copy.position = s.position := rfl

@[simp] theorem Snapshot.copy_ballot : s.copy.ballot = s.ballot := rfl

@[simp] theorem Snapshot.recordHeader_ballot (header : Header) (headerExtra : HeaderExtra) :
    (s.recordHeader header headerExtra).ballot = s.ballot := rfl

theorem Snapshot.recordHeader_position (header : Header) (headerExtra : HeaderExtra) :
    (s.recordHeader header headerExtra).position =
      (s.config, s.number, s.hash,
        historyHashPush (2 * s.config.maxSignerCount) s.historyHash header.hash) := rfl

@[simp] theorem Snapshot.updateSnapshotByConfirmations_position (cs : List Confirmation) :
    (s.updateSnapshotByConfirmations cs).position = s.position :=
  GoLoop.foldl_proj_eq Snapshot.position Snapshot.updateSnapshotByConfirmation
    (fun _ _ => rfl) cs s

@[simp] theorem Snapshot.updateSnapshotByConfirmations_ballot (cs : List Confirmation) :
    (s.updateSnapshotByConfirmations cs).ballot = s.ballot :=
  GoLoop.foldl_proj_eq Snapshot.ballot Snapshot.updateSnapshotByConfirmation
    (fun _ _ => rfl) cs s

@[simp] theorem Snapshot.updateSnapshotForPunish_position (missing : List Address)
    (headerNumber : Nat) (coinbase : Address) :
    (s.updateSnapshotForPunish missing headerNumber coinbase).position = s.position := rfl

@[simp] theorem Snapshot.updateSnapshotForPunish_ballot (missing : List Address)
    (headerNumber : Nat) (coinbase : Address) :
    (s.updateSnapshotForPunish missing headerNumber coinbase).ballot = s.ballot := rfl

@[simp] theorem Snapshot.updateSnapshotByProposals_position (proposals : List Proposal)
    (headerNumber : Nat) : (s.updateSnapshotByProposals proposals headerNumber).position =
      s.position := by
  unfold Snapshot.updateSnapshotByProposals
  split <;> rfl

@[simp] theorem Snapshot.updateSnapshotByProposals_ballot (proposals : List Proposal)
    (headerNumber : Nat) : (s.updateSnapshotByProposals proposals headerNumber).ballot =
      s.ballot := by
  unfold Snapshot.updateSnapshotByProposals
  split <;> rfl

theorem Snapshot.updateSnapshotByDeclare_position (headerNumber : Nat) (declare : Declare) :
    (Snapshot.updateSnapshotByDeclare headerNumber s declare).position = s.position := by
  unfold Snapshot.updateSnapshotByDeclare
  repeat' split
  all_goals rfl

theorem Snapshot.updateSnapshotByDeclare_ballot (headerNumber : Nat) (declare : Declare) :
    (Snapshot.updateSnapshotByDeclare headerNumber s declare).ballot = s.ballot := by
  unfold Snapshot.updateSnapshotByDeclare
  repeat' split
  all_goals rfl

@[simp] theorem Snapshot.updateSnapshotByDeclares_position (declares : List Declare)
    (headerNumber : Nat) : (s.updateSnapshotByDeclares declares headerNumber).position =
      s.position :=
  GoLoop.foldl_proj_eq Snapshot.position _
    (Snapshot.updateSnapshotByDeclare_position · headerNumber) declares s

@[simp] theorem Snapshot.updateSnapshotByDeclares_ballot (declares : List Declare)
    (headerNumber : Nat) : (s.updateSnapshotByDeclares declares headerNumber).ballot =
      s.ballot :=
  GoLoop.foldl_proj_eq Snapshot.ballot _
    (Snapshot.updateSnapshotByDeclare_ballot · headerNumber) declares s

theorem Snapshot.applyProposal_position (proposal : Proposal) :
    (s.applyProposal proposal).position = s.position := by
  unfold Snapshot.applyProposal
  split_ifs <;> rfl

theorem Snapshot.applyProposal_ballot (proposal : Proposal) :
    (s.applyProposal proposal).ballot = s.ballot := by
  unfold Snapshot.applyProposal
  split_ifs <;> rfl

theorem Snapshot.resolveProposal_position (headerNumber : Nat) (entry : Σ _ : Hash, Nat) :
    (Snapshot.resolveProposal headerNumber s entry).position = s.position := by
  unfold Snapshot.resolveProposal
  split
  · rfl
  · dsimp only
    split_ifs
    · exact Snapshot.applyProposal_position _ _
    · rfl
    · rfl

theorem Snapshot.resolveProposal_ballot (headerNumber : Nat) (entry : Σ _ : Hash, Nat) :
    (Snapshot.resolveProposal headerNumber s entry).ballot = s.ballot := by
  unfold Snapshot.resolveProposal
  split
  · rfl
  · dsimp only
    split_ifs
    · exact Snapshot.applyProposal_ballot _ _
    · rfl
    · rfl

@[simp] theorem Snapshot.calculateProposalResult_position (headerNumber : Nat) :
    (s.calculateProposalResult headerNumber).position = s.position :=
  GoLoop.foldl_proj_eq Snapshot.position _
    (Snapshot.resolveProposal_position · headerNumber) _ _

@[simp] theorem Snapshot.calculateProposalResult_ballot (headerNumber : Nat) :
    (s.calculateProposalResult headerNumber).ballot = s.ballot :=
  GoLoop.foldl_proj_eq Snapshot.ballot _ (Snapshot.resolveProposal_ballot · headerNumber) _ _

/-- The period upgrade of `settleHeader`. -/
@[simp] theorem Snapshot.setPeriod_position (period : Nat) :
    ({ s with period := period } : Snapshot).position = s.position := rfl

@[simp] theorem Snapshot.setPeriod_ballot (period : Nat) :
    ({ s with period := period } : Snapshot).ballot = s.ballot := rfl

theorem Snapshot.settleHeader_position (header : Header) (headerExtra : HeaderExtra) :
    (s.settleHeader header headerExtra).position = s.position := by
  unfold Snapshot.settleHeader
  dsimp only
  rw [Snapshot.calculateProposalResult_position]
  split_ifs <;> simp

theorem Snapshot.settleHeader_ballot (header : Header) (headerExtra : HeaderExtra) :
    (s.settleHeader header headerExtra).ballot = s.ballot := by
  unfold Snapshot.settleHeader
  dsimp only
  rw [Snapshot.calculateProposalResult_ballot]
  split_ifs <;> simp

theorem Snapshot.removeExtraCandidate_position (sortTally : GoSort TallyItem TallySlice.less) :
    (s.removeExtraCandidate sortTally).position = s.position := by
  unfold Snapshot.removeExtraCandidate
  dsimp only
  split_ifs <;> rfl

theorem Snapshot.removeExtraCandidate_ballot (sortTally : GoSort TallyItem TallySlice.less) :
    (s.removeExtraCandidate sortTally).ballot = s.ballot := by
  unfold Snapshot.removeExtraCandidate
  dsimp only
  split_ifs <;> rfl

theorem Snapshot.updateSnapshotForExpired_position (headerNumber : Nat) :
    (s.updateSnapshotForExpired headerNumber).position = s.position := by
  have expiry : ∀ votes : List Vote, (votes.foldl Snapshot.removeExpiredVote s).position =
      s.position := fun votes =>
    GoLoop.foldl_proj_eq Snapshot.position Snapshot.removeExpiredVote (fun _ _ => rfl) votes s
  unfold Snapshot.updateSnapshotForExpired
  dsimp only
  split_ifs
  · exact expiry _
  · rfl

end Frame

/-! ## The vote steps -/

/-- Taking off a voter's last vote either finds no vote, or finds one whose
candidate has a tally entry and lowers that entry by its stake. -/
theorem Snapshot.withdrawLastVote_ok {s : Snapshot} {voter : Address}
    {tally : GoMap Address Int} (withdrawn : s.withdrawLastVote voter = .ok tally) :
    (s.votes.lookup voter = none ∧ tally = s.tally) ∨
      ∃ lastVote stake, s.votes.lookup voter = some lastVote ∧
        s.tally.lookup lastVote.candidate = some stake ∧
        tally = s.tally.insert lastVote.candidate (stake - lastVote.stake) := by
  unfold Snapshot.withdrawLastVote at withdrawn
  split at withdrawn
  · rename_i noVote
    cases withdrawn
    exact Or.inl ⟨noVote, rfl⟩
  · rename_i lastVote last
    split at withdrawn
    · rename_i stake present
      cases withdrawn
      exact Or.inr ⟨lastVote, stake, last, present, rfl⟩
    · cases withdrawn

theorem Snapshot.withdrawLastVote_error {s : Snapshot} {voter : Address} {e : DposError}
    (withdrawn : s.withdrawLastVote voter = .error e) : e = .panicNilDereference := by
  unfold Snapshot.withdrawLastVote at withdrawn
  split at withdrawn
  · cases withdrawn
  · split at withdrawn
    · cases withdrawn
    · cases withdrawn
      rfl

/-- A vote step: the last vote is withdrawn, then the voter is removed (a
devote) or its new vote is recorded and added to its candidate's tally. -/
theorem Snapshot.updateSnapshotByVote_ok {headerNumber : Nat} {s s' : Snapshot} {vote : Vote}
    (step : Snapshot.updateSnapshotByVote headerNumber s vote = .ok s') :
    ∃ tally, s.withdrawLastVote vote.voter = .ok tally ∧ s'.position = s.position ∧
      s'.ballot = if vote.stake = devoteStake then (s.votes.erase vote.voter, tally)
        else (s.votes.insert vote.voter ⟨vote.voter, vote.candidate, vote.stake⟩,
          tally.insert vote.candidate ((tally.lookup vote.candidate).getD 0 + vote.stake)) := by
  unfold Snapshot.updateSnapshotByVote at step
  obtain ⟨tally, withdrawn, counted⟩ := GoLoop.bind_eq_ok.mp step
  refine ⟨tally, withdrawn, ?_⟩
  by_cases devote : vote.stake = devoteStake
  · rw [if_pos devote] at counted
    cases counted
    exact ⟨rfl, by simp [Snapshot.ballot, devote]⟩
  · rw [if_neg devote] at counted
    dsimp only at counted
    -- the code adds to an existing entry or creates one; both store the sum with 0
    split at counted
    · rename_i stake present
      cases counted
      exact ⟨rfl, by simp [Snapshot.ballot, present, devote]⟩
    · rename_i absent
      cases counted
      exact ⟨rfl, by simp [Snapshot.ballot, absent, devote]⟩

theorem Snapshot.updateSnapshotByVote_error {headerNumber : Nat} {s : Snapshot} {vote : Vote}
    {e : DposError} (step : Snapshot.updateSnapshotByVote headerNumber s vote = .error e) :
    e = .panicNilDereference := by
  unfold Snapshot.updateSnapshotByVote at step
  rcases GoLoop.bind_eq_error.mp step with failed | ⟨tally, -, counted⟩
  · exact Snapshot.withdrawLastVote_error failed
  · by_cases devote : vote.stake = devoteStake
    · rw [if_pos devote] at counted
      cases counted
    · rw [if_neg devote] at counted
      dsimp only at counted
      split at counted <;> cases counted

theorem Snapshot.updateSnapshotByVotes_position {votes : List Vote} {headerNumber : Nat}
    {s s' : Snapshot} (run : s.updateSnapshotByVotes votes headerNumber = .ok s') :
    s'.position = s.position :=
  GoLoop.foldlM_proj_eq Snapshot.position _
    (fun _ _ _ step => (Snapshot.updateSnapshotByVote_ok step).choose_spec.2.1) votes run

theorem Snapshot.updateSnapshotByVotes_error {s : Snapshot} {votes : List Vote}
    {headerNumber : Nat} {e : DposError}
    (run : s.updateSnapshotByVotes votes headerNumber = .error e) :
    e = .panicNilDereference := by
  obtain ⟨t, vote, -, failed⟩ := GoLoop.foldlM_error _ votes s e run
  exact Snapshot.updateSnapshotByVote_error failed

/-- A balance change: a voter with a vote keeps its candidate and takes the new
stake, on the vote and on the candidate's tally entry, which must exist. -/
theorem Snapshot.updateSnapshotByMPVote_ok {s s' : Snapshot} {txVote : PredecessorVoter}
    (step : s.updateSnapshotByMPVote txVote = .ok s') :
    (s.votes.lookup txVote.voter = none ∧ s' = s) ∨
      ∃ lastVote stake, s.votes.lookup txVote.voter = some lastVote ∧
        s.tally.lookup lastVote.candidate = some stake ∧ s'.position = s.position ∧
        s'.ballot = (s.votes.insert txVote.voter ⟨txVote.voter, lastVote.candidate, txVote.stake⟩,
          s.tally.insert lastVote.candidate (stake - lastVote.stake + txVote.stake)) := by
  unfold Snapshot.updateSnapshotByMPVote at step
  split at step
  · rename_i noVote
    cases step
    exact Or.inl ⟨noVote, rfl⟩
  · rename_i lastVote last
    split at step
    · cases step
    · rename_i stake present
      cases step
      exact Or.inr ⟨lastVote, stake, last, present, rfl, rfl⟩

theorem Snapshot.updateSnapshotByMPVote_position {s s' : Snapshot} {txVote : PredecessorVoter}
    (step : s.updateSnapshotByMPVote txVote = .ok s') : s'.position = s.position := by
  rcases Snapshot.updateSnapshotByMPVote_ok step with ⟨-, rfl⟩ | ⟨_, _, -, -, same, -⟩
  · rfl
  · exact same

theorem Snapshot.updateSnapshotByMPVotes_position {votes : List PredecessorVoter}
    {s s' : Snapshot} (run : s.updateSnapshotByMPVotes votes = .ok s') :
    s'.position = s.position :=
  GoLoop.foldlM_proj_eq Snapshot.position _
    (fun _ _ _ step => Snapshot.updateSnapshotByMPVote_position step) votes run

theorem Snapshot.updateSnapshotByMPVotes_error {s : Snapshot} {votes : List PredecessorVoter}
    {e : DposError} (run : s.updateSnapshotByMPVotes votes = .error e) :
    e = .panicNilDereference := by
  obtain ⟨t, txVote, -, failed⟩ := GoLoop.foldlM_error _ votes s e run
  unfold Snapshot.updateSnapshotByMPVote at failed
  split at failed
  · cases failed
  · split at failed
    · cases failed
      rfl
    · cases failed

section Apply
variable (sortTally : GoSort TallyItem TallySlice.less)

/-- `trimCandidates` only removes candidates; it fails only by dividing by zero. -/
theorem Snapshot.trimCandidates_frame {s s' : Snapshot}
    (trim : s.trimCandidates sortTally = .ok s') :
    s'.position = s.position ∧ s'.ballot = s.ballot := by
  unfold Snapshot.trimCandidates at trim
  simp only [candidateNeedPD, Bool.not_false, if_true] at trim
  obtain ⟨position, -, rest⟩ := GoLoop.bind_eq_ok.mp trim
  split_ifs at rest
  · cases rest
    exact ⟨Snapshot.removeExtraCandidate_position _ _, Snapshot.removeExtraCandidate_ballot _ _⟩
  · cases rest
    exact ⟨rfl, rfl⟩

/-! ## Inversion of a successful header and of a successful `apply` -/

/-- Everything a header that `applyHeader` accepts went through. -/
theorem Snapshot.applyHeader_ok {s s' : Snapshot} {header : Header}
    (run : s.applyHeader sortTally header = .ok s') :
    ∃ headerExtra afterVotes afterMP afterTrim,
      header.sealer = some header.coinbase ∧ header.extra = some headerExtra ∧
      ((s.recordHeader header headerExtra).updateSnapshotByConfirmations
        headerExtra.currentBlockConfirmations).updateSnapshotByVotes
          headerExtra.currentBlockVotes header.number = .ok afterVotes ∧
      afterVotes.updateSnapshotByMPVotes headerExtra.modifyPredecessorVotes = .ok afterMP ∧
      (afterMP.settleHeader header headerExtra).trimCandidates sortTally = .ok afterTrim ∧
      s' = afterTrim.updateSnapshotForExpired header.number := by
  simp only [Snapshot.applyHeader] at run
  cases sealed : header.sealer with
  | none =>
      simp [sealed] at run
      cases run
  | some signer =>
      simp only [sealed, pure_bind] at run
      by_cases same : signer = header.coinbase
      · simp only [same, ne_eq, not_true_eq_false, if_false] at run
        cases decoded : header.extra with
        | none =>
            simp [decoded] at run
            cases run
        | some headerExtra =>
            simp only [decoded] at run
            obtain ⟨afterVotes, votesRun, run⟩ := GoLoop.bind_eq_ok.mp run
            obtain ⟨afterMP, mpRun, run⟩ := GoLoop.bind_eq_ok.mp run
            obtain ⟨afterTrim, trimRun, run⟩ := GoLoop.bind_eq_ok.mp run
            cases run
            exact ⟨headerExtra, afterVotes, afterMP, afterTrim, same ▸ rfl, rfl, votesRun,
              mpRun, trimRun, rfl⟩
      · simp [same] at run
        cases run

/-- One header moves `HistoryHash` by one push and leaves the rest of the
position alone. -/
theorem Snapshot.applyHeader_position {s s' : Snapshot} {header : Header}
    (run : s.applyHeader sortTally header = .ok s') :
    s'.position = pushHistory s.position header := by
  obtain ⟨headerExtra, afterVotes, afterMP, afterTrim, -, -, votesRun, mpRun, trimRun, rfl⟩ :=
    Snapshot.applyHeader_ok sortTally run
  calc (afterTrim.updateSnapshotForExpired header.number).position
      = afterTrim.position := Snapshot.updateSnapshotForExpired_position _ _
    _ = (afterMP.settleHeader header headerExtra).position :=
        (Snapshot.trimCandidates_frame sortTally trimRun).1
    _ = afterVotes.position := by
        rw [Snapshot.settleHeader_position, Snapshot.updateSnapshotByMPVotes_position mpRun]
    _ = _ := by
        rw [Snapshot.updateSnapshotByVotes_position votesRun,
          Snapshot.updateSnapshotByConfirmations_position, Snapshot.recordHeader_position]
        rfl

/-- Everything a run of headers that `apply` accepts went through. -/
theorem Snapshot.apply_ok {s s' : Snapshot} {headers : List Header}
    (run : s.apply sortTally headers = .ok s') :
    (headers = [] ∧ s' = s) ∨
      ∃ first rest snap, headers = first :: rest ∧ consecutive (first :: rest) = true ∧
        first.number = s.number + 1 ∧
        (first :: rest).foldlM (Snapshot.applyHeader sortTally) s.copy = .ok snap ∧
        s' = { snap with
          number := snap.number + (first :: rest).length
          hash := ((first :: rest).getLast (List.cons_ne_nil first rest)).hash } ∧
        s'.verifyTallyCnt = .ok () := by
  cases headers with
  | nil =>
      cases run
      exact Or.inl ⟨rfl, rfl⟩
  | cons first rest =>
      right
      simp only [Snapshot.apply] at run
      by_cases chained : consecutive (first :: rest) = true
      · by_cases numbered : first.number = s.number + 1
        · simp only [chained, numbered, Bool.not_true, Bool.false_eq_true, ne_eq,
            not_true_eq_false, if_false] at run
          obtain ⟨snap, foldRun, run⟩ := GoLoop.bind_eq_ok.mp run
          obtain ⟨u, verified, run⟩ := GoLoop.bind_eq_ok.mp run
          cases run
          exact ⟨first, rest, snap, rfl, chained, numbered, foldRun, rfl, verified⟩
        · simp [chained, numbered] at run
          cases run
      · simp [chained] at run
        cases run

/-! ## The errors a run can end with -/

theorem Snapshot.trimCandidates_error {s : Snapshot} {e : DposError}
    (trim : s.trimCandidates sortTally = .error e) : e = .panicDivideByZero := by
  unfold Snapshot.trimCandidates modU64 at trim
  simp only [candidateNeedPD, Bool.not_false, if_true] at trim
  split_ifs at trim
  · cases trim
    rfl
  · rcases GoLoop.bind_eq_error.mp trim with failed | ⟨position, -, rest⟩
    · cases failed
    · split_ifs at rest <;> cases rest

/-- A header is refused for its seal or its extra-data, or stops the run with a
run-time panic; it never fails the tally check, which only `apply` makes. -/
theorem Snapshot.applyHeader_error {s : Snapshot} {header : Header} {e : DposError}
    (run : s.applyHeader sortTally header = .error e) :
    e = .ecrecoverFailed ∨ e = .unauthorized ∨ e = .decodeFailed ∨
      e = .panicNilDereference ∨ e = .panicDivideByZero := by
  simp only [Snapshot.applyHeader] at run
  cases sealed : header.sealer with
  | none =>
      simp only [sealed] at run
      cases run
      exact Or.inl rfl
  | some signer =>
      simp only [sealed, pure_bind] at run
      by_cases same : signer = header.coinbase
      · simp only [same, ne_eq, not_true_eq_false, if_false] at run
        cases decoded : header.extra with
        | none =>
            simp only [decoded] at run
            cases run
            exact Or.inr (Or.inr (Or.inl rfl))
        | some headerExtra =>
            simp only [decoded] at run
            refine Or.inr (Or.inr (Or.inr ?_))
            rcases GoLoop.bind_eq_error.mp run with votesFailed | ⟨afterVotes, -, run⟩
            · exact Or.inl (Snapshot.updateSnapshotByVotes_error votesFailed)
            rcases GoLoop.bind_eq_error.mp run with mpFailed | ⟨afterMP, -, run⟩
            · exact Or.inl (Snapshot.updateSnapshotByMPVotes_error mpFailed)
            rcases GoLoop.bind_eq_error.mp run with trimFailed | ⟨afterTrim, -, run⟩
            · exact Or.inr (Snapshot.trimCandidates_error sortTally trimFailed)
            · cases run
      · simp only [same, ne_eq, not_false_eq_true, if_true] at run
        cases run
        exact Or.inr (Or.inl rfl)

/-- `apply` reports `errIncorrectTallyCount` only from its final check, after
every header went through; the check reads only the votes and the tally, which
the renumbering leaves as the last header left them. -/
theorem Snapshot.apply_error_incorrectTallyCount {s : Snapshot} {headers : List Header}
    (run : s.apply sortTally headers = .error .incorrectTallyCount) :
    ∃ first rest snap, headers = first :: rest ∧
      (first :: rest).foldlM (Snapshot.applyHeader sortTally) s.copy = .ok snap ∧
      snap.verifyTallyCnt = .error .incorrectTallyCount := by
  cases headers with
  | nil => cases run
  | cons first rest =>
      simp only [Snapshot.apply] at run
      by_cases chained : consecutive (first :: rest) = true
      · by_cases numbered : first.number = s.number + 1
        · simp only [chained, numbered, Bool.not_true, Bool.false_eq_true, ne_eq,
            not_true_eq_false, if_false] at run
          rcases GoLoop.bind_eq_error.mp run with failed | ⟨snap, folded, run⟩
          · -- the failing header's error is not the tally check's
            obtain ⟨t, header, -, headerFailed⟩ := GoLoop.foldlM_error _ _ _ _ failed
            rcases Snapshot.applyHeader_error sortTally headerFailed with h | h | h | h | h <;>
              cases h
          · rcases GoLoop.bind_eq_error.mp run with verifyFailed | ⟨u, -, run⟩
            · exact ⟨first, rest, snap, rfl, folded, verifyFailed⟩
            · cases run
        · simp [chained, numbered] at run
          cases run
      · simp [chained] at run
        cases run

end Apply

/-! ## Reachable snapshots -/

/-- Two snapshots holding the same Go value, their maps enumerated in other
orders (as after a store and a load, or in another process). -/
structure Snapshot.Reordered (s₁ s₂ : Snapshot) : Prop where
  votes : s₁.votes.Equiv s₂.votes
  tally : s₁.tally.Equiv s₂.tally
  voters : s₁.voters.Equiv s₂.voters
  candidates : s₁.candidates.Equiv s₂.candidates
  punished : s₁.punished.Equiv s₂.punished
  confirmations : s₁.confirmations.Equiv s₂.confirmations
  proposals : s₁.proposals.Equiv s₂.proposals
  proposalRefund : s₁.proposalRefund.Equiv s₂.proposalRefund
  rest : { s₁ with
    votes := s₂.votes, tally := s₂.tally, voters := s₂.voters, candidates := s₂.candidates,
    punished := s₂.punished, confirmations := s₂.confirmations, proposals := s₂.proposals,
    proposalRefund := s₂.proposalRefund } = s₂

theorem Snapshot.Reordered.position_eq {s₁ s₂ : Snapshot} (reordered : s₁.Reordered s₂) :
    s₂.position = s₁.position := by
  rw [← reordered.rest]
  rfl

/-- The snapshots a node can hold after replaying `chain` on `start`: each
`apply` call takes a run of headers, and a snapshot may be held with its maps
in any order. -/
inductive Reachable (sortTally : GoSort TallyItem TallySlice.less) (start : Snapshot) :
    List Header → Snapshot → Prop
  | start : Reachable sortTally start [] start
  | apply {chain : List Header} {s s' : Snapshot} (headers : List Header) :
      Reachable sortTally start chain s → s.apply sortTally headers = .ok s' →
      Reachable sortTally start (chain ++ headers) s'
  | reorder {chain : List Header} {s s' : Snapshot} :
      Reachable sortTally start chain s → s.Reordered s' → Reachable sortTally start chain s'

end SimpleChain.Dpos
