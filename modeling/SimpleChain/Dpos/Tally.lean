import Mathlib
import SimpleChain.Dpos.Run

/-! # The tally follows the votes

`Tally[c]` is kept incrementally by the vote steps, the balance changes, the
expiry and the pruning of non-positive entries, and `apply` checks it against
a tally rebuilt from the votes (`verifyTallyCnt`).  `BallotInvariant` is what
makes that check pass: every candidate's tally, read as 0 when absent, is the
sum of the stakes voted for it; no stake is negative; every vote is filed under
its voter.  Genesis establishes it (the self-vote signers are distinct and
their stakes are balances), each step of a header whose stakes are balances
keeps it, and so does holding the maps in another order; every reachable
snapshot satisfies it and `apply` never fails the tally check.

The invariant reads an absent entry as 0.  It does not make the entry of a
voted candidate present: a balance change to 0 leaves a vote of stake 0 whose
candidate's entry the pruning then deletes, and the voter's next vote or
balance change dereferences the missing entry. -/
set_option autoImplicit false

namespace SimpleChain.Dpos

/-- The stake `vote` gives candidate `c`. -/
def Vote.stakeOn (c : Address) (vote : Vote) : Int :=
  if vote.candidate = c then vote.stake else 0

/-- The sum of the stakes of all votes for `c`, what `Tally[c]` stands for. -/
def votedStake (votes : GoMap Address Vote) (c : Address) : Int :=
  votes.sumOf fun _ vote => vote.stakeOn c

/-- What `Prepare` passes to `newSnapshot`: one vote per distinct self-vote
signer, with its balance as stake. -/
def GenesisVotesOk (votes : List Vote) : Prop :=
  (votes.map Vote.voter).Nodup ∧ ∀ vote ∈ votes, 0 ≤ vote.stake

instance : DecidablePred GenesisVotesOk :=
  fun _ => inferInstanceAs (Decidable (_ ∧ _))

/-- The stakes of a header's votes and balance changes are account balances. -/
def HeaderExtra.StakesNonneg (headerExtra : HeaderExtra) : Prop :=
  (∀ vote ∈ headerExtra.currentBlockVotes, 0 ≤ vote.stake) ∧
    ∀ txVote ∈ headerExtra.modifyPredecessorVotes, 0 ≤ txVote.stake

instance : DecidablePred HeaderExtra.StakesNonneg :=
  fun _ => inferInstanceAs (Decidable (_ ∧ _))

def Header.StakesNonneg (header : Header) : Prop :=
  ∀ headerExtra ∈ header.extra, headerExtra.StakesNonneg

instance : DecidablePred Header.StakesNonneg :=
  fun header => inferInstanceAs (Decidable (∀ headerExtra ∈ header.extra, _))

/-! ## Stakes voted for a candidate -/

theorem Vote.stakeOn_nonneg {vote : Vote} (nonneg : 0 ≤ vote.stake) (c : Address) :
    0 ≤ vote.stakeOn c := by
  unfold Vote.stakeOn
  split_ifs
  · exact nonneg
  · exact le_refl 0

@[simp] theorem Vote.stakeOn_candidate (vote : Vote) : vote.stakeOn vote.candidate = vote.stake :=
  if_pos rfl

theorem Vote.stakeOn_of_ne {vote : Vote} {c : Address} (other : c ≠ vote.candidate) :
    vote.stakeOn c = 0 :=
  if_neg (Ne.symm other)

theorem votedStake_insert (votes : GoMap Address Vote) (a : Address) (vote : Vote)
    (c : Address) :
    votedStake (votes.insert a vote) c = votedStake (votes.erase a) c + vote.stakeOn c :=
  GoMap.sumOf_insert _ votes a vote

theorem votedStake_erase {votes : GoMap Address Vote} {a : Address} {vote : Vote}
    (present : votes.lookup a = some vote) (c : Address) :
    votedStake (votes.erase a) c = votedStake votes c - vote.stakeOn c := by
  have split : votedStake (votes.erase a) c + vote.stakeOn c = votedStake votes c :=
    GoMap.sumOf_erase_add present
  omega

/-- No vote for `c` leaves nothing to sum. -/
theorem sum_stakeOn_eq_zero {c : Address} :
    ∀ {entries : List (Σ _ : Address, Vote)},
      entries.any (fun entry => entry.2.candidate = c) = false →
      (entries.map fun entry => entry.2.stakeOn c).sum = 0 := by
  intro entries noVote
  apply List.sum_eq_zero
  intro x member
  obtain ⟨entry, entryMember, rfl⟩ := List.mem_map.mp member
  have other : entry.2.candidate ≠ c := by
    intro same
    have found : entries.any (fun entry => entry.2.candidate = c) = true :=
      List.any_eq_true.mpr ⟨entry, entryMember, by simp [same]⟩
    rw [noVote] at found
    cases found
  exact Vote.stakeOn_of_ne (Ne.symm other)

theorem votedStake_eq_zero {votes : GoMap Address Vote} {c : Address}
    (noVote : votes.entries.any (fun entry => entry.2.candidate = c) = false) :
    votedStake votes c = 0 :=
  sum_stakeOn_eq_zero noVote

/-! ## The invariant and its algebra -/

/-- The tally matches the votes. -/
structure BallotInvariant (votes : GoMap Address Vote) (tally : GoMap Address Int) : Prop where
  tally_eq : ∀ c, (tally.lookup c).getD 0 = votedStake votes c
  stake_nonneg : ∀ a vote, votes.lookup a = some vote → 0 ≤ vote.stake
  voter_eq : ∀ a vote, votes.lookup a = some vote → vote.voter = a

section Algebra
variable {votes : GoMap Address Vote} {tally : GoMap Address Int}

theorem BallotInvariant.votedStake_nonneg (inv : BallotInvariant votes tally) (c : Address) :
    0 ≤ votedStake votes c :=
  GoMap.sumOf_nonneg fun a vote found => Vote.stakeOn_nonneg (inv.stake_nonneg a vote found) c

theorem BallotInvariant.tally_nonneg (inv : BallotInvariant votes tally) {c : Address} {t : Int}
    (found : tally.lookup c = some t) : 0 ≤ t := by
  have matched := inv.tally_eq c
  rw [found, Option.getD_some] at matched
  rw [matched]
  exact inv.votedStake_nonneg c

/-- A vote's stake is at most what its candidate is voted in all. -/
theorem BallotInvariant.stake_le (inv : BallotInvariant votes tally) {a : Address} {vote : Vote}
    (found : votes.lookup a = some vote) : vote.stake ≤ votedStake votes vote.candidate := by
  have bound : vote.stakeOn vote.candidate ≤ votedStake votes vote.candidate :=
    GoMap.le_sumOf (fun a' vote' found' => Vote.stakeOn_nonneg (inv.stake_nonneg a' vote' found') _)
      found
  rwa [Vote.stakeOn_candidate] at bound

/-- The invariant reads the tally only through `getD 0`. -/
theorem BallotInvariant.congr_tally (inv : BallotInvariant votes tally)
    {tally' : GoMap Address Int} (same : ∀ c, (tally'.lookup c).getD 0 = (tally.lookup c).getD 0) :
    BallotInvariant votes tally' where
  tally_eq c := (same c).trans (inv.tally_eq c)
  stake_nonneg := inv.stake_nonneg
  voter_eq := inv.voter_eq

/-- Taking a voter's vote off its candidate's tally entry. -/
theorem BallotInvariant.withdraw (inv : BallotInvariant votes tally) {a : Address}
    {lastVote : Vote} {stake : Int} (last : votes.lookup a = some lastVote)
    (present : tally.lookup lastVote.candidate = some stake) :
    BallotInvariant (votes.erase a) (tally.insert lastVote.candidate (stake - lastVote.stake)) where
  tally_eq c := by
    rw [votedStake_erase last, ← inv.tally_eq c]
    by_cases same : c = lastVote.candidate
    · subst same
      simp [AList.lookup_insert, present]
    · simp [AList.lookup_insert_ne same, Vote.stakeOn_of_ne same]
  stake_nonneg a' vote found := inv.stake_nonneg a' vote (GoMap.lookup_of_lookup_erase found)
  voter_eq a' vote found := inv.voter_eq a' vote (GoMap.lookup_of_lookup_erase found)

/-- Recording a vote under its voter and adding it to its candidate's entry. -/
theorem BallotInvariant.cast {vote : Vote} (inv : BallotInvariant (votes.erase vote.voter) tally)
    (nonneg : 0 ≤ vote.stake) :
    BallotInvariant (votes.insert vote.voter vote)
      (tally.insert vote.candidate ((tally.lookup vote.candidate).getD 0 + vote.stake)) where
  tally_eq c := by
    rw [votedStake_insert, ← inv.tally_eq c]
    by_cases same : c = vote.candidate
    · subst same
      simp [AList.lookup_insert]
    · simp [AList.lookup_insert_ne same, Vote.stakeOn_of_ne same]
  stake_nonneg a other found := by
    by_cases same : a = vote.voter
    · subst same
      rw [AList.lookup_insert, Option.some.injEq] at found
      exact found ▸ nonneg
    · rw [AList.lookup_insert_ne same] at found
      exact inv.stake_nonneg a other (by rwa [AList.lookup_erase_ne same])
  voter_eq a other found := by
    by_cases same : a = vote.voter
    · subst same
      rw [AList.lookup_insert, Option.some.injEq] at found
      exact found ▸ rfl
    · rw [AList.lookup_insert_ne same] at found
      exact inv.voter_eq a other (by rwa [AList.lookup_erase_ne same])

/-- A balance change: the vote keeps its candidate and takes the new stake. -/
theorem BallotInvariant.rebalance (inv : BallotInvariant votes tally) {txVote : PredecessorVoter}
    {lastVote : Vote} {stake : Int} (last : votes.lookup txVote.voter = some lastVote)
    (present : tally.lookup lastVote.candidate = some stake) (nonneg : 0 ≤ txVote.stake) :
    BallotInvariant (votes.insert txVote.voter ⟨txVote.voter, lastVote.candidate, txVote.stake⟩)
      (tally.insert lastVote.candidate (stake - lastVote.stake + txVote.stake)) := by
  have recast := @BallotInvariant.cast _ _ ⟨txVote.voter, lastVote.candidate, txVote.stake⟩
    (inv.withdraw last present) nonneg
  simpa [AList.lookup_insert, AList.insert_insert] using recast

/-- Dropping the entries `updateSnapshotForExpired` prunes: they are all 0. -/
theorem BallotInvariant.prune (inv : BallotInvariant votes tally) :
    BallotInvariant votes (tally.filter fun _ stake => !decide (stake ≤ 0)) := by
  refine inv.congr_tally fun c => ?_
  rw [GoMap.lookup_filter]
  cases found : tally.lookup c with
  | none => rfl
  | some t =>
      have nonneg : 0 ≤ t := inv.tally_nonneg found
      by_cases positive : 0 < t
      · simp [Option.filter_some, not_le.mpr positive]
      · have zero : t = 0 := by omega
        simp [Option.filter_some, zero]

theorem BallotInvariant.reorder (inv : BallotInvariant votes tally)
    {votes' : GoMap Address Vote} {tally' : GoMap Address Int} (sameVotes : votes.Equiv votes')
    (sameTally : tally.Equiv tally') : BallotInvariant votes' tally' where
  tally_eq c := by
    rw [← sameTally c, inv.tally_eq c]
    exact GoMap.sumOf_equiv _ sameVotes
  stake_nonneg a vote found := inv.stake_nonneg a vote ((sameVotes a).trans found)
  voter_eq a vote found := inv.voter_eq a vote ((sameVotes a).trans found)

end Algebra

/-! ## Each step keeps the invariant -/

section Steps
variable (sortTally : GoSort TallyItem TallySlice.less)

theorem BallotInvariant.of_ballot {s : Snapshot} {votes : GoMap Address Vote}
    {tally : GoMap Address Int} (ballot : s.ballot = (votes, tally))
    (inv : BallotInvariant votes tally) : BallotInvariant s.votes s.tally := by
  simp only [Snapshot.ballot, Prod.mk.injEq] at ballot
  rw [ballot.1, ballot.2]
  exact inv

theorem Snapshot.updateSnapshotByVote_ballotInvariant {headerNumber : Nat} {s s' : Snapshot}
    {vote : Vote} (inv : BallotInvariant s.votes s.tally) (nonneg : 0 ≤ vote.stake)
    (step : Snapshot.updateSnapshotByVote headerNumber s vote = .ok s') :
    BallotInvariant s'.votes s'.tally := by
  obtain ⟨tally, withdrawn, -, counted⟩ := Snapshot.updateSnapshotByVote_ok step
  have afterWithdraw : BallotInvariant (s.votes.erase vote.voter) tally := by
    rcases Snapshot.withdrawLastVote_ok withdrawn with
      ⟨noVote, rfl⟩ | ⟨lastVote, stake, last, present, rfl⟩
    · rw [GoMap.erase_of_lookup_none noVote]
      exact inv
    · exact inv.withdraw last present
  split_ifs at counted
  · exact BallotInvariant.of_ballot counted afterWithdraw
  · exact BallotInvariant.of_ballot counted (afterWithdraw.cast nonneg)

theorem Snapshot.updateSnapshotByMPVote_ballotInvariant {s s' : Snapshot}
    {txVote : PredecessorVoter} (inv : BallotInvariant s.votes s.tally) (nonneg : 0 ≤ txVote.stake)
    (step : s.updateSnapshotByMPVote txVote = .ok s') : BallotInvariant s'.votes s'.tally := by
  rcases Snapshot.updateSnapshotByMPVote_ok step with
    ⟨-, rfl⟩ | ⟨lastVote, stake, last, present, -, rebalanced⟩
  · exact inv
  · exact BallotInvariant.of_ballot rebalanced (inv.rebalance last present nonneg)

theorem Snapshot.removeExpiredVote_ballotInvariant {s : Snapshot} {vote : Vote}
    (inv : BallotInvariant s.votes s.tally) (current : s.votes.lookup vote.voter = some vote) :
    BallotInvariant (s.removeExpiredVote vote).votes (s.removeExpiredVote vote).tally := by
  unfold Snapshot.removeExpiredVote
  dsimp only
  cases present : s.tally.lookup vote.candidate with
  | none =>
      dsimp only
      -- a candidate with no entry is voted 0 in all, so this vote's stake is 0
      have absent := inv.tally_eq vote.candidate
      rw [present, Option.getD_none] at absent
      have zero : vote.stake = 0 := by
        have bound := inv.stake_le current
        have nonneg := inv.stake_nonneg _ _ current
        omega
      refine ⟨fun c => ?_, ?_, ?_⟩
      · rw [votedStake_erase current, ← inv.tally_eq c]
        unfold Vote.stakeOn
        split_ifs <;> simp [zero]
      · exact fun a other found => inv.stake_nonneg a other (GoMap.lookup_of_lookup_erase found)
      · exact fun a other found => inv.voter_eq a other (GoMap.lookup_of_lookup_erase found)
  | some stake =>
      dsimp only
      have withdrawn := inv.withdraw current present
      split_ifs with emptied
      · refine withdrawn.congr_tally fun c => ?_
        by_cases same : c = vote.candidate
        · subst same
          simp [AList.lookup_erase, AList.lookup_insert, emptied]
        · simp [AList.lookup_erase_ne same, AList.lookup_insert_ne same]
      · exact withdrawn

/-- Removing a list of current votes of distinct voters, one after another. -/
theorem Snapshot.removeExpiredVotes_ballotInvariant :
    ∀ (expired : List Vote) (s : Snapshot), BallotInvariant s.votes s.tally →
      (∀ vote ∈ expired, s.votes.lookup vote.voter = some vote) →
      (expired.map Vote.voter).Nodup →
      BallotInvariant (expired.foldl Snapshot.removeExpiredVote s).votes
        (expired.foldl Snapshot.removeExpiredVote s).tally := by
  intro expired
  induction expired with
  | nil =>
      intro s inv _ _
      exact inv
  | cons vote rest ih =>
      intro s inv current distinct
      rw [List.map_cons, List.nodup_cons] at distinct
      have headCurrent := current vote List.mem_cons_self
      apply ih (s.removeExpiredVote vote) (s.removeExpiredVote_ballotInvariant inv headCurrent)
      · intro other member
        have otherVoter : other.voter ≠ vote.voter := by
          intro same
          exact distinct.1 (same ▸ List.mem_map_of_mem member)
        show (s.votes.erase vote.voter).lookup other.voter = some other
        rw [AList.lookup_erase_ne otherVoter]
        exact current other (List.mem_cons_of_mem vote member)
      · exact distinct.2

theorem Snapshot.expiredVotes_current {s : Snapshot} (inv : BallotInvariant s.votes s.tally)
    (headerNumber : Nat) :
    ∀ vote ∈ s.expiredVotes headerNumber, s.votes.lookup vote.voter = some vote := by
  intro vote member
  unfold Snapshot.expiredVotes at member
  obtain ⟨entry, -, picked⟩ := List.mem_filterMap.mp member
  split at picked
  · cases picked
  · rename_i expiredVote found
    split_ifs at picked
    cases picked
    rw [inv.voter_eq _ _ found]
    exact found

theorem Snapshot.expiredVotes_nodup {s : Snapshot} (inv : BallotInvariant s.votes s.tally)
    (headerNumber : Nat) : ((s.expiredVotes headerNumber).map Vote.voter).Nodup := by
  unfold Snapshot.expiredVotes
  apply GoMap.nodup_filterMap_entries
  intro entry vote picked
  split at picked
  · cases picked
  · rename_i expiredVote found
    split_ifs at picked
    cases picked
    exact inv.voter_eq _ _ found

theorem Snapshot.updateSnapshotForExpired_ballotInvariant {s : Snapshot}
    (inv : BallotInvariant s.votes s.tally) (headerNumber : Nat) :
    BallotInvariant (s.updateSnapshotForExpired headerNumber).votes
      (s.updateSnapshotForExpired headerNumber).tally := by
  unfold Snapshot.updateSnapshotForExpired
  dsimp only
  split_ifs
  · exact (Snapshot.removeExpiredVotes_ballotInvariant _ s inv
      (s.expiredVotes_current inv headerNumber) (s.expiredVotes_nodup inv headerNumber)).prune
  · exact inv.prune

/-- The tally `updateSnapshotForExpired` leaves has only positive entries. -/
theorem Snapshot.updateSnapshotForExpired_tally_pos (s : Snapshot) (headerNumber : Nat)
    {c : Address} {t : Int} (found : (s.updateSnapshotForExpired headerNumber).tally.lookup c = some t) :
    0 < t := by
  unfold Snapshot.updateSnapshotForExpired at found
  dsimp only at found
  rw [GoMap.lookup_filter] at found
  obtain ⟨-, kept⟩ := Option.filter_eq_some_iff.mp found
  simp only [Bool.not_eq_eq_eq_not, Bool.not_true, decide_eq_false_iff_not, not_le] at kept
  exact kept

theorem Snapshot.applyHeader_ballotInvariant {s s' : Snapshot} {header : Header}
    (inv : BallotInvariant s.votes s.tally) (stakes : header.StakesNonneg)
    (run : s.applyHeader sortTally header = .ok s') : BallotInvariant s'.votes s'.tally := by
  obtain ⟨headerExtra, afterVotes, afterMP, afterTrim, -, decoded, votesRun, mpRun, trimRun, rfl⟩ :=
    Snapshot.applyHeader_ok sortTally run
  have extraStakes := stakes headerExtra decoded
  have recorded : BallotInvariant
      ((s.recordHeader header headerExtra).updateSnapshotByConfirmations
        headerExtra.currentBlockConfirmations).votes
      ((s.recordHeader header headerExtra).updateSnapshotByConfirmations
        headerExtra.currentBlockConfirmations).tally :=
    BallotInvariant.of_ballot (by
      rw [Snapshot.updateSnapshotByConfirmations_ballot, Snapshot.recordHeader_ballot]
      rfl) inv
  have voted : BallotInvariant afterVotes.votes afterVotes.tally :=
    GoLoop.foldlM_invariant (fun t => BallotInvariant t.votes t.tally) _ _ _ _
      (fun _ vote _ member inv' step =>
        Snapshot.updateSnapshotByVote_ballotInvariant inv' (extraStakes.1 vote member) step)
      recorded votesRun
  have rebalanced : BallotInvariant afterMP.votes afterMP.tally :=
    GoLoop.foldlM_invariant (fun t => BallotInvariant t.votes t.tally) _ _ _ _
      (fun _ txVote _ member inv' step =>
        Snapshot.updateSnapshotByMPVote_ballotInvariant inv' (extraStakes.2 txVote member) step)
      voted mpRun
  have trimmed : BallotInvariant afterTrim.votes afterTrim.tally := by
    refine BallotInvariant.of_ballot ?_ rebalanced
    rw [(Snapshot.trimCandidates_frame sortTally trimRun).2, Snapshot.settleHeader_ballot]
    rfl
  exact Snapshot.updateSnapshotForExpired_ballotInvariant trimmed header.number

theorem Snapshot.applyHeader_tally_pos {s s' : Snapshot} {header : Header}
    (run : s.applyHeader sortTally header = .ok s') {c : Address} {t : Int}
    (found : s'.tally.lookup c = some t) : 0 < t := by
  obtain ⟨-, -, -, afterTrim, -, -, -, -, -, rfl⟩ := Snapshot.applyHeader_ok sortTally run
  exact afterTrim.updateSnapshotForExpired_tally_pos _ found

theorem Snapshot.apply_ballotInvariant {s s' : Snapshot} {headers : List Header}
    (inv : BallotInvariant s.votes s.tally) (stakes : ∀ header ∈ headers, header.StakesNonneg)
    (run : s.apply sortTally headers = .ok s') : BallotInvariant s'.votes s'.tally := by
  rcases Snapshot.apply_ok sortTally run with
    ⟨-, rfl⟩ | ⟨first, rest, snap, rfl, -, -, folded, rfl, -⟩
  · exact inv
  · exact GoLoop.foldlM_invariant (fun t => BallotInvariant t.votes t.tally) _ _ _ _
      (fun _ header _ member inv' step =>
        Snapshot.applyHeader_ballotInvariant sortTally inv' (stakes header member) step)
      inv folded

end Steps

/-! ## Genesis and reachable snapshots -/

theorem addGenesisVotes_ballotInvariant :
    ∀ (votes : List Vote) (s : Snapshot), BallotInvariant s.votes s.tally →
      (∀ vote ∈ votes, s.votes.lookup vote.voter = none) → GenesisVotesOk votes →
      BallotInvariant (votes.foldl addGenesisVote s).votes (votes.foldl addGenesisVote s).tally := by
  intro votes
  induction votes with
  | nil =>
      intro s inv _ _
      exact inv
  | cons vote rest ih =>
      intro s inv fresh genesis
      obtain ⟨distinct, nonneg⟩ := genesis
      rw [List.map_cons, List.nodup_cons] at distinct
      have noVote := fresh vote List.mem_cons_self
      have counted : BallotInvariant (addGenesisVote s vote).votes (addGenesisVote s vote).tally := by
        have unvoted : BallotInvariant (s.votes.erase vote.voter) s.tally := by
          rw [GoMap.erase_of_lookup_none noVote]
          exact inv
        exact unvoted.cast (nonneg vote List.mem_cons_self)
      apply ih (addGenesisVote s vote) counted
      · intro other member
        have otherVoter : other.voter ≠ vote.voter := by
          intro same
          exact distinct.1 (same ▸ List.mem_map_of_mem member)
        show (s.votes.insert vote.voter vote).lookup other.voter = none
        rw [AList.lookup_insert_ne otherVoter]
        exact fresh other (List.mem_cons_of_mem vote member)
      · exact ⟨distinct.2, fun other member => nonneg other (List.mem_cons_of_mem vote member)⟩

theorem newSnapshot_ballotInvariant {votes : List Vote} (genesis : GenesisVotesOk votes)
    (config : DPoSConfig) (hash : Hash) (lcrs now : Nat) :
    BallotInvariant (newSnapshot config hash votes lcrs now).votes
      (newSnapshot config hash votes lcrs now).tally := by
  apply addGenesisVotes_ballotInvariant votes _ _ (fun _ _ => rfl) genesis
  refine ⟨fun c => rfl, ?_, ?_⟩ <;> intro a vote found <;> cases found

theorem Reachable.ballotInvariant {sortTally : GoSort TallyItem TallySlice.less}
    {config : DPoSConfig} {hash : Hash} {votes : List Vote} {lcrs now : Nat}
    {chain : List Header} {s : Snapshot} (genesis : GenesisVotesOk votes)
    (reach : Reachable sortTally (newSnapshot config hash votes lcrs now) chain s)
    (stakes : ∀ header ∈ chain, header.StakesNonneg) : BallotInvariant s.votes s.tally := by
  induction reach with
  | start => exact newSnapshot_ballotInvariant genesis config hash lcrs now
  | apply headers _ run ih =>
      exact Snapshot.apply_ballotInvariant sortTally
        (ih fun header member => stakes header (List.mem_append_left headers member))
        (fun header member => stakes header (List.mem_append_right _ member)) run
  | reorder _ reordered ih => exact (ih stakes).reorder reordered.votes reordered.tally

/-! ## The tally check -/

/-- `verifyTallyCnt`'s rebuilt tally: an entry for every voted candidate, with
the stakes voted for it. -/
theorem lookup_foldl_tallyTarget (c : Address) :
    ∀ (entries : List (Σ _ : Address, Vote)) (target : GoMap Address Int),
      (entries.foldl
        (fun target entry => target.insert entry.2.candidate
          ((target.lookup entry.2.candidate).getD 0 + entry.2.stake)) target).lookup c =
        if entries.any (fun entry => entry.2.candidate = c) then
          some ((target.lookup c).getD 0 + (entries.map fun entry => entry.2.stakeOn c).sum)
        else target.lookup c := by
  intro entries
  induction entries with
  | nil => intro target; simp
  | cons entry rest ih =>
      intro target
      rw [List.foldl_cons, ih]
      by_cases same : entry.2.candidate = c
      · subst same
        by_cases voted : rest.any (fun other => other.2.candidate = entry.2.candidate) = true
        · simp [AList.lookup_insert, voted]
          omega
        · rw [Bool.not_eq_true] at voted
          simp [AList.lookup_insert, voted, sum_stakeOn_eq_zero voted]
      · have unchanged : ∀ stake : Int,
            (target.insert entry.2.candidate stake).lookup c = target.lookup c :=
          fun _ => AList.lookup_insert_ne (Ne.symm same)
        have notVoted : decide (entry.2.candidate = c) = false := decide_eq_false same
        rw [unchanged, List.any_cons, notVoted, Bool.false_or, List.map_cons, List.sum_cons,
          Vote.stakeOn_of_ne (Ne.symm same), zero_add]

theorem Snapshot.tallyTarget_lookup (s : Snapshot) (c : Address) :
    s.tallyTarget.lookup c =
      if s.votes.entries.any (fun entry => entry.2.candidate = c) then some (votedStake s.votes c)
      else none := by
  unfold Snapshot.tallyTarget
  rw [lookup_foldl_tallyTarget]
  simp [votedStake, GoMap.sumOf]

/-- The check passes on a tally that matches the votes and has only positive entries. -/
theorem Snapshot.verifyTallyCnt_ok {s : Snapshot} (inv : BallotInvariant s.votes s.tally)
    (positive : ∀ c t, s.tally.lookup c = some t → 0 < t) : s.verifyTallyCnt = .ok () := by
  unfold Snapshot.verifyTallyCnt
  rw [if_pos]
  · rfl
  rw [List.all_eq_true]
  intro entry member
  have found : s.tally.lookup entry.1 = some entry.2 := AList.mem_lookup_iff.mpr member
  have matched := inv.tally_eq entry.1
  rw [found, Option.getD_some] at matched
  have voted : s.votes.entries.any (fun e => e.2.candidate = entry.1) = true := by
    by_contra noVote
    rw [Bool.not_eq_true] at noVote
    have zero := votedStake_eq_zero noVote
    have pos := positive _ _ found
    omega
  rw [Snapshot.tallyTarget_lookup, if_pos voted, matched]
  simp

/-- Every snapshot reachable from the genesis snapshot keeps each candidate's
tally equal to the stakes voted for it, and no further `apply` fails the
tally check. -/
theorem tally_eq_votedStake_of_reachable {sortTally : GoSort TallyItem TallySlice.less}
    {config : DPoSConfig} {hash : Hash} {votes : List Vote} {lcrs now : Nat}
    {chain : List Header} {s : Snapshot} (genesis : GenesisVotesOk votes)
    (stakes : ∀ header ∈ chain, header.StakesNonneg)
    (reach : Reachable sortTally (newSnapshot config hash votes lcrs now) chain s) :
    (∀ c, (s.tally.lookup c).getD 0 = votedStake s.votes c) ∧
      ∀ headers : List Header, (∀ header ∈ headers, header.StakesNonneg) →
        s.apply sortTally headers ≠ .error .incorrectTallyCount := by
  have inv := reach.ballotInvariant genesis stakes
  refine ⟨inv.tally_eq, fun headers headerStakes failed => ?_⟩
  obtain ⟨first, rest, snap, rfl, folded, verifyFailed⟩ :=
    Snapshot.apply_error_incorrectTallyCount sortTally failed
  have snapInv : BallotInvariant snap.votes snap.tally :=
    GoLoop.foldlM_invariant (fun t => BallotInvariant t.votes t.tally) _ _ _ _
      (fun _ header _ member inv' step =>
        Snapshot.applyHeader_ballotInvariant sortTally inv' (headerStakes header member) step)
      inv folded
  have snapPositive : ∀ c t, snap.tally.lookup c = some t → 0 < t :=
    GoLoop.foldlM_last (fun t => ∀ c v, t.tally.lookup c = some v → 0 < v) _
      (fun _ _ _ step _ _ found => Snapshot.applyHeader_tally_pos sortTally step found)
      _ _ _ (List.cons_ne_nil first rest) folded
  rw [Snapshot.verifyTallyCnt_ok snapInv snapPositive] at verifyFailed
  cases verifyFailed

/-! ## A voter whose balance drops to zero -/

/-- One self-voting signer, address `1`, with balance 5 at genesis. -/
def drainConfig : DPoSConfig where
  period := 3
  epoch := 201600
  maxSignerCount := 21
  minVoterBalance := 100
  genesisTimestamp := 0
  selfVoteSigners := [1#160]
  voterReward := false
  maxSignerCount_pos := by decide

def drainGenesis : Snapshot := newSnapshot drainConfig 0#256 [⟨1#160, 1#160, 5⟩] 10 1000

/-- A block sealed by `1` whose only event is a transfer that leaves `1` with `balance`. -/
def balanceHeader (number : Nat) (parentHash hash : Hash) (balance : Int) : Header where
  number := number
  time := 3 * number
  coinbase := 1#160
  parentHash := parentHash
  hash := hash
  sealer := some 1#160
  extra := some
    { currentBlockConfirmations := [], currentBlockVotes := [], currentBlockProposals := [],
      currentBlockDeclares := [], modifyPredecessorVotes := [⟨1#160, balance⟩],
      loopStartTime := 0, signerQueue := [1#160], signerMissing := [], confirmedBlockNumber := 0 }

theorem tally_eq_votedStake_after_drain :
    GenesisVotesOk [⟨1#160, 1#160, 5⟩] ∧
      (∀ header ∈ [balanceHeader 1 0#256 11#256 0], header.StakesNonneg) ∧
      ∃ s, Reachable (insertionGoSort TallySlice.less TallySlice.less_strictWeak) drainGenesis
          [balanceHeader 1 0#256 11#256 0] s ∧
        (∀ c, (s.tally.lookup c).getD 0 = votedStake s.votes c) ∧
        ∀ headers : List Header, (∀ header ∈ headers, header.StakesNonneg) →
          s.apply (insertionGoSort TallySlice.less TallySlice.less_strictWeak) headers ≠
            .error .incorrectTallyCount := by
  have stakes : ∀ header ∈ [balanceHeader 1 0#256 11#256 0], header.StakesNonneg := by
    decide
  have reach : Reachable (insertionGoSort TallySlice.less TallySlice.less_strictWeak) drainGenesis
      ([] ++ [balanceHeader 1 0#256 11#256 0]) _ :=
    Reachable.apply _ Reachable.start rfl
  exact ⟨by decide, stakes, _, reach, tally_eq_votedStake_of_reachable (by decide) stakes reach⟩

/-- Block 1 sets the vote's stake to 0 and prunes its candidate's tally entry;
block 2 changes the balance again and dereferences the missing entry, whatever
the sort routine. -/
theorem drained_vote_tally_missing (sortTally : GoSort TallyItem TallySlice.less) :
    ∃ s, Reachable sortTally drainGenesis [balanceHeader 1 0#256 11#256 0] s ∧
      s.votes.lookup 1#160 = some ⟨1#160, 1#160, 0⟩ ∧ s.tally.lookup 1#160 = none ∧
      s.apply sortTally [balanceHeader 2 11#256 12#256 7] = .error .panicNilDereference :=
  ⟨_, Reachable.apply _ Reachable.start rfl, rfl, rfl, rfl⟩

end SimpleChain.Dpos
