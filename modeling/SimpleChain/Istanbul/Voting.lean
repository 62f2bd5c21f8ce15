import Mathlib
import SimpleChain.Istanbul.Snapshot
import SimpleChain.Lib.FirstMatch
import SimpleChain.Lib.Loop

/-! # What a voting snapshot keeps

The tally is a cache of the list of votes: an entry for exactly the accounts
voted on, holding the number of those votes and the side all of them take
(`TallyMatches`).  Each validator holds at most one vote per account, every
vote was cast by a current validator and still means something (it would add an
outsider or drop a validator).  `apply` keeps all of this from any snapshot, and
keeps the validator list free of repeats; `newSnapshot` starts with no votes, but
with the genesis list as it is given, repeats included. -/
set_option autoImplicit false

namespace SimpleChain.Istanbul

open GoLoop

/-- The votes on account `a`, in order. -/
def votesOn (votes : List Vote) (a : Address) : List Vote := votes.filter (·.address == a)

theorem votesOn_append (votes₁ votes₂ : List Vote) (a : Address) :
    votesOn (votes₁ ++ votes₂) a = votesOn votes₁ a ++ votesOn votes₂ a :=
  List.filter_append votes₁ votes₂

theorem votesOn_cons_of_ne {vote : Vote} {a : Address} (votes : List Vote) (other : vote.address ≠ a) :
    votesOn (vote :: votes) a = votesOn votes a := by
  simp [votesOn, other]

theorem votesOn_cons_self (vote : Vote) (votes : List Vote) :
    votesOn (vote :: votes) vote.address = vote :: votesOn votes vote.address := by
  simp [votesOn]

theorem mem_votesOn {votes : List Vote} {a : Address} {v : Vote} :
    v ∈ votesOn votes a ↔ v ∈ votes ∧ v.address = a := by
  simp [votesOn]

/-- The tally entry of one account against the votes on it: no entry for no
vote, otherwise their number, which is positive, and the side they all take. -/
def EntryMatches : Option Tally → List Vote → Prop
  | none, on => on = []
  | some t, on => 0 < t.votes ∧ t.votes = on.length ∧ ∀ v ∈ on, v.authorize = t.authorize

theorem EntryMatches.perm {entry : Option Tally} {on on' : List Vote} (permuted : on.Perm on')
    (matched : EntryMatches entry on) : EntryMatches entry on' := by
  cases entry with
  | none =>
      dsimp only [EntryMatches] at matched ⊢
      subst matched
      exact permuted.symm.eq_nil
  | some t =>
      obtain ⟨positive, counted, sides⟩ := matched
      exact ⟨positive, counted.trans permuted.length_eq,
        fun v member => sides v (permuted.mem_iff.mpr member)⟩

/-- The tally caches the votes, account by account. -/
def TallyMatches (tally : GoMap Address Tally) (votes : List Vote) : Prop :=
  ∀ a, EntryMatches (tally.lookup a) (votesOn votes a)

namespace TallyMatches

variable {tally : GoMap Address Tally} {votes : List Vote}

theorem empty : TallyMatches ∅ [] := fun _ => rfl

theorem perm {votes' : List Vote} (permuted : votes.Perm votes') (cache : TallyMatches tally votes) :
    TallyMatches tally votes' :=
  fun a => (cache a).perm (permuted.filter _)

/-- Dropping every vote on `a` goes with dropping its entry. -/
theorem erase (a : Address) (cache : TallyMatches tally votes) :
    TallyMatches (tally.erase a) (votes.filter (·.address != a)) := by
  intro b
  by_cases same : b = a
  · subst same
    rw [AList.lookup_erase]
    simp [EntryMatches, votesOn, List.filter_filter]
  · rw [AList.lookup_erase_ne same]
    have kept : votesOn (votes.filter (·.address != a)) b = votesOn votes b := by
      simp only [votesOn, List.filter_filter]
      apply List.filter_congr
      intro v _
      by_cases on : v.address = b <;> simp [on, same]
    rw [kept]
    exact cache b

/-- Uncasting a vote the list holds takes it out of the count. -/
theorem uncast {s : Snapshot} {votes₁ votes₂ : List Vote} {vote : Vote}
    (cache : TallyMatches s.tally (votes₁ ++ vote :: votes₂)) :
    TallyMatches (s.uncast vote.address vote.authorize).2.tally (votes₁ ++ votes₂) := by
  intro a
  by_cases same : vote.address = a
  · subst same
    have entry := cache vote.address
    rw [votesOn_append, votesOn_cons_self] at entry
    rw [votesOn_append]
    cases found : s.tally.lookup vote.address with
    | none =>
        rw [found] at entry
        simp [EntryMatches] at entry
    | some t =>
        rw [found] at entry
        obtain ⟨positive, counted, sides⟩ := entry
        have agree : vote.authorize = t.authorize := sides vote (by simp)
        rw [List.length_append, List.length_cons] at counted
        unfold Snapshot.uncast
        rw [found]
        dsimp only
        rw [if_neg (by simp [agree])]
        split
        next more =>
          rw [AList.lookup_insert]
          dsimp only [EntryMatches]
          refine ⟨by omega, by rw [List.length_append]; omega, fun v member => ?_⟩
          rw [List.mem_append] at member
          exact sides v (by rw [List.mem_append, List.mem_cons]; tauto)
        next => -- the vote was the last one on its account
          rw [AList.lookup_erase]
          exact List.eq_nil_of_length_eq_zero (by rw [List.length_append]; omega)
  · rw [s.lookup_uncast_ne vote.authorize (Ne.symm same)]
    have entry := cache a
    rwa [votesOn_append, votesOn_cons_of_ne _ same, ← votesOn_append] at entry

/-- Casting a vote on the side every vote on its account takes adds it to the count. -/
theorem cast {s : Snapshot} {validator : Address} {block : Nat} {address : Address}
    {authorize : Bool} (counted : (s.cast address authorize).1 = true)
    (agree : ∀ v ∈ votes, v.address = address → v.authorize = authorize)
    (cache : TallyMatches s.tally votes) :
    TallyMatches (s.cast address authorize).2.tally (votes ++ [⟨validator, block, address, authorize⟩]) := by
  intro a
  by_cases same : address = a
  · subst same
    have entry := cache address
    rw [votesOn_append]
    have onNew : votesOn [⟨validator, block, address, authorize⟩] address =
        [⟨validator, block, address, authorize⟩] := votesOn_cons_self _ []
    rw [onNew]
    have checked : s.checkVote address authorize = true := (s.cast_fst address authorize) ▸ counted
    unfold Snapshot.cast
    rw [if_neg (by simp [checked])]
    cases found : s.tally.lookup address with
    | none =>
        rw [found] at entry
        dsimp only [EntryMatches] at entry
        simp [AList.lookup_insert, EntryMatches, entry]
    | some old =>
        rw [found] at entry
        obtain ⟨positive, count, sides⟩ := entry
        -- some vote on the account fixes the side of the entry
        obtain ⟨v, member⟩ := List.exists_mem_of_length_pos (count ▸ positive)
        have sameSide : old.authorize = authorize :=
          (sides v member).symm.trans (agree v (mem_votesOn.mp member).1 (mem_votesOn.mp member).2)
        dsimp only
        rw [AList.lookup_insert]
        dsimp only [EntryMatches]
        refine ⟨Nat.succ_pos _, by simp [count], fun w member => ?_⟩
        rw [List.mem_append, List.mem_singleton] at member
        rcases member with earlier | rfl
        · exact sides w earlier
        · exact sameSide.symm
  · rw [s.lookup_cast_ne authorize (Ne.symm same), votesOn_append,
      votesOn_cons_of_ne _ same]
    simpa [votesOn] using cache a

end TallyMatches

/-- Uncasting, in order, votes that follow the rest of the list takes each out of
the count. -/
theorem TallyMatches.uncastAll : ∀ (removed : List Vote) (s : Snapshot) (kept : List Vote),
    TallyMatches s.tally (kept ++ removed) →
      TallyMatches (removed.foldl (fun s vote => (s.uncast vote.address vote.authorize).2) s).tally kept
  | [], _, kept, cache => by rwa [List.append_nil] at cache
  | vote :: removed, s, kept, cache => by
      rw [List.foldl_cons]
      exact TallyMatches.uncastAll removed _ kept (TallyMatches.uncast cache)

theorem TallyMatches.discardVotesBy {s : Snapshot} (validator : Address)
    (cache : TallyMatches s.tally s.votes) :
    TallyMatches (s.discardVotesBy validator).tally (s.discardVotesBy validator).votes := by
  -- the votes kept, followed by the votes uncast, are the votes in another order
  have split : (s.votes.filter (·.validator != validator) ++
      s.votes.filter (·.validator == validator)).Perm s.votes := by
    have opposite : s.votes.filter (·.validator == validator) =
        s.votes.filter (fun v => !(v.validator != validator)) := by
      apply List.filter_congr
      intro v _
      rw [bne, Bool.not_not]
    rw [opposite]
    exact List.filter_append_perm _ _
  exact TallyMatches.uncastAll _ s _ (cache.perm split.symm)

/-! ## The snapshot invariant -/

/-- What `apply` keeps of a snapshot: the tally caches the votes, each validator
holds at most one vote per account, and every vote was cast by a validator and
still means something. -/
structure Snapshot.VotingInv (s : Snapshot) : Prop where
  tally : TallyMatches s.tally s.votes
  single : (s.votes.map fun v => (v.validator, v.address)).Nodup
  castByValidator : ∀ v ∈ s.votes, v.validator ∈ s.valSet
  meaningful : ∀ v ∈ s.votes, s.checkVote v.address v.authorize = true

namespace Snapshot

variable {less : Address → Address → Bool} (srt : GoSort Address less)

theorem VotingInv.reset (snap : Snapshot) :
    ({ snap with votes := [], tally := ∅ } : Snapshot).VotingInv :=
  ⟨TallyMatches.empty, List.nodup_nil, by simp, by simp⟩

/-- Another list with the same members as validator set. -/
theorem VotingInv.congr_valSet {s : Snapshot} (inv : s.VotingInv) (valSet : List Address)
    (same : ∀ a, a ∈ valSet ↔ a ∈ s.valSet) : ({ s with valSet } : Snapshot).VotingInv where
  tally := inv.tally
  single := inv.single
  castByValidator v member := (same _).mpr (inv.castByValidator v member)
  meaningful v member := by
    rw [checkVote_congr (same v.address)]
    exact inv.meaningful v member

theorem VotingInv.discardVote {snap : Snapshot} (inv : snap.VotingInv) (validator address : Address) :
    (snap.discardVote validator address).VotingInv := by
  unfold Snapshot.discardVote
  split
  next vote found =>
    obtain ⟨votes₁, votes₂, listed, erased⟩ := FirstMatch.eraseP_of_find?_eq_some found
    have sub := List.eraseP_sublist (p := fun vote : Vote =>
      vote.validator == validator && vote.address == address) (l := snap.votes)
    have sameSet : ∀ a, a ∈ (snap.uncast vote.address vote.authorize).2.valSet ↔ a ∈ snap.valSet := by
      simp
    refine ⟨?_, inv.single.sublist (sub.map _), ?_, ?_⟩
    · rw [erased]
      exact TallyMatches.uncast (listed ▸ inv.tally)
    · intro v member
      exact (sameSet _).mpr (inv.castByValidator v (sub.subset member))
    · intro v member
      exact (checkVote_congr (sameSet v.address) v.authorize).trans
        (inv.meaningful v (sub.subset member))
  next => exact inv

/-- After the first loop, the validator holds no vote on the address. -/
theorem discardVote_fresh {snap : Snapshot} (inv : snap.VotingInv) (validator address : Address) :
    ∀ v ∈ (snap.discardVote validator address).votes,
      ¬(v.validator = validator ∧ v.address = address) := by
  unfold Snapshot.discardVote
  split
  next vote found =>
    -- the pair is held at most once, and `eraseP` removed it
    have samePredicate : (fun vote : Vote => vote.validator == validator && vote.address == address) =
        fun vote => decide ((vote.validator, vote.address) = (validator, address)) := by
      funext vote
      rw [Bool.eq_iff_iff]
      simp
    intro v member
    dsimp only at member
    rw [samePredicate] at member
    exact fun ⟨byValidator, onAddress⟩ =>
      FirstMatch.key_ne_of_mem_eraseP (fun vote : Vote => (vote.validator, vote.address))
        (validator, address) snap.votes inv.single v member (by rw [byValidator, onAddress])
  next absent =>
    intro v member ⟨byValidator, onAddress⟩
    have := List.find?_eq_none.mp absent v member
    simp [byValidator, onAddress] at this

/-- A vote whose validator holds none on its account can be appended. -/
theorem single_append {votes : List Vote} (single : (votes.map fun v => (v.validator, v.address)).Nodup)
    {vote : Vote} (fresh : ∀ v ∈ votes, ¬(v.validator = vote.validator ∧ v.address = vote.address)) :
    ((votes ++ [vote]).map fun v => (v.validator, v.address)).Nodup := by
  rw [List.map_append, List.nodup_append]
  refine ⟨single, List.nodup_singleton _, ?_⟩
  intro pair listed pair' added same
  obtain ⟨v, vListed, rfl⟩ := List.mem_map.mp listed
  rw [List.map_singleton, List.mem_singleton] at added
  subst added
  exact fresh v vListed (Prod.mk.inj same)

theorem VotingInv.castVote {snap : Snapshot} (inv : snap.VotingInv) {validator address : Address}
    (block : Nat) (authorize : Bool) (member : validator ∈ snap.valSet)
    (fresh : ∀ v ∈ snap.votes, ¬(v.validator = validator ∧ v.address = address)) :
    (snap.castVote validator block address authorize).VotingInv := by
  unfold Snapshot.castVote
  split
  next counted castResult =>
    have checked : snap.checkVote address authorize = true := by
      rw [← cast_fst, castResult]
    -- every vote on the address already takes the side of the new one
    have agree : ∀ v ∈ snap.votes, v.address = address → v.authorize = authorize :=
      fun v listed onAddress => checkVote_unique (onAddress ▸ inv.meaningful v listed) checked
    have tallied : TallyMatches (snap.cast address authorize).2.tally
        (snap.votes ++ [⟨validator, block, address, authorize⟩]) :=
      TallyMatches.cast ((cast_fst _ _ _).trans checked) agree inv.tally
    obtain ⟨tally, written⟩ := snap.cast_snd address authorize
    rw [castResult] at tallied written
    subst written
    refine ⟨tallied, single_append inv.single fresh, ?_, ?_⟩
    · intro v listed
      rcases List.mem_append.mp listed with earlier | added
      · exact inv.castByValidator v earlier
      · rw [List.mem_singleton.mp added]
        exact member
    · intro v listed
      rcases List.mem_append.mp listed with earlier | added
      · exact inv.meaningful v earlier
      · rw [List.mem_singleton.mp added]
        exact checked
  next unchanged castResult =>
    have refused : snap.checkVote address authorize = false := by
      rw [← cast_fst, castResult]
    rw [cast_of_checkVote_false refused, Prod.mk.injEq] at castResult
    rw [← castResult.2]
    exact inv

/-- Dropping every vote on an account together with its entry restores the
invariant of a snapshot whose votes on the other accounts still mean something. -/
theorem VotingInv.purge {s : Snapshot} (address : Address) (cache : TallyMatches s.tally s.votes)
    (single : (s.votes.map fun v => (v.validator, v.address)).Nodup)
    (castBy : ∀ v ∈ s.votes, v.validator ∈ s.valSet)
    (meaningful : ∀ v ∈ s.votes, v.address ≠ address → s.checkVote v.address v.authorize = true) :
    ({ s with votes := s.votes.filter (·.address != address), tally := s.tally.erase address } :
      Snapshot).VotingInv where
  tally := cache.erase address
  single := single.sublist (List.filter_sublist.map _)
  castByValidator v member := castBy v (List.mem_of_mem_filter member)
  meaningful v member := by
    obtain ⟨listed, other⟩ := List.mem_filter.mp member
    exact meaningful v listed (by simpa using other)

theorem VotingInv.applyPassed {snap : Snapshot} (inv : snap.VotingInv) (address : Address) :
    (snap.applyPassed srt address).VotingInv := by
  unfold Snapshot.applyPassed
  dsimp only
  split
  next =>
    split
    next =>
      -- the account joins the set; no other account changes membership
      have sameOther : ∀ a, a ≠ address →
          (a ∈ (ValidatorSet.addValidator srt snap.valSet address).2 ↔ a ∈ snap.valSet) := by
        intro a other
        rw [ValidatorSet.mem_addValidator]
        simp [other]
      exact VotingInv.purge address inv.tally inv.single
        (fun v member => (ValidatorSet.mem_addValidator srt).mpr (Or.inl (inv.castByValidator v member)))
        (fun v member other => (checkVote_congr (sameOther _ other) _).trans (inv.meaningful v member))
    next =>
      -- the account leaves the set, and the votes it cast go with it
      have sameOther : ∀ a, a ≠ address →
          (a ∈ (ValidatorSet.removeValidator snap.valSet address).2 ↔ a ∈ snap.valSet) :=
        fun a other => ValidatorSet.mem_removeValidator_of_ne other
      refine VotingInv.purge address (TallyMatches.discardVotesBy address inv.tally) ?_ ?_ ?_
      · exact inv.single.sublist (List.filter_sublist.map _)
      · intro v member
        rw [discardVotesBy_votes, List.mem_filter] at member
        rw [discardVotesBy_valSet]
        exact (sameOther _ (by simpa using member.2)).mpr (inv.castByValidator v member.1)
      · intro v member other
        rw [discardVotesBy_votes] at member
        have listed := List.mem_of_mem_filter member
        have sameSet : v.address ∈ (({ snap with valSet :=
            (ValidatorSet.removeValidator snap.valSet address).2 } : Snapshot).discardVotesBy
              address).valSet ↔ v.address ∈ snap.valSet := by
          rw [discardVotesBy_valSet]
          exact sameOther _ other
        exact (checkVote_congr sameSet _).trans (inv.meaningful v listed)
  next => exact inv

theorem VotingInv.checkpoint {snap : Snapshot} (inv : snap.VotingInv) (epoch number : Nat) :
    (snap.checkpoint epoch number).VotingInv := by
  unfold Snapshot.checkpoint
  split
  next => exact VotingInv.reset snap
  next => exact inv

/-- One header keeps the invariant. -/
theorem VotingInv.applyHeader {epoch : Nat} {snap s' : Snapshot} {header : Header}
    (inv : snap.VotingInv) (applied : snap.applyHeader srt epoch header = .ok s') : s'.VotingInv := by
  obtain ⟨validator, authorize, -, -, member, rfl⟩ := applyHeader_eq_ok srt applied
  have start := inv.checkpoint epoch header.number
  have member' : validator ∈
      ((snap.checkpoint epoch header.number).discardVote validator header.coinbase).valSet := by
    simpa using member
  exact ((start.discardVote validator header.coinbase).castVote header.number authorize member'
    (discardVote_fresh start validator header.coinbase)).applyPassed srt header.coinbase

/-- A run of headers keeps the invariant. -/
theorem VotingInv.apply {s s' : Snapshot} {headers : List Header} (inv : s.VotingInv)
    (applied : s.apply srt headers = .ok s') : s'.VotingInv := by
  rcases apply_eq_ok srt applied with rfl | ⟨snap, number, hash, run, rfl⟩
  · exact inv
  · have copied : (s.copy srt).VotingInv :=
      inv.congr_valSet _ (fun a => srt.mem_run s.valSet a)
    have built := foldlM_invariant VotingInv (Snapshot.applyHeader srt s.epoch) headers (s.copy srt)
      snap (fun _ _ _ _ before step => before.applyHeader srt step) copied run
    -- the new number and hash are no part of the invariant
    exact ⟨built.tally, built.single, built.castByValidator, built.meaningful⟩

theorem applyPassed_nodup {snap : Snapshot} (distinct : snap.valSet.Nodup) (address : Address) :
    (snap.applyPassed srt address).valSet.Nodup := by
  unfold Snapshot.applyPassed
  dsimp only
  split
  next =>
    split
    next => exact ValidatorSet.nodup_addValidator srt address distinct
    next =>
      rw [discardVotesBy_valSet]
      exact ValidatorSet.nodup_removeValidator address distinct
  next => exact distinct

theorem applyHeader_nodup {epoch : Nat} {snap s' : Snapshot} {header : Header}
    (distinct : snap.valSet.Nodup) (applied : snap.applyHeader srt epoch header = .ok s') :
    s'.valSet.Nodup := by
  obtain ⟨validator, authorize, -, -, -, rfl⟩ := applyHeader_eq_ok srt applied
  apply applyPassed_nodup
  simpa using distinct

theorem apply_nodup {s s' : Snapshot} {headers : List Header} (distinct : s.valSet.Nodup)
    (applied : s.apply srt headers = .ok s') : s'.valSet.Nodup := by
  rcases apply_eq_ok srt applied with rfl | ⟨snap, number, hash, run, rfl⟩
  · exact distinct
  · have copied : (s.copy srt).valSet.Nodup := (srt.perm s.valSet).nodup_iff.mpr distinct
    exact foldlM_invariant (fun snap : Snapshot => snap.valSet.Nodup) (applyHeader srt s.epoch)
      headers (s.copy srt) snap (fun _ _ _ _ before step => applyHeader_nodup srt before step)
      copied run

end Snapshot

/-! ## Reachable snapshots -/

/-- The snapshots `apply` builds from `start`, one run of headers after another. -/
inductive Reachable {less : Address → Address → Bool} (srt : GoSort Address less) (start : Snapshot) :
    Snapshot → Prop
  | start : Reachable srt start start
  | apply {s s' : Snapshot} (headers : List Header) :
      Reachable srt start s → s.apply srt headers = .ok s' → Reachable srt start s'

section Reachable

variable {less : Address → Address → Bool} {srt : GoSort Address less} {start s : Snapshot}

theorem Reachable.votingInv (reach : Reachable srt start s) (inv : start.VotingInv) : s.VotingInv := by
  induction reach with
  | start => exact inv
  | apply headers _ applied ih => exact ih.apply srt applied

theorem Reachable.nodup (reach : Reachable srt start s) (distinct : start.valSet.Nodup) :
    s.valSet.Nodup := by
  induction reach with
  | start => exact distinct
  | apply headers _ applied ih => exact Snapshot.apply_nodup srt ih applied

end Reachable

theorem newSnapshot_votingInv (epoch number : Nat) (hash : Hash) (valSet : List Address) :
    (newSnapshot epoch number hash valSet).VotingInv :=
  ⟨TallyMatches.empty, List.nodup_nil, by simp [newSnapshot], by simp [newSnapshot]⟩

/-- The tally entry of an account exists exactly when a vote on it does, and then
counts those votes and takes their side. -/
theorem TallyMatches.lookup_iff {tally : GoMap Address Tally} {votes : List Vote}
    (cache : TallyMatches tally votes) (a : Address) :
    ((∃ t, tally.lookup a = some t) ↔ ∃ v ∈ votes, v.address = a) ∧
      ∀ t, tally.lookup a = some t →
        t.votes = (votesOn votes a).length ∧ ∀ v ∈ votes, v.address = a → v.authorize = t.authorize := by
  have entry := cache a
  cases found : tally.lookup a with
  | none =>
      rw [found] at entry
      dsimp only [EntryMatches] at entry
      refine ⟨⟨fun ⟨_, impossible⟩ => (nomatch impossible), fun ⟨v, listed, onA⟩ => ?_⟩,
        fun _ impossible => (nomatch impossible)⟩
      have : v ∈ votesOn votes a := mem_votesOn.mpr ⟨listed, onA⟩
      rw [entry] at this
      cases this
  | some t =>
      rw [found] at entry
      obtain ⟨positive, counted, sides⟩ := entry
      obtain ⟨v, onList⟩ := List.exists_mem_of_length_pos (counted ▸ positive)
      refine ⟨⟨fun _ => ⟨v, mem_votesOn.mp onList⟩, fun _ => ⟨t, rfl⟩⟩, ?_⟩
      intro t' same
      cases same
      exact ⟨counted, fun w listed onA => sides w (mem_votesOn.mpr ⟨listed, onA⟩)⟩

section SnapshotInvariant

variable {less : Address → Address → Bool} (srt : GoSort Address less)

theorem voting_snapshot_invariant {epoch number : Nat} {hash : Hash} {validators : List Address}
    {s : Snapshot}
    (reach : Reachable srt (newSnapshot epoch number hash (ValidatorSet.newSet srt validators)) s) :
    (∀ a, ((∃ t, s.tally.lookup a = some t) ↔ ∃ v ∈ s.votes, v.address = a) ∧
      ∀ t, s.tally.lookup a = some t →
        t.votes = (votesOn s.votes a).length ∧ ∀ v ∈ s.votes, v.address = a → v.authorize = t.authorize)
      ∧ (s.votes.map fun v => (v.validator, v.address)).Nodup
      ∧ (∀ v ∈ s.votes, v.validator ∈ s.valSet)
      ∧ (validators.Nodup → s.valSet.Nodup) := by
  have inv := reach.votingInv (newSnapshot_votingInv epoch number hash _)
  refine ⟨inv.tally.lookup_iff, inv.single, inv.castByValidator, fun distinct => reach.nodup ?_⟩
  exact (srt.perm validators).nodup_iff.mpr distinct

end SnapshotInvariant

/-- Addresses in ascending order of their bytes. -/
def addressLess (a b : Address) : Bool := decide (a.toNat < b.toNat)

theorem addressLess_strictWeak : StrictWeakLess addressLess where
  asymm a b less := by
    simp only [addressLess, decide_eq_true_eq, decide_eq_false_iff_not] at less ⊢
    omega
  negTrans a b c less := by
    simp only [addressLess, decide_eq_true_eq] at less ⊢
    omega

/-- A sort routine for the runs below; every result above holds for any. -/
def addressSort : GoSort Address addressLess := insertionGoSort addressLess addressLess_strictWeak

/-- The first snapshot of a chain of validators 1, 2 and 3. -/
def threeValidators : Snapshot :=
  newSnapshot 30000 0 0 (ValidatorSet.newSet addressSort [1#160, 2#160, 3#160])

/-- Blocks 1 and 2, sealed by validators 1 and 2, vote to add validator 4. -/
def joinHeaders : List Header :=
  [{ number := 1, hash := 1, coinbase := 4#160, nonce := nonceAuthVote, sealer := some 1#160,
     committedSeal := [] },
   { number := 2, hash := 2, coinbase := 4#160, nonce := nonceAuthVote, sealer := some 2#160,
     committedSeal := [] }]

/-- What `apply` returns for the two blocks. -/
def joined : Snapshot :=
  match threeValidators.apply addressSort joinHeaders with
  | .ok s => s
  | .error _ => threeValidators

theorem voting_snapshot_invariant_after_join :
    Reachable addressSort threeValidators joined ∧ joined.valSet = [1#160, 2#160, 3#160, 4#160] ∧
      (∀ a, ((∃ t, joined.tally.lookup a = some t) ↔ ∃ v ∈ joined.votes, v.address = a) ∧
        ∀ t, joined.tally.lookup a = some t →
          t.votes = (votesOn joined.votes a).length ∧
            ∀ v ∈ joined.votes, v.address = a → v.authorize = t.authorize)
      ∧ (joined.votes.map fun v => (v.validator, v.address)).Nodup
      ∧ (∀ v ∈ joined.votes, v.validator ∈ joined.valSet)
      ∧ ([1#160, 2#160, 3#160].Nodup → joined.valSet.Nodup) := by
  have reach : Reachable addressSort threeValidators joined := .apply joinHeaders .start rfl
  exact ⟨reach, rfl, voting_snapshot_invariant addressSort reach⟩

/-- A genesis list naming validator 1 twice. -/
def repeatedGenesis : Snapshot :=
  newSnapshot 30000 0 0 (ValidatorSet.newSet addressSort [1#160, 1#160, 2#160])

/-- Block 1, sealed by validator 1, votes to add validator 4. -/
def voteForFour : Header :=
  { number := 1, hash := 1, coinbase := 4#160, nonce := nonceAuthVote, sealer := some 1#160,
    committedSeal := [] }

def afterRepeatedGenesis : Snapshot :=
  match repeatedGenesis.apply addressSort [voteForFour] with
  | .ok s => s
  | .error _ => repeatedGenesis

theorem repeated_genesis_validator_survives :
    Reachable addressSort repeatedGenesis afterRepeatedGenesis ∧
      afterRepeatedGenesis.valSet = [1#160, 1#160, 2#160] ∧ ¬ afterRepeatedGenesis.valSet.Nodup :=
  ⟨.apply [voteForFour] .start rfl, rfl, by decide⟩

end SimpleChain.Istanbul
