import Mathlib
import SimpleChain.Istanbul.Snapshot
import SimpleChain.Lib.Loop

/-! # Committed seals on import

A block received from a peer carries the COMMIT seals of the validators that
committed it.  `verifyCommittedSeals` recovers their addresses, removes each from
a copy of the parent's validator set (so that one validator cannot count twice)
and asks for more than `F` of them.  `F + 1` is less than the `Confirmations()`
COMMIT messages after which the core calls `Commit` whenever there are two
validators or more: the import path accepts a block on fewer seals than a
validator needs to commit it.  What the core commits, the seals of a quorum of
distinct validators, always passes. -/
set_option autoImplicit false

namespace SimpleChain.Istanbul

open GoLoop

/-- `backend.Signers`: the address of each committed seal, in order. -/
def signers (header : Header) : Except EngineError (List Address) :=
  header.committedSeal.mapM fun recovered =>
    match recovered with
    | some addr => pure addr
    | none => throw .invalidSignature

/-- The loop of `verifyCommittedSeals`: each committer is removed from the copy
of the validator set and counted; one that is not left in the copy fails it. -/
def removeCommitters (validators : List Address) (validSeal : Nat) :
    List Address → Except EngineError Nat
  | [] => pure validSeal
  | addr :: rest =>
      match ValidatorSet.removeValidator validators addr with
      | (true, validators) => removeCommitters validators (validSeal + 1) rest
      | (false, _) => throw .invalidCommittedSeals

variable {less : Address → Address → Bool} (srt : GoSort Address less)

/-- `verifyCommittedSeals` against `snap`, the snapshot of the parent block. -/
def verifyCommittedSeals (snap : Snapshot) (header : Header) : Except EngineError Unit :=
  -- the genesis block carries no committed seals
  if header.number = 0 then pure ()
  else do
    if header.committedSeal.isEmpty then throw .emptyCommittedSeals
    let committers ← signers header
    let validSeal ← removeCommitters (ValidatorSet.newSet srt snap.valSet) 0 committers
    -- Go's `F()` is -1 for an empty set, where no committer can be removed anyway
    if validSeal ≤ ValidatorSet.F snap.valSet.length then throw .invalidCommittedSeals

theorem signers_eq_ok_iff (header : Header) (committers : List Address) :
    signers header = .ok committers ↔ header.committedSeal = committers.map some := by
  -- each check passes exactly on a seal that recovers, with its address
  have recovers : ∀ (recovered : Option Address) (addr : Address),
      (match recovered with
        | some addr => (pure addr : Except EngineError Address)
        | none => throw EngineError.invalidSignature) = .ok addr ↔ recovered = some addr := by
    intro recovered addr
    cases recovered <;> simp
  unfold signers
  rw [mapM_eq_ok_iff]
  simp only [recovers]
  rw [← List.forall₂_map_right_iff, List.forall₂_eq_eq_eq]

theorem cons_subperm_iff {a : Address} {rest validators : List Address} (member : a ∈ validators) :
    (a :: rest).Subperm validators ↔ rest.Subperm (validators.erase a) := by
  constructor
  · intro sub
    simpa using sub.erase a
  · intro sub
    exact ((List.subperm_cons a).mpr sub).trans (List.perm_cons_erase member).symm.subperm

/-- The loop succeeds exactly when the committers, repeats counted, are among the
validators; it then counts them all. -/
theorem removeCommitters_eq_ok_iff : ∀ (validators : List Address) (validSeal : Nat)
    (committers : List Address) (count : Nat),
    removeCommitters validators validSeal committers = .ok count ↔
      committers.Subperm validators ∧ count = validSeal + committers.length
  | validators, validSeal, [], count => by
      simp only [removeCommitters, pure_eq_ok, List.nil_subperm, List.length_nil, Nat.add_zero,
        true_and]
      exact eq_comm
  | validators, validSeal, addr :: rest, count => by
      unfold removeCommitters ValidatorSet.removeValidator
      by_cases member : addr ∈ validators
      · -- the committer is removed and the rest is checked against what is left
        rw [if_pos (List.contains_iff_mem.mpr member)]
        dsimp only
        rw [removeCommitters_eq_ok_iff, cons_subperm_iff member, List.length_cons]
        constructor <;> rintro ⟨sub, counted⟩ <;> exact ⟨sub, by omega⟩
      · rw [if_neg (by simpa [List.contains_iff_mem] using member)]
        have notSub : ¬ (addr :: rest).Subperm validators := fun sub =>
          member (sub.subset List.mem_cons_self)
        simp [notSub]

theorem verifyCommittedSeals_eq_ok_iff (snap : Snapshot) (header : Header)
    (positive : header.number ≠ 0) :
    verifyCommittedSeals srt snap header = .ok () ↔
      ∃ committers : List Address, header.committedSeal = committers.map some ∧
        committers.Subperm snap.valSet ∧ ValidatorSet.F snap.valSet.length < committers.length := by
  unfold verifyCommittedSeals
  rw [if_neg positive]
  dsimp only
  by_cases empty : header.committedSeal.isEmpty = true
  · -- no seal at all: rejected, and no list of committers exceeds `F`
    rw [if_pos empty]
    have noSeal : header.committedSeal = [] := List.isEmpty_iff.mp empty
    simp [bind_eq_ok, noSeal]
  · rw [if_neg empty]
    simp only [pure, Except.pure, bind_eq_ok]
    have passes : ∀ validSeal : Nat,
        ((if validSeal ≤ ValidatorSet.F snap.valSet.length then throw EngineError.invalidCommittedSeals
          else Except.ok ()) : Except EngineError Unit) = .ok () ↔
          ValidatorSet.F snap.valSet.length < validSeal := by
      intro validSeal
      split <;> simp <;> omega
    -- the copy is the validator list sorted again
    have sorted : ∀ committers : List Address,
        committers.Subperm (ValidatorSet.newSet srt snap.valSet) ↔ committers.Subperm snap.valSet :=
      fun _ => (srt.perm snap.valSet).subperm_left
    simp only [signers_eq_ok_iff, removeCommitters_eq_ok_iff, passes, sorted]
    constructor
    · rintro ⟨committers, seals, _, ⟨sub, rfl⟩, above⟩
      exact ⟨committers, seals, sub, by omega⟩
    · rintro ⟨committers, seals, sub, above⟩
      exact ⟨committers, seals, _, ⟨sub, rfl⟩, by omega⟩

/-- With a parent set without repeats, the seals come from distinct validators. -/
theorem committers_nodup_of_verifyCommittedSeals {snap : Snapshot} {header : Header}
    (positive : header.number ≠ 0) (distinct : snap.valSet.Nodup)
    (accepted : verifyCommittedSeals srt snap header = .ok ()) :
    ∃ committers : List Address, header.committedSeal = committers.map some ∧
      committers.Nodup ∧ (∀ c ∈ committers, c ∈ snap.valSet) := by
  obtain ⟨committers, seals, sub, -⟩ := (verifyCommittedSeals_eq_ok_iff srt snap header positive).mp accepted
  obtain ⟨picked, permuted, taken⟩ := sub
  exact ⟨committers, seals, permuted.nodup_iff.mp (distinct.sublist taken),
    fun c member => taken.subset (permuted.mem_iff.mpr member)⟩

/-- From two validators on, `F + 1` seals are fewer than the `Confirmations()`
COMMIT messages the core waits for. -/
theorem F_succ_lt_confirmations {n : Nat} (two : 2 ≤ n) : ValidatorSet.F n + 1 < confirmations n := by
  unfold ValidatorSet.F confirmations
  omega

/-- The seals of the first `F + 1` validators of the parent's set pass, whatever
the set. -/
theorem verifyCommittedSeals_accepts_first (snap : Snapshot) (header : Header)
    (positive : header.number ≠ 0) (nonempty : snap.valSet ≠ [])
    (seals : header.committedSeal = (snap.valSet.take (ValidatorSet.F snap.valSet.length + 1)).map some) :
    verifyCommittedSeals srt snap header = .ok () := by
  have fits : ValidatorSet.F snap.valSet.length + 1 ≤ snap.valSet.length := by
    have : 0 < snap.valSet.length := List.length_pos_iff.mpr nonempty
    unfold ValidatorSet.F
    omega
  refine (verifyCommittedSeals_eq_ok_iff srt snap header positive).mpr
    ⟨_, seals, (List.take_sublist _ _).subperm, ?_⟩
  rw [List.length_take, Nat.min_eq_left fits]
  omega

/-- What the core hands to `Commit` passes: the seals of `Confirmations()` distinct
validators of the parent set are more than `F`. -/
theorem verifyCommittedSeals_accepts_quorum (snap : Snapshot) (header : Header)
    (positive : header.number ≠ 0) {committers : List Address}
    (seals : header.committedSeal = committers.map some) (distinct : committers.Nodup)
    (members : ∀ c ∈ committers, c ∈ snap.valSet)
    (quorum : confirmations snap.valSet.length ≤ committers.length) (nonempty : snap.valSet ≠ []) :
    verifyCommittedSeals srt snap header = .ok () := by
  have below : ValidatorSet.F snap.valSet.length < confirmations snap.valSet.length := by
    have : 0 < snap.valSet.length := List.length_pos_iff.mpr nonempty
    unfold ValidatorSet.F confirmations
    omega
  exact (verifyCommittedSeals_eq_ok_iff srt snap header positive).mpr
    ⟨committers, seals, List.subperm_of_subset distinct members, by omega⟩

/-- The parent snapshot of block 1 on a chain of four validators, their list in
sorted order. -/
def fourValidators : Snapshot := newSnapshot 30000 0 0 [1#160, 2#160, 3#160, 4#160]

/-- Block 1 carrying the committed seals of validators 1 and 2 only. -/
def sealedByTwo : Header :=
  { number := 1, hash := 0, coinbase := 0, nonce := nonceDropVote, sealer := some 1#160
    committedSeal := [some 1#160, some 2#160] }

theorem verifyCommittedSeals_accepts_two_of_four :
    verifyCommittedSeals srt fourValidators sealedByTwo = .ok ()
      ∧ sealedByTwo.committedSeal.length < confirmations fourValidators.valSet.length :=
  ⟨verifyCommittedSeals_accepts_first srt fourValidators sealedByTwo (by decide) (by decide)
    (by decide), by decide⟩

end SimpleChain.Istanbul
