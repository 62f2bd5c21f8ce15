import Mathlib
import SimpleChain.Istanbul.Core
import SimpleChain.Lib.GoMap
import SimpleChain.Lib.GoSort
import SimpleChain.Lib.Loop

/-! # The validator-voting snapshot of the Istanbul backend

`Snapshot.apply` replays a run of consecutive headers on a copy of a snapshot.
Each header's sealer must be a validator; its earlier vote on the header's
coinbase is withdrawn, the header's vote is cast if it would change something,
and a vote held by more than half of the validators adds or removes the coinbase
and discards the votes that no longer mean anything.

The validator set is `validator.defaultSet`, its list kept in `sort.Sort` order
for `Validators.Less`; the sort is any routine with that contract (`GoSort`).  A
header is given by what `apply` and `verifyCommittedSeals` read of it, with the
address each seal recovers to in place of the seal. -/
set_option autoImplicit false

namespace SimpleChain.Istanbul

/-- `common.Address`. -/
abbrev Address := BitVec 160

structure Vote where
  validator : Address
  block : Nat
  address : Address
  authorize : Bool
  deriving DecidableEq, Repr

/-- `backend.Tally`; `votes` is a Go `int` that starts at one and only drops while
above one. -/
structure Tally where
  authorize : Bool
  votes : Nat
  deriving DecidableEq, Repr

/-- The errors of `apply` and `verifyCommittedSeals`; `number % s.Epoch` panics
in Go when the epoch is zero. -/
inductive EngineError
  | invalidVotingChain
  | unauthorized
  | invalidVote
  | ecrecoverFailed
  | invalidSignature
  | emptyCommittedSeals
  | invalidCommittedSeals
  | panicDivideByZero
  deriving DecidableEq, Repr

structure Header where
  number : Nat
  hash : Hash
  coinbase : Address
  nonce : BitVec 64
  /-- What `ecrecover` returns: the address the seal recovers to, `none` for an error. -/
  sealer : Option Address
  /-- Each committed seal as the address it recovers to, `none` where it does not. -/
  committedSeal : List (Option Address)
  deriving DecidableEq, Repr

def nonceAuthVote : BitVec 64 := BitVec.allOnes 64
def nonceDropVote : BitVec 64 := 0

/-- `ecrecover(header)`: the validator who sealed the header. -/
def Header.signer (header : Header) : Except EngineError Address :=
  match header.sealer with
  | some signer => pure signer
  | none => throw .ecrecoverFailed

/-- The switch on the nonce: the side of the header's vote. -/
def Header.authorize (header : Header) : Except EngineError Bool :=
  if header.nonce = nonceAuthVote then pure true
  else if header.nonce = nonceDropVote then pure false
  else throw .invalidVote

namespace ValidatorSet

variable {less : Address → Address → Bool} (srt : GoSort Address less)

/-- `NewSet` (and so `Copy`): the addresses, sorted. -/
def newSet (addrs : List Address) : List Address := srt.run addrs

/-- `AddValidator`: refused for a member, otherwise appended and sorted again. -/
def addValidator (validators : List Address) (address : Address) : Bool × List Address :=
  if validators.contains address then (false, validators)
  else (true, srt.run (validators ++ [address]))

/-- `RemoveValidator`: drops the first entry of the address. -/
def removeValidator (validators : List Address) (address : Address) : Bool × List Address :=
  if validators.contains address then (true, validators.erase address) else (false, validators)

theorem mem_addValidator {validators : List Address} {address a : Address} :
    a ∈ (addValidator srt validators address).2 ↔ a ∈ validators ∨ a = address := by
  unfold addValidator
  split
  next present =>
    rw [List.contains_iff_mem] at present
    constructor
    · exact Or.inl
    · rintro (member | rfl)
      · exact member
      · exact present
  next => simp [GoSort.mem_run]

theorem nodup_addValidator {validators : List Address} (address : Address)
    (distinct : validators.Nodup) : (addValidator srt validators address).2.Nodup := by
  unfold addValidator
  split
  next => exact distinct
  next absent =>
    rw [List.contains_iff_mem] at absent
    exact (srt.perm _).nodup_iff.mpr (List.nodup_append.mpr
      ⟨distinct, List.nodup_singleton address, fun a member b appended same => by
        rw [List.mem_singleton] at appended
        exact absent (appended ▸ same ▸ member)⟩)

theorem mem_removeValidator_of_ne {validators : List Address} {address a : Address}
    (other : a ≠ address) : a ∈ (removeValidator validators address).2 ↔ a ∈ validators := by
  unfold removeValidator
  split
  next => exact List.mem_erase_of_ne other
  next => exact Iff.rfl

theorem nodup_removeValidator {validators : List Address} (address : Address)
    (distinct : validators.Nodup) : (removeValidator validators address).2.Nodup := by
  unfold removeValidator
  split
  next => exact distinct.erase address
  next => exact distinct

end ValidatorSet

structure Snapshot where
  epoch : Nat
  number : Nat
  hash : Hash
  votes : List Vote
  tally : GoMap Address Tally
  valSet : List Address

def newSnapshot (epoch number : Nat) (hash : Hash) (valSet : List Address) : Snapshot :=
  { epoch, number, hash, votes := [], tally := ∅, valSet }

namespace Snapshot

variable {less : Address → Address → Bool} (srt : GoSort Address less)

def copy (s : Snapshot) : Snapshot := { s with valSet := ValidatorSet.newSet srt s.valSet }

/-- `checkVote`: only a vote to add an outsider or to drop a validator means something. -/
def checkVote (s : Snapshot) (address : Address) (authorize : Bool) : Bool :=
  (s.valSet.contains address && !authorize) || (!s.valSet.contains address && authorize)

/-- A vote means something for at most one side. -/
theorem checkVote_unique {s : Snapshot} {address : Address} {x y : Bool}
    (meaningfulX : s.checkVote address x = true) (meaningfulY : s.checkVote address y = true) :
    x = y := by
  unfold checkVote at meaningfulX meaningfulY
  cases x <;> cases y <;> simp_all

/-- `checkVote` reads the validator set only through membership. -/
theorem checkVote_congr {s s' : Snapshot} {address : Address}
    (same : address ∈ s'.valSet ↔ address ∈ s.valSet) (authorize : Bool) :
    s'.checkVote address authorize = s.checkVote address authorize := by
  have contains : s'.valSet.contains address = s.valSet.contains address := by
    rw [Bool.eq_iff_iff, List.contains_iff_mem, List.contains_iff_mem]
    exact same
  unfold checkVote
  rw [contains]

def cast (s : Snapshot) (address : Address) (authorize : Bool) : Bool × Snapshot :=
  if !s.checkVote address authorize then (false, s)
  else
    match s.tally.lookup address with
    | some old => (true, { s with tally := s.tally.insert address { old with votes := old.votes + 1 } })
    | none => (true, { s with tally := s.tally.insert address ⟨authorize, 1⟩ })

def uncast (s : Snapshot) (address : Address) (authorize : Bool) : Bool × Snapshot :=
  match s.tally.lookup address with
  -- a dangling vote
  | none => (false, s)
  | some tally =>
      if tally.authorize != authorize then (false, s)
      else if 1 < tally.votes then
        (true, { s with tally := s.tally.insert address { tally with votes := tally.votes - 1 } })
      else (true, { s with tally := s.tally.erase address })

theorem cast_fst (s : Snapshot) (address : Address) (authorize : Bool) :
    (s.cast address authorize).1 = s.checkVote address authorize := by
  unfold cast
  split
  next refused => simpa using refused.symm
  next counted => split <;> simpa using counted

theorem cast_of_checkVote_false {s : Snapshot} {address : Address} {authorize : Bool}
    (refused : s.checkVote address authorize = false) : s.cast address authorize = (false, s) := by
  unfold cast
  rw [if_pos (by simp [refused])]

/-- `cast` writes the tally and nothing else. -/
theorem cast_snd (s : Snapshot) (address : Address) (authorize : Bool) :
    ∃ tally, (s.cast address authorize).2 = { s with tally } := by
  unfold cast
  split
  next => exact ⟨s.tally, rfl⟩
  next => split <;> exact ⟨_, rfl⟩

@[simp] theorem cast_votes (s : Snapshot) (address : Address) (authorize : Bool) :
    (s.cast address authorize).2.votes = s.votes := by
  obtain ⟨tally, written⟩ := s.cast_snd address authorize
  rw [written]

@[simp] theorem cast_valSet (s : Snapshot) (address : Address) (authorize : Bool) :
    (s.cast address authorize).2.valSet = s.valSet := by
  obtain ⟨tally, written⟩ := s.cast_snd address authorize
  rw [written]

theorem lookup_cast_ne (s : Snapshot) {address b : Address} (authorize : Bool) (other : b ≠ address) :
    (s.cast address authorize).2.tally.lookup b = s.tally.lookup b := by
  unfold cast; split
  next => rfl
  next => split <;> exact AList.lookup_insert_ne other

/-- `uncast` writes the tally and nothing else. -/
theorem uncast_snd (s : Snapshot) (address : Address) (authorize : Bool) :
    ∃ tally, (s.uncast address authorize).2 = { s with tally } := by
  unfold uncast
  split
  next => exact ⟨s.tally, rfl⟩
  next =>
    split
    next => exact ⟨s.tally, rfl⟩
    next => split <;> exact ⟨_, rfl⟩

@[simp] theorem uncast_votes (s : Snapshot) (address : Address) (authorize : Bool) :
    (s.uncast address authorize).2.votes = s.votes := by
  obtain ⟨tally, written⟩ := s.uncast_snd address authorize
  rw [written]

@[simp] theorem uncast_valSet (s : Snapshot) (address : Address) (authorize : Bool) :
    (s.uncast address authorize).2.valSet = s.valSet := by
  obtain ⟨tally, written⟩ := s.uncast_snd address authorize
  rw [written]

theorem lookup_uncast_ne (s : Snapshot) {address b : Address} (authorize : Bool)
    (other : b ≠ address) : (s.uncast address authorize).2.tally.lookup b = s.tally.lookup b := by
  unfold uncast; split
  next => rfl
  next =>
    split
    next => rfl
    next =>
      split
      next => exact AList.lookup_insert_ne other
      next => exact AList.lookup_erase_ne other

/-- The first loop of `apply`: the validator's earlier vote on the address, if
any, is uncast and removed (there is at most one). -/
def discardVote (snap : Snapshot) (validator address : Address) : Snapshot :=
  match snap.votes.find? (fun vote => vote.validator == validator && vote.address == address) with
  | some vote =>
      { (snap.uncast vote.address vote.authorize).2 with
        votes := snap.votes.eraseP fun vote => vote.validator == validator && vote.address == address }
  | none => snap

/-- Cast the header's vote and, if it counted, record it. -/
def castVote (snap : Snapshot) (validator : Address) (block : Nat) (address : Address)
    (authorize : Bool) : Snapshot :=
  match snap.cast address authorize with
  | (true, snap) => { snap with votes := snap.votes ++ [⟨validator, block, address, authorize⟩] }
  | (false, snap) => snap

@[simp] theorem discardVote_valSet (snap : Snapshot) (validator address : Address) :
    (snap.discardVote validator address).valSet = snap.valSet := by
  unfold discardVote
  split
  next => exact uncast_valSet _ _ _
  next => rfl

@[simp] theorem castVote_valSet (snap : Snapshot) (validator : Address) (block : Nat)
    (address : Address) (authorize : Bool) :
    (snap.castVote validator block address authorize).valSet = snap.valSet := by
  unfold castVote
  split
  next castResult => rw [← cast_valSet snap address authorize, castResult]
  next castResult => rw [← cast_valSet snap address authorize, castResult]

/-- The loop discarding a deauthorized validator's votes.  It uncasts each of them
and drops it from the list; it touches the tally only through `uncast` and the
list only by the removal, so the two are done one after the other. -/
def discardVotesBy (snap : Snapshot) (validator : Address) : Snapshot :=
  let uncast := (snap.votes.filter (·.validator == validator)).foldl
    (fun s vote => (s.uncast vote.address vote.authorize).2) snap
  { uncast with votes := snap.votes.filter (·.validator != validator) }

@[simp] theorem discardVotesBy_votes (snap : Snapshot) (validator : Address) :
    (snap.discardVotesBy validator).votes = snap.votes.filter (·.validator != validator) := rfl

theorem discardVotesBy_valSet (snap : Snapshot) (validator : Address) :
    (snap.discardVotesBy validator).valSet = snap.valSet := by
  unfold discardVotesBy
  dsimp only
  -- `uncast` leaves the validator set alone, vote after vote
  induction snap.votes.filter (·.validator == validator) generalizing snap with
  | nil => rfl
  | cons vote rest ih => rw [List.foldl_cons, ih, uncast_valSet]

/-- A vote that passed: the account is added or removed, a removed validator's
votes are discarded, and so are all votes on the account and its tally. -/
def applyPassed (snap : Snapshot) (address : Address) : Snapshot :=
  -- a missing entry reads as Go's zero `Tally`, which never passes
  let tally := (snap.tally.lookup address).getD ⟨false, 0⟩
  if snap.valSet.length / 2 < tally.votes then
    let snap :=
      if tally.authorize then
        { snap with valSet := (ValidatorSet.addValidator srt snap.valSet address).2 }
      else
        ({ snap with valSet := (ValidatorSet.removeValidator snap.valSet address).2 }).discardVotesBy
          address
    { snap with votes := snap.votes.filter (·.address != address), tally := snap.tally.erase address }
  else snap

/-- A checkpoint block (its number a multiple of the epoch) drops every pending vote. -/
def checkpoint (snap : Snapshot) (epoch number : Nat) : Snapshot :=
  if number % epoch = 0 then { snap with votes := [], tally := ∅ } else snap

@[simp] theorem checkpoint_valSet (snap : Snapshot) (epoch number : Nat) :
    (snap.checkpoint epoch number).valSet = snap.valSet := by
  unfold checkpoint
  split <;> rfl

/-- The body of `apply`'s loop for one header. -/
def applyHeader (epoch : Nat) (snap : Snapshot) (header : Header) : Except EngineError Snapshot :=
  if epoch = 0 then throw .panicDivideByZero
  else do
    let snap := snap.checkpoint epoch header.number
    let validator ← header.signer
    if !snap.valSet.contains validator then throw .unauthorized
    else do
      let snap := snap.discardVote validator header.coinbase
      let authorize ← header.authorize
      let snap := snap.castVote validator header.number header.coinbase authorize
      pure (snap.applyPassed srt header.coinbase)

/-- Everything one header can do to a snapshot. -/
theorem applyHeader_eq_ok {epoch : Nat} {snap s' : Snapshot} {header : Header}
    (applied : snap.applyHeader srt epoch header = .ok s') :
    ∃ validator authorize, header.signer = .ok validator ∧ header.authorize = .ok authorize ∧
      validator ∈ snap.valSet ∧
      s' = (((snap.checkpoint epoch header.number).discardVote validator header.coinbase).castVote
        validator header.number header.coinbase authorize).applyPassed srt header.coinbase := by
  unfold applyHeader at applied
  split at applied
  next => cases applied
  next =>
    obtain ⟨validator, signed, rest⟩ := GoLoop.bind_eq_ok.mp applied
    split at rest
    next => cases rest
    next member =>
      obtain ⟨authorize, voted, done⟩ := GoLoop.bind_eq_ok.mp rest
      refine ⟨validator, authorize, signed, voted, ?_, ?_⟩
      · simpa [List.contains_iff_mem] using member
      · simpa [pure, Except.pure] using done.symm

end Snapshot

/-- The sanity check of `apply`: each header follows the one before it. -/
def consecutive : List Header → Bool
  | first :: second :: rest => second.number == first.number + 1 && consecutive (second :: rest)
  | _ => true

namespace Snapshot

variable {less : Address → Address → Bool} (srt : GoSort Address less)

def apply (s : Snapshot) (headers : List Header) : Except EngineError Snapshot :=
  match headers with
  | [] => pure s
  | first :: rest =>
      if !consecutive (first :: rest) then throw .invalidVotingChain
      else if first.number ≠ s.number + 1 then throw .invalidVotingChain
      else do
        let snap ← (first :: rest).foldlM (applyHeader srt s.epoch) (s.copy srt)
        pure { snap with
          number := snap.number + (first :: rest).length
          hash := ((first :: rest).getLast (List.cons_ne_nil first rest)).hash }

/-- A run of headers returns the snapshot itself, or the copy the loop built
under a new number and hash. -/
theorem apply_eq_ok {s s' : Snapshot} {headers : List Header} (applied : s.apply srt headers = .ok s') :
    s' = s ∨ ∃ snap number hash, headers.foldlM (applyHeader srt s.epoch) (s.copy srt) = .ok snap ∧
      s' = { snap with number, hash } := by
  unfold apply at applied
  split at applied
  next => exact Or.inl (by simpa [pure, Except.pure] using applied.symm)
  next first rest =>
    split at applied
    next => cases applied
    next =>
      split at applied
      next => cases applied
      next =>
        obtain ⟨snap, run, done⟩ := GoLoop.bind_eq_ok.mp applied
        exact Or.inr ⟨snap, _, _, run, by simpa [pure, Except.pure] using done.symm⟩

end Snapshot

end SimpleChain.Istanbul
