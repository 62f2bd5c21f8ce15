import Mathlib
import SimpleChain.Lib.GoSet
import SimpleChain.Lib.GoMap
import SimpleChain.Lib.Loop

/-! # The raft minter's speculative chain (`speculative_chain.go`)

The minter builds blocks on top of blocks raft has not applied yet.  `SpeculativeChain`
keeps the newest of them as `head`, the deque `unappliedBlocks` of the blocks minted and
not yet accepted (oldest first), the guard `expectedInvalidBlockHashes` of descendants
raft is expected to reject, and `proposedTxes`, the transactions of the minted blocks.
A block is opaque: `hash` is its `Hash()` and `transactions` the hashes of its
transactions.  `lane.Deque` is a list and `mapset.Set` a `Finset`.

Over every sequence of the methods in which `Extend` gets no transaction already proposed
and `SetHead` is called only with an empty deque, `head` is the deque's last block while
there is one and `proposedTxes` holds exactly the transactions of the deque's blocks
(`Inv`).  `UnwindFrom` of a block's hash removes that block and the later ones and guards
exactly the later ones when the hash is not guarded yet and no later block has it
(`unwindFrom_of_unguarded`).  Both conditions can fail once a block is minted again after
an unwind; neither does when each minted block's hash is new (`FreshInv`). -/
set_option autoImplicit false

namespace SimpleChain.Raft

open GoLoop

structure SpeculativeChain (B H T : Type) where
  head : Option B
  unappliedBlocks : List B
  expectedInvalidBlockHashes : Finset H
  proposedTxes : Finset T
deriving DecidableEq

variable {B H T : Type}

def newSpeculativeChain : SpeculativeChain B H T := ⟨none, [], ∅, ∅⟩

/-- A call of one of the methods that change the chain. -/
inductive Op (B H : Type) where
  | clear (block : B)
  | extend (block : B)
  | setHead (block : B)
  | accept (acceptedBlock : B)
  | unwindFrom (invalidHash : H) (headBlock : B)

namespace SpeculativeChain

section Methods

variable [DecidableEq T] [DecidableEq H] (hash : B → H) (transactions : B → List T)

def clear (chain : SpeculativeChain B H T) (block : B) : SpeculativeChain B H T :=
  { chain with
    head := some block
    unappliedBlocks := []
    expectedInvalidBlockHashes := ∅
    proposedTxes := ∅ }

def recordProposedTransactions (chain : SpeculativeChain B H T) (txes : List T) : SpeculativeChain B H T :=
  { chain with proposedTxes := txes.foldl (fun set tx => insert tx set) chain.proposedTxes }

def removeProposedTxes (chain : SpeculativeChain B H T) (block : B) : SpeculativeChain B H T :=
  { chain with proposedTxes := (transactions block).foldl (fun set tx => set.erase tx) chain.proposedTxes }

def extend (chain : SpeculativeChain B H T) (block : B) : SpeculativeChain B H T :=
  let chain := { chain with head := some block }
  let chain := chain.recordProposedTransactions (transactions block)
  { chain with unappliedBlocks := chain.unappliedBlocks ++ [block] }

def setHead (chain : SpeculativeChain B H T) (block : B) : SpeculativeChain B H T :=
  { chain with head := some block }

/-- `Shift` the oldest block: the accepted block is someone else's when there was none,
the oldest one when the hashes agree, and otherwise another node's, which takes
precedence over the whole speculative state. -/
def accept (chain : SpeculativeChain B H T) (acceptedBlock : B) : SpeculativeChain B H T :=
  match chain.unappliedBlocks with
  | [] => { chain with head := some acceptedBlock }
  | earliestProposed :: rest =>
    let chain := { chain with unappliedBlocks := rest }
    if hash earliestProposed = hash acceptedBlock then chain.removeProposedTxes transactions acceptedBlock
    else chain.clear acceptedBlock

/-- The `for` loop of `UnwindFrom`, over the deque read from its right end: each
iteration `Pop`s the last block, points `head` at the new `Last()` (or at `headBlock`),
removes the block's transactions, and guards its hash or stops at the invalid block. -/
def unwindLoop (invalidHash : H) (headBlock : B) (chain : SpeculativeChain B H T) :
    List B → SpeculativeChain B H T
  | [] => chain
  | currBlock :: older =>
    let chain := { chain with
      unappliedBlocks := older.reverse
      head := some (older.head?.getD headBlock) }
    let chain := chain.removeProposedTxes transactions currBlock
    if hash currBlock ≠ invalidHash then
      unwindLoop invalidHash headBlock
        { chain with expectedInvalidBlockHashes := insert (hash currBlock) chain.expectedInvalidBlockHashes } older
    else chain

def unwindFrom (chain : SpeculativeChain B H T) (invalidHash : H) (headBlock : B) : SpeculativeChain B H T :=
  if invalidHash ∈ chain.expectedInvalidBlockHashes then
    { chain with expectedInvalidBlockHashes := chain.expectedInvalidBlockHashes.erase invalidHash }
  else unwindLoop hash transactions invalidHash headBlock chain chain.unappliedBlocks.reverse

/-- `WithoutProposedTxes`: each account's transactions not proposed yet, accounts left
with none dropped; `txHash` is a transaction's `Hash()`. -/
def withoutProposedTxes {A X : Type} [DecidableEq A] (txHash : X → T) (chain : SpeculativeChain B H T)
    (addrTxes : GoMap A (List X)) : GoMap A (List X) :=
  addrTxes.entries.foldl
    (fun newMap entry =>
      let filteredTxes := entry.2.filter fun tx => txHash tx ∉ chain.proposedTxes
      if filteredTxes.length > 0 then newMap.insert entry.1 filteredTxes else newMap)
    ∅

def apply (chain : SpeculativeChain B H T) : Op B H → SpeculativeChain B H T
  | .clear block => chain.clear block
  | .extend block => chain.extend transactions block
  | .setHead block => chain.setHead block
  | .accept acceptedBlock => chain.accept hash transactions acceptedBlock
  | .unwindFrom invalidHash headBlock => chain.unwindFrom hash transactions invalidHash headBlock

/-- The callers' side of the contract: `Extend` gets no transaction already proposed and
`SetHead` is called only while no block is outstanding. -/
def Allowed (chain : SpeculativeChain B H T) : Op B H → Prop
  | .extend block => ∀ tx ∈ transactions block, tx ∉ chain.proposedTxes
  | .setHead _ => chain.unappliedBlocks = []
  | _ => True

instance (chain : SpeculativeChain B H T) (op : Op B H) : Decidable (chain.Allowed transactions op) :=
  match op with
  | .extend block => inferInstanceAs (Decidable (∀ tx ∈ transactions block, tx ∉ chain.proposedTxes))
  | .setHead _ => decidable_of_iff (chain.unappliedBlocks.isEmpty = true) List.isEmpty_iff
  | .clear _ => isTrue trivial
  | .accept _ => isTrue trivial
  | .unwindFrom _ _ => isTrue trivial

end Methods

section Runs

variable [DecidableEq T] [DecidableEq H] (hash : B → H) (transactions : B → List T)

def runOps (chain : SpeculativeChain B H T) (ops : List (Op B H)) : SpeculativeChain B H T :=
  ops.foldl (fun chain op => chain.apply hash transactions op) chain

end Runs

section Fields

variable [DecidableEq T] {hash : B → H} {transactions : B → List T} (chain : SpeculativeChain B H T) (block : B)

@[simp] theorem removeProposedTxes_head : (chain.removeProposedTxes transactions block).head = chain.head := rfl

@[simp] theorem removeProposedTxes_unappliedBlocks :
    (chain.removeProposedTxes transactions block).unappliedBlocks = chain.unappliedBlocks := rfl

@[simp] theorem removeProposedTxes_expectedInvalidBlockHashes :
    (chain.removeProposedTxes transactions block).expectedInvalidBlockHashes = chain.expectedInvalidBlockHashes :=
  rfl

@[simp] theorem removeProposedTxes_proposedTxes :
    (chain.removeProposedTxes transactions block).proposedTxes = chain.proposedTxes \ (transactions block).toFinset :=
  GoSet.foldl_erase _ _

@[simp] theorem extend_head : (chain.extend transactions block).head = some block := rfl

@[simp] theorem extend_unappliedBlocks :
    (chain.extend transactions block).unappliedBlocks = chain.unappliedBlocks ++ [block] := rfl

@[simp] theorem extend_expectedInvalidBlockHashes :
    (chain.extend transactions block).expectedInvalidBlockHashes = chain.expectedInvalidBlockHashes := rfl

@[simp] theorem extend_proposedTxes :
    (chain.extend transactions block).proposedTxes = chain.proposedTxes ∪ (transactions block).toFinset :=
  GoSet.foldl_insert _ _

end Fields

/-- What every reachable chain satisfies: `head` is the last outstanding block, the
proposed transactions are those of the outstanding blocks, and no two outstanding blocks
share a transaction. -/
structure Inv [DecidableEq T] (transactions : B → List T) (chain : SpeculativeChain B H T) : Prop where
  headLast : chain.unappliedBlocks ≠ [] → chain.head = chain.unappliedBlocks.getLast?
  proposed : chain.proposedTxes = (chain.unappliedBlocks.flatMap transactions).toFinset
  disjoint : chain.unappliedBlocks.Pairwise fun b b' => Disjoint (transactions b).toFinset (transactions b').toFinset

section Invariant

variable [DecidableEq T] {hash : B → H} {transactions : B → List T}

/-- Taking out the transactions of one block leaves those of the others, when it shares
none with them. -/
theorem flatMap_sdiff_of_disjoint (l₁ l₂ : List B) (block : B)
    (apart : ∀ b ∈ l₁ ++ l₂, Disjoint (transactions block).toFinset (transactions b).toFinset) :
    ((l₁ ++ block :: l₂).flatMap transactions).toFinset \ (transactions block).toFinset =
      ((l₁ ++ l₂).flatMap transactions).toFinset := by
  ext tx
  simp only [Finset.mem_sdiff, List.mem_toFinset, List.mem_flatMap, List.mem_append, List.mem_cons]
  constructor
  · rintro ⟨⟨b, mem, inB⟩, notInBlock⟩
    rcases mem with before | rfl | after
    · exact ⟨b, .inl before, inB⟩
    · exact absurd inB notInBlock
    · exact ⟨b, .inr after, inB⟩
  · rintro ⟨b, mem, inB⟩
    refine ⟨⟨b, ?_, inB⟩, fun inBlock => ?_⟩
    · rcases mem with before | after
      · exact .inl before
      · exact .inr (.inr after)
    · have shared := List.mem_toFinset.mpr inBlock
      exact Finset.disjoint_left.mp (apart b (List.mem_append.mpr mem)) shared (List.mem_toFinset.mpr inB)

theorem newSpeculativeChain_inv : Inv transactions (newSpeculativeChain : SpeculativeChain B H T) where
  headLast := fun nonempty => absurd rfl nonempty
  proposed := by simp [newSpeculativeChain]
  disjoint := List.Pairwise.nil

theorem clear_inv (chain : SpeculativeChain B H T) (block : B) : Inv transactions (chain.clear block) where
  headLast := fun nonempty => absurd rfl nonempty
  proposed := by simp [clear]
  disjoint := List.Pairwise.nil

theorem Inv.extend {chain : SpeculativeChain B H T} (inv : Inv transactions chain) {block : B}
    (fresh : ∀ tx ∈ transactions block, tx ∉ chain.proposedTxes) : Inv transactions (chain.extend transactions block) where
  headLast := fun _ => by simp
  proposed := by simp [inv.proposed]
  disjoint := by
    rw [extend_unappliedBlocks, List.pairwise_append]
    refine ⟨inv.disjoint, List.pairwise_singleton _ _, fun b mem b' same => ?_⟩
    rw [List.mem_singleton.mp same, Finset.disjoint_left]
    intro tx inB inBlock
    have proposed : tx ∈ chain.proposedTxes := by
      rw [inv.proposed, List.mem_toFinset, List.mem_flatMap]
      exact ⟨b, mem, List.mem_toFinset.mp inB⟩
    exact fresh tx (List.mem_toFinset.mp inBlock) proposed

theorem Inv.setHead {chain : SpeculativeChain B H T} (inv : Inv transactions chain) {block : B}
    (empty : chain.unappliedBlocks = []) : Inv transactions (chain.setHead block) where
  headLast := fun nonempty => absurd empty nonempty
  proposed := inv.proposed
  disjoint := inv.disjoint

variable [DecidableEq H]

/-- `Accept` keeps the invariant provided blocks with one hash carry the same transactions
(the header hash commits to the transaction root): the accepted block's transactions are
then those of the oldest outstanding block. -/
theorem Inv.accept (sameTxes : ∀ b b', hash b = hash b' → transactions b = transactions b')
    {chain : SpeculativeChain B H T} (inv : Inv transactions chain) (acceptedBlock : B) :
    Inv transactions (chain.accept hash transactions acceptedBlock) := by
  unfold SpeculativeChain.accept
  split
  · rename_i empty
    exact ⟨fun nonempty => absurd empty nonempty, inv.proposed, inv.disjoint⟩
  · rename_i earliestProposed rest oldest
    split
    · rename_i expected
      have ordered := inv.disjoint
      rw [oldest, List.pairwise_cons] at ordered
      refine ⟨fun nonempty => ?_, ?_, ordered.2⟩
      · obtain ⟨next, later, rfl⟩ := List.exists_cons_of_ne_nil nonempty
        rw [removeProposedTxes_head, inv.headLast (by rw [oldest]; exact List.cons_ne_nil _ _), oldest]
        rfl
      · rw [removeProposedTxes_proposedTxes, inv.proposed, oldest, ← sameTxes _ _ expected]
        exact flatMap_sdiff_of_disjoint [] rest earliestProposed ordered.1
    · exact clear_inv _ acceptedBlock

/-- Each iteration of the unwind loop pops a block whose transactions no other
outstanding block has, so the invariant holds after every iteration. -/
theorem Inv.unwindLoop (invalidHash : H) (headBlock : B) (popping : List B) :
    ∀ {chain : SpeculativeChain B H T}, chain.unappliedBlocks = popping.reverse → Inv transactions chain →
      Inv transactions (unwindLoop hash transactions invalidHash headBlock chain popping) := by
  induction popping with
  | nil => intro chain _ inv; exact inv
  | cons currBlock older ih =>
    intro chain stored inv
    rw [List.reverse_cons] at stored
    have ordered := inv.disjoint
    rw [stored, List.pairwise_append] at ordered
    have apart : ∀ b ∈ older.reverse ++ [], Disjoint (transactions currBlock).toFinset (transactions b).toFinset :=
      fun b mem => (ordered.2.2 b (by simpa using mem) currBlock (List.mem_singleton_self _)).symm
    have popped : Inv transactions
        (({ chain with unappliedBlocks := older.reverse, head := some (older.head?.getD headBlock) } :
          SpeculativeChain B H T).removeProposedTxes transactions currBlock) := by
      refine ⟨fun nonempty => ?_, ?_, ordered.1⟩
      · cases older with
        | nil => exact absurd rfl nonempty
        | cons parent _ => simp
      · rw [removeProposedTxes_proposedTxes, inv.proposed, stored]
        simpa using flatMap_sdiff_of_disjoint older.reverse [] currBlock apart
    simp only [SimpleChain.Raft.SpeculativeChain.unwindLoop]
    split
    · exact ih rfl ⟨popped.headLast, popped.proposed, popped.disjoint⟩
    · exact popped

theorem Inv.unwindFrom {chain : SpeculativeChain B H T} (inv : Inv transactions chain) (invalidHash : H)
    (headBlock : B) : Inv transactions (chain.unwindFrom hash transactions invalidHash headBlock) := by
  unfold SpeculativeChain.unwindFrom
  split
  · exact ⟨inv.headLast, inv.proposed, inv.disjoint⟩
  · exact Inv.unwindLoop invalidHash headBlock _ (List.reverse_reverse _).symm inv

/-- The unwind loop pops the blocks after the invalid one, guarding each, then pops the
invalid block and stops. -/
theorem unwindLoop_append (invalidHash : H) (headBlock block : B) (hit : hash block = invalidHash)
    (older popped : List B) :
    ∀ (chain : SpeculativeChain B H T), (∀ b ∈ popped, hash b ≠ invalidHash) →
      unwindLoop hash transactions invalidHash headBlock chain (popped ++ block :: older) =
        { head := some (older.head?.getD headBlock)
          unappliedBlocks := older.reverse
          expectedInvalidBlockHashes := chain.expectedInvalidBlockHashes ∪ (popped.map hash).toFinset
          proposedTxes := chain.proposedTxes \ ((popped ++ [block]).flatMap transactions).toFinset } := by
  induction popped with
  | nil =>
    intro chain _
    simp [unwindLoop, hit, removeProposedTxes]
  | cons b popped ih =>
    intro chain guarded
    have notHit : hash b ≠ invalidHash := guarded b List.mem_cons_self
    simp only [List.cons_append, unwindLoop]
    rw [if_pos notHit, ih _ (fun b' mem => guarded b' (List.mem_cons_of_mem _ mem))]
    simp [Finset.union_insert, sdiff_sdiff_left]

/-- `UnwindFrom` of the hash of an outstanding block, not guarded and carried by no later
block, removes that block and the later ones, guards exactly the later ones and points
`head` at the block before it, or at `headBlock`. -/
theorem unwindFrom_of_unguarded {chain : SpeculativeChain B H T} {pre post : List B} {block : B}
    (stored : chain.unappliedBlocks = pre ++ block :: post) (unguarded : hash block ∉ chain.expectedInvalidBlockHashes)
    (lastWithHash : ∀ b ∈ post, hash b ≠ hash block) (headBlock : B) :
    chain.unwindFrom hash transactions (hash block) headBlock =
      { head := some (pre.getLast?.getD headBlock)
        unappliedBlocks := pre
        expectedInvalidBlockHashes := chain.expectedInvalidBlockHashes ∪ (post.map hash).toFinset
        proposedTxes := chain.proposedTxes \ ((block :: post).flatMap transactions).toFinset } := by
  have popping : chain.unappliedBlocks.reverse = post.reverse ++ block :: pre.reverse := by
    rw [stored, List.reverse_append, List.reverse_cons, List.append_assoc, List.singleton_append]
  unfold SpeculativeChain.unwindFrom
  rw [if_neg unguarded, popping,
    unwindLoop_append (hash block) headBlock block rfl pre.reverse post.reverse chain (by simpa using lastWithHash)]
  have sameTxes : ((post.reverse ++ [block]).flatMap transactions).toFinset =
      ((block :: post).flatMap transactions).toFinset := by
    ext tx
    simp only [List.mem_toFinset, List.mem_flatMap, List.mem_append, List.mem_reverse, List.mem_cons,
      List.not_mem_nil, or_false]
    constructor <;> rintro ⟨b, mem, inB⟩ <;> exact ⟨b, mem.symm, inB⟩
  rw [sameTxes, List.head?_reverse, List.reverse_reverse, List.map_reverse, List.toFinset_reverse]

theorem Inv.apply (sameTxes : ∀ b b', hash b = hash b' → transactions b = transactions b')
    {chain : SpeculativeChain B H T} {op : Op B H} (allowed : chain.Allowed transactions op)
    (inv : Inv transactions chain) : Inv transactions (chain.apply hash transactions op) := by
  cases op with
  | clear block => exact clear_inv chain block
  | extend block => exact inv.extend allowed
  | setHead block => exact inv.setHead allowed
  | accept acceptedBlock => exact inv.accept sameTxes acceptedBlock
  | unwindFrom invalidHash headBlock => exact inv.unwindFrom invalidHash headBlock

theorem runOps_inv (sameTxes : ∀ b b', hash b = hash b' → transactions b = transactions b')
    (ops : List (Op B H)) (allowed : ForallAlong (fun chain op => chain.apply hash transactions op)
      (fun chain op => chain.Allowed transactions op) newSpeculativeChain ops) :
    Inv transactions (runOps hash transactions newSpeculativeChain ops) :=
  foldl_invariant_along (Inv transactions) (fun _ _ allowed inv => inv.apply sameTxes allowed) ops _ allowed
    newSpeculativeChain_inv

end Invariant

/-! ## The speculative chain over every run -/

/-- Over every sequence of method calls that keeps the callers' side of the contract, `head`
is the last outstanding block while there is one, `proposedTxes` holds exactly the
transactions of the outstanding blocks, and `UnwindFrom` of an outstanding block's hash
that is not guarded and carried by no later block removes exactly that block and the later
ones, guards exactly the later ones and moves `head` to the block before it (or to
`headBlock`). -/
theorem speculativeChain_invariant [DecidableEq T] [DecidableEq H] (hash : B → H) (transactions : B → List T)
    (sameTxes : ∀ b b', hash b = hash b' → transactions b = transactions b') (ops : List (Op B H))
    (allowed : ForallAlong (fun chain op => chain.apply hash transactions op)
      (fun chain op => chain.Allowed transactions op) newSpeculativeChain ops)
    (chain : SpeculativeChain B H T) (reached : runOps hash transactions newSpeculativeChain ops = chain) :
    (chain.unappliedBlocks ≠ [] → chain.head = chain.unappliedBlocks.getLast?) ∧
      chain.proposedTxes = (chain.unappliedBlocks.flatMap transactions).toFinset ∧
      ∀ (pre post : List B) (block headBlock : B), chain.unappliedBlocks = pre ++ block :: post →
        hash block ∉ chain.expectedInvalidBlockHashes → (∀ b ∈ post, hash b ≠ hash block) →
          chain.unwindFrom hash transactions (hash block) headBlock =
            { head := some (pre.getLast?.getD headBlock)
              unappliedBlocks := pre
              expectedInvalidBlockHashes := chain.expectedInvalidBlockHashes ∪ (post.map hash).toFinset
              proposedTxes := chain.proposedTxes \ ((block :: post).flatMap transactions).toFinset } := by
  have inv := runOps_inv sameTxes ops allowed
  rw [reached] at inv
  exact ⟨inv.headLast, inv.proposed,
    fun _ _ _ headBlock stored unguarded lastWithHash => unwindFrom_of_unguarded stored unguarded lastWithHash headBlock⟩

theorem speculativeChain_invariant_after_extend_accept :
    (∀ b b' : Nat, id b = id b' → [b] = [b']) ∧
      ForallAlong (fun chain op => chain.apply id (fun b => [b]) op) (fun chain op => chain.Allowed (fun b => [b]) op)
        (newSpeculativeChain : SpeculativeChain Nat Nat Nat) [.extend 1, .extend 2, .accept 1] ∧
      runOps id (fun b => [b]) newSpeculativeChain [.extend 1, .extend 2, .accept 1] = ⟨some 2, [2], ∅, {2}⟩ ∧
      ((⟨some 2, [2], ∅, {2}⟩ : SpeculativeChain Nat Nat Nat).unappliedBlocks ≠ [] →
          (⟨some 2, [2], ∅, {2}⟩ : SpeculativeChain Nat Nat Nat).head = [2].getLast?) ∧
        (⟨some 2, [2], ∅, {2}⟩ : SpeculativeChain Nat Nat Nat).proposedTxes = ([2].flatMap fun b => [b]).toFinset ∧
        ∀ (pre post : List Nat) (block headBlock : Nat), [2] = pre ++ block :: post →
          id block ∉ (∅ : Finset Nat) → (∀ b ∈ post, id b ≠ id block) →
            (⟨some 2, [2], ∅, {2}⟩ : SpeculativeChain Nat Nat Nat).unwindFrom id (fun b => [b]) (id block) headBlock =
              { head := some (pre.getLast?.getD headBlock)
                unappliedBlocks := pre
                expectedInvalidBlockHashes := ∅ ∪ (post.map id).toFinset
                proposedTxes := {2} \ ((block :: post).flatMap fun b => [b]).toFinset } := by
  have sameTxes : ∀ b b' : Nat, id b = id b' → [b] = [b'] := fun b b' same => by rw [show b = b' from same]
  have allowed : ForallAlong (fun chain op => chain.apply id (fun b => [b]) op)
      (fun chain op => chain.Allowed (fun b => [b]) op) (newSpeculativeChain : SpeculativeChain Nat Nat Nat)
      [.extend 1, .extend 2, .accept 1] := by decide
  have reached : runOps id (fun b => [b]) newSpeculativeChain [.extend 1, .extend 2, .accept 1] =
      (⟨some 2, [2], ∅, {2}⟩ : SpeculativeChain Nat Nat Nat) := by decide
  exact ⟨sameTxes, allowed, reached, speculativeChain_invariant id (fun b => [b]) sameTxes _ allowed _ reached⟩

/-- Once a block is minted again after an unwind has guarded its hash, `UnwindFrom` of that
hash only takes it out of the guard: the block stays outstanding. -/
theorem unwindFrom_guarded :
    ForallAlong (fun chain op => chain.apply id (fun b => [b]) op) (fun chain op => chain.Allowed (fun b => [b]) op)
        (newSpeculativeChain : SpeculativeChain Nat Nat Nat) [.extend 1, .extend 2, .unwindFrom 1 0, .extend 2] ∧
      runOps id (fun b => [b]) newSpeculativeChain [.extend 1, .extend 2, .unwindFrom 1 0, .extend 2] =
        ⟨some 2, [2], {2}, {2}⟩ ∧
      (⟨some 2, [2], {2}, {2}⟩ : SpeculativeChain Nat Nat Nat).unwindFrom id (fun b => [b]) 2 0 =
        ⟨some 2, [2], ∅, {2}⟩ := by
  decide

/-! ## Fresh block hashes

When each minted block's hash is neither guarded nor that of an outstanding block, no
outstanding block is ever guarded and no two share a hash, so `UnwindFrom` of any
outstanding block's hash does what its comment says. -/

/-- The stronger contract for `Extend`: the block's hash is new. -/
def Fresh (hash : B → H) (chain : SpeculativeChain B H T) : Op B H → Prop
  | .extend block => hash block ∉ chain.expectedInvalidBlockHashes ∧ hash block ∉ chain.unappliedBlocks.map hash
  | _ => True

structure FreshInv (hash : B → H) (chain : SpeculativeChain B H T) : Prop where
  unguarded : ∀ b ∈ chain.unappliedBlocks, hash b ∉ chain.expectedInvalidBlockHashes
  distinct : (chain.unappliedBlocks.map hash).Nodup

section Fresh

variable {hash : B → H} {transactions : B → List T}

theorem clear_freshInv (chain : SpeculativeChain B H T) (block : B) : FreshInv hash (chain.clear block) :=
  ⟨fun _ mem => absurd mem List.not_mem_nil, List.nodup_nil⟩

variable [DecidableEq T]

theorem FreshInv.extend {chain : SpeculativeChain B H T} (inv : FreshInv hash chain) {block : B}
    (unguardedHash : hash block ∉ chain.expectedInvalidBlockHashes) (newHash : hash block ∉ chain.unappliedBlocks.map hash) :
    FreshInv hash (chain.extend transactions block) := by
  refine ⟨fun b mem => ?_, ?_⟩
  · rcases List.mem_append.mp mem with old | added
    · exact inv.unguarded b old
    · rw [List.mem_singleton.mp added]
      exact unguardedHash
  · rw [extend_unappliedBlocks, List.map_append, List.nodup_append]
    refine ⟨inv.distinct, List.nodup_singleton _, fun a mem b added same => ?_⟩
    rw [List.mem_singleton.mp added] at same
    exact newHash (same ▸ mem)

variable [DecidableEq H]

theorem FreshInv.unwindLoop (invalidHash : H) (headBlock : B) (popping : List B) :
    ∀ {chain : SpeculativeChain B H T}, chain.unappliedBlocks = popping.reverse → FreshInv hash chain →
      FreshInv hash (unwindLoop hash transactions invalidHash headBlock chain popping) := by
  induction popping with
  | nil => intro chain _ inv; exact inv
  | cons currBlock older ih =>
    intro chain stored inv
    rw [List.reverse_cons] at stored
    have distinct := inv.distinct
    rw [stored, List.map_append, List.nodup_append] at distinct
    have kept : ∀ b ∈ older.reverse, b ∈ chain.unappliedBlocks := fun b mem => by
      rw [stored]
      exact List.mem_append_left _ mem
    simp only [SimpleChain.Raft.SpeculativeChain.unwindLoop]
    split
    · refine ih rfl ⟨fun b mem guarded => ?_, distinct.1⟩
      rcases Finset.mem_insert.mp guarded with same | old
      · exact distinct.2.2 (hash b) (List.mem_map_of_mem mem) (hash currBlock) (List.mem_singleton_self _) same
      · exact inv.unguarded b (kept b mem) old
    · exact ⟨fun b mem => inv.unguarded b (kept b mem), distinct.1⟩

theorem FreshInv.accept {chain : SpeculativeChain B H T} (inv : FreshInv hash chain) (acceptedBlock : B) :
    FreshInv hash (chain.accept hash transactions acceptedBlock) := by
  unfold SpeculativeChain.accept
  split
  · exact ⟨inv.unguarded, inv.distinct⟩
  · rename_i earliestProposed rest oldest
    split
    · have distinct := inv.distinct
      rw [oldest, List.map_cons] at distinct
      refine ⟨fun b mem => inv.unguarded b ?_, distinct.of_cons⟩
      rw [oldest]
      exact List.mem_cons_of_mem _ mem
    · exact clear_freshInv _ acceptedBlock

theorem FreshInv.unwindFrom {chain : SpeculativeChain B H T} (inv : FreshInv hash chain) (invalidHash : H)
    (headBlock : B) : FreshInv hash (chain.unwindFrom hash transactions invalidHash headBlock) := by
  unfold SpeculativeChain.unwindFrom
  split
  · exact ⟨fun b mem erased => inv.unguarded b mem (Finset.mem_of_mem_erase erased), inv.distinct⟩
  · exact FreshInv.unwindLoop invalidHash headBlock _ (List.reverse_reverse _).symm inv

theorem FreshInv.apply {chain : SpeculativeChain B H T} {op : Op B H} (fresh : chain.Fresh hash op)
    (inv : FreshInv hash chain) : FreshInv hash (chain.apply hash transactions op) := by
  cases op with
  | clear block => exact clear_freshInv chain block
  | extend block => exact inv.extend fresh.1 fresh.2
  | setHead block => exact ⟨inv.unguarded, inv.distinct⟩
  | accept acceptedBlock => exact inv.accept acceptedBlock
  | unwindFrom invalidHash headBlock => exact inv.unwindFrom invalidHash headBlock

/-- Over every run in which each minted block's hash is new, `UnwindFrom` of any outstanding
block's hash removes exactly that block and the later ones, guards exactly the later ones
and moves `head` to the block before it (or to `headBlock`). -/
theorem unwindFrom_of_fresh (ops : List (Op B H))
    (fresh : ForallAlong (fun chain op => chain.apply hash transactions op) (fun chain op => chain.Fresh hash op)
      newSpeculativeChain ops)
    {pre post : List B} {block : B}
    (stored : (runOps hash transactions newSpeculativeChain ops).unappliedBlocks = pre ++ block :: post)
    (headBlock : B) :
    (runOps hash transactions newSpeculativeChain ops).unwindFrom hash transactions (hash block) headBlock =
      { head := some (pre.getLast?.getD headBlock)
        unappliedBlocks := pre
        expectedInvalidBlockHashes :=
          (runOps hash transactions newSpeculativeChain ops).expectedInvalidBlockHashes ∪ (post.map hash).toFinset
        proposedTxes :=
          (runOps hash transactions newSpeculativeChain ops).proposedTxes \
            ((block :: post).flatMap transactions).toFinset } := by
  have inv : FreshInv hash (runOps hash transactions newSpeculativeChain ops) :=
    foldl_invariant_along (FreshInv hash) (fun _ _ fresh inv => inv.apply fresh) ops _ fresh
      ⟨fun _ mem => absurd mem List.not_mem_nil, List.nodup_nil⟩
  have outstanding : block ∈ (runOps hash transactions newSpeculativeChain ops).unappliedBlocks := by
    rw [stored]
    exact List.mem_append_right _ List.mem_cons_self
  have distinct := inv.distinct
  rw [stored, List.map_append, List.nodup_append, List.map_cons, List.nodup_cons] at distinct
  have lastWithHash : ∀ b ∈ post, hash b ≠ hash block :=
    fun b mem same => distinct.2.1.1 (same ▸ List.mem_map_of_mem mem)
  exact unwindFrom_of_unguarded stored (inv.unguarded block outstanding) lastWithHash headBlock

end Fresh

end SpeculativeChain

end SimpleChain.Raft
