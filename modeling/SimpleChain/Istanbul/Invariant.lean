import Mathlib
import SimpleChain.Istanbul.Network
import SimpleChain.Lib.Quorum

/-! # What one validator keeps true

Agreement rests on one property of each honest validator: at every height it
vouches for at most one block that executes, by the COMMITs it broadcasts and the
blocks it hands to `backend.Commit`, and while it is at that height its hash lock
holds that block.  A lock is only ever taken from the PRE-PREPARE the validator
accepted, a round change keeps it unless the backend reports the block bad, and a
block is reported bad only when its insertion fails.

`Node.Inv` states this with the bookkeeping it needs, and every handler of the
core keeps it.  `voted j s` says that validator `j` may be counted for COMMIT `s`;
`Istanbul.Agreement` reads it as "`j` is Byzantine or broadcast `s`", and a quorum
of such votes stands behind every call of `backend.Commit`. -/
set_option autoImplicit false

namespace SimpleChain.Istanbul

variable {n : Nat} (e : Env n) (genesis : Hash)

namespace Node

def SentCommit (node : Node n) (h : Nat) (X : Hash) : Prop :=
  ∃ m ∈ node.outbox, ∃ r, m.body = .commit ⟨⟨r, h⟩, X⟩

/-- `node` vouched for block `X` at height `h`. -/
def Endorses (node : Node n) (h : Nat) (X : Hash) : Prop :=
  node.SentCommit h X ∨ (h, X) ∈ node.committed

/-- `node` keeps the invariant, counting votes by `voted`, and has broadcast at
least `sent`. -/
structure Inv (voted : Fin n → Subject → Prop) (sent : List (Message n)) (node : Node n) :
    Prop where
  outbox_sent : ∀ m ∈ sent, m ∈ node.outbox
  outbox_sane : ∀ m ∈ node.outbox, ∀ pp, m.body = .preprepare pp →
    e.info.number pp.proposal = pp.view.sequence
  preprepare_number : ∀ pp, node.core.current.preprepare = some pp →
    e.info.number pp.proposal = node.core.current.sequence
  lock_proposal : ∀ L, node.core.current.lockedHash = some L → e.info.valid L = true →
    node.core.current.proposal = some L
  accept_commits : node.core.state = .acceptRequest → node.core.current.commits = ∅
  bad_invalid : ∀ H ∈ node.chain.bad, e.info.valid H = false
  blocks_committed : ∀ Z ∈ node.chain.blocks, Z = genesis ∨ (e.info.number Z, Z) ∈ node.committed
  genesis_below : e.info.number genesis < node.core.current.sequence
  committed_above : ∀ h X, (h, X) ∈ node.committed → e.info.number genesis < h
  endorse_locked : ∀ h X, e.info.number genesis < h → node.Endorses h X → e.info.valid X = true →
    h ≤ node.core.current.sequence ∧
      (h = node.core.current.sequence → node.core.current.lockedHash = some X)
  endorse_unique : ∀ h X Y, e.info.number genesis < h → node.Endorses h X → node.Endorses h Y →
    e.info.valid X = true → e.info.valid Y = true → X = Y
  commits_voted : ∀ j ∈ node.core.current.commits,
    ∃ X, node.core.current.proposal = some X ∧ voted j ⟨node.currentView, X⟩
  committed_quorum : ∀ h X, (h, X) ∈ node.committed →
    Quorum.Certified (confirmations n) fun j => ∃ r, voted j ⟨⟨r, h⟩, X⟩

variable {e genesis} {voted : Fin n → Subject → Prop} {sent : List (Message n)}

theorem endorses_broadcast {node : Node n} {body : MessageBody} {h : Nat} {X : Hash} :
    (node.broadcast body).Endorses h X ↔ node.Endorses h X ∨ ∃ r, body = .commit ⟨⟨r, h⟩, X⟩ := by
  unfold Endorses SentCommit broadcast
  simp only [List.mem_append, List.mem_singleton]
  constructor
  · rintro (⟨m, old | rfl, r, isCommit⟩ | committed)
    · exact Or.inl (Or.inl ⟨m, old, r, isCommit⟩)
    · exact Or.inr ⟨r, isCommit⟩
    · exact Or.inl (Or.inr committed)
  · rintro ((⟨m, old, r, isCommit⟩ | committed) | ⟨r, rfl⟩)
    · exact Or.inl ⟨m, Or.inl old, r, isCommit⟩
    · exact Or.inr committed
    · exact Or.inl ⟨_, Or.inr rfl, r, rfl⟩

/-- Both endorsement fields survive new endorsements of the locked block at the
current height, when the height and the lock stay. -/
theorem Inv.endorse_of_grow {node : Node n} (inv : node.Inv e genesis voted sent) (node' : Node n)
    (sequence_eq : node'.core.current.sequence = node.core.current.sequence)
    (lock_eq : node'.core.current.lockedHash = node.core.current.lockedHash)
    (grow : ∀ h X, e.info.number genesis < h → node'.Endorses h X →
      node.Endorses h X ∨
        (h = node.core.current.sequence ∧ node.core.current.lockedHash = some X)) :
    (∀ h X, e.info.number genesis < h → node'.Endorses h X → e.info.valid X = true →
      h ≤ node'.core.current.sequence ∧
        (h = node'.core.current.sequence → node'.core.current.lockedHash = some X)) ∧
    (∀ h X Y, e.info.number genesis < h → node'.Endorses h X → node'.Endorses h Y →
      e.info.valid X = true → e.info.valid Y = true → X = Y) := by
  rw [sequence_eq, lock_eq]
  -- at the current height every valid endorsement, old or new, is the lock
  have atLock : ∀ h X, e.info.number genesis < h → node'.Endorses h X → e.info.valid X = true →
      h ≤ node.core.current.sequence ∧
        (h = node.core.current.sequence → node.core.current.lockedHash = some X) := by
    intro h X above endorses valid
    rcases grow h X above endorses with old | ⟨current, locked⟩
    · exact inv.endorse_locked h X above old valid
    · exact ⟨current.le, fun _ => locked⟩
  refine ⟨atLock, fun h X Y above endorsesX endorsesY validX validY => ?_⟩
  by_cases current : h = node.core.current.sequence
  · have lockX := (atLock h X above endorsesX validX).2 current
    have lockY := (atLock h Y above endorsesY validY).2 current
    exact Option.some.inj (lockX.symm.trans lockY)
  · have oldX := (grow h X above endorsesX).resolve_right fun now => current now.1
    have oldY := (grow h Y above endorsesY).resolve_right fun now => current now.1
    exact inv.endorse_unique h X Y above oldX oldY validX validY

theorem Inv.broadcast {node : Node n} (inv : node.Inv e genesis voted sent) (body : MessageBody)
    (sane : ∀ pp, body = .preprepare pp → e.info.number pp.proposal = pp.view.sequence)
    (vouched : ∀ r h X, body = .commit ⟨⟨r, h⟩, X⟩ → e.info.number genesis < h →
      node.Endorses h X ∨
        (h = node.core.current.sequence ∧ node.core.current.lockedHash = some X)) :
    (node.broadcast body).Inv e genesis voted sent := by
  have endorse := inv.endorse_of_grow (node.broadcast body) rfl rfl fun h X above endorses => by
    rcases endorses_broadcast.mp endorses with old | ⟨r, rfl⟩
    · exact Or.inl old
    · exact vouched r h X rfl above
  refine { inv with
    outbox_sent := fun m member => List.mem_append_left _ (inv.outbox_sent m member)
    outbox_sane := ?_, endorse_locked := endorse.1, endorse_unique := endorse.2 }
  intro m member pp isPreprepare
  rcases List.mem_append.mp member with old | new
  · exact inv.outbox_sane m old pp isPreprepare
  · rw [List.mem_singleton.mp new] at isPreprepare
    exact sane pp isPreprepare

theorem Inv.sendPrepare {node : Node n} (inv : node.Inv e genesis voted sent) :
    node.sendPrepare.Inv e genesis voted sent := by
  unfold Node.sendPrepare
  split
  · exact inv.broadcast _ (fun _ isPreprepare => nomatch isPreprepare)
      fun _ _ _ isCommit => nomatch isCommit
  · exact inv

theorem Inv.sendCommit {node : Node n} (inv : node.Inv e genesis voted sent)
    (locked : ∀ X, node.core.current.proposal = some X → node.core.current.lockedHash = some X) :
    node.sendCommit.Inv e genesis voted sent := by
  unfold Node.sendCommit
  split
  · next sub isSubject =>
    refine inv.broadcast _ (fun _ isPreprepare => nomatch isPreprepare)
      fun r h X isCommit _ => Or.inr ?_
    -- the subject is the current view and the proposal
    obtain ⟨pp, accepted, rfl⟩ := Option.map_eq_some_iff.mp isSubject
    cases isCommit
    exact ⟨rfl, locked _ (by rw [RoundState.proposal, accepted]; rfl)⟩
  · exact inv

theorem Inv.sendCommitForOldBlock {node : Node n} (inv : node.Inv e genesis voted sent) (view : View)
    (digest : Hash) (stored : digest ∈ node.chain.blocks)
    (height : e.info.number digest = view.sequence) :
    (node.sendCommitForOldBlock view digest).Inv e genesis voted sent := by
  refine inv.broadcast _ (fun _ isPreprepare => nomatch isPreprepare)
    fun r h X isCommit above => Or.inl ?_
  cases isCommit
  -- an old block we hold is the genesis, or one we committed at its own height
  rcases inv.blocks_committed _ stored with isGenesis | committed
  · rw [isGenesis] at height
    dsimp only at height
    omega
  · rw [height] at committed
    exact Or.inr committed

theorem Inv.sendPreprepare {node : Node n} (inv : node.Inv e genesis voted sent) (request : Hash) :
    (node.sendPreprepare e request).Inv e genesis voted sent := by
  unfold Node.sendPreprepare
  split
  · next proposes =>
    refine inv.broadcast _ (fun pp isPreprepare => ?_) fun _ _ _ isCommit => nomatch isCommit
    cases isPreprepare
    exact proposes.1.symm
  · exact inv

theorem Inv.setState {node : Node n} (inv : node.Inv e genesis voted sent) (state : State)
    (empty : state = .acceptRequest → node.core.current.commits = ∅) :
    (node.setState state).Inv e genesis voted sent :=
  { inv with accept_commits := empty }

/-- A valid locked block is never reported bad, so the lock holds. -/
theorem Inv.isHashLocked_of_valid {node : Node n} (inv : node.Inv e genesis voted sent) {L : Hash}
    (locked : node.core.current.lockedHash = some L) (valid : e.info.valid L = true) :
    node.isHashLocked = true := by
  unfold Node.isHashLocked RoundState.isHashLocked
  rw [locked, Bool.not_eq_true']
  cases reported : node.chain.hasBadProposal L with
  | false => rfl
  | true =>
      have invalid := inv.bad_invalid L (List.contains_iff_mem.mp reported)
      rw [valid] at invalid
      cases invalid

theorem Inv.lockHash {node : Node n} (inv : node.Inv e genesis voted sent) :
    node.lockHash.Inv e genesis voted sent := by
  unfold Node.lockHash RoundState.lockHash
  split
  · next pp accepted =>
    refine { inv with lock_proposal := ?_, endorse_locked := ?_ }
    · intro L locked _
      cases locked
      show node.core.current.preprepare.map (·.proposal) = _
      rw [accepted]
      rfl
    · -- a valid block vouched for at this height is the lock, hence the proposal
      intro h X above endorses valid
      have old := inv.endorse_locked h X above endorses valid
      refine ⟨old.1, fun current => ?_⟩
      have proposed := inv.lock_proposal X (old.2 current) valid
      rw [RoundState.proposal, accepted] at proposed
      exact proposed
  · exact inv

theorem lockHash_locked (node : Node n) :
    ∀ X, node.lockHash.core.current.proposal = some X →
      node.lockHash.core.current.lockedHash = some X := by
  intro X proposed
  unfold Node.lockHash RoundState.lockHash at *
  split at *
  · next pp accepted =>
    show some pp.proposal = some X
    rw [← proposed]
    show some pp.proposal = node.core.current.preprepare.map (·.proposal)
    rw [accepted]
    rfl
  · next absent =>
    have unproposed : node.core.current.proposal = some X := proposed
    rw [RoundState.proposal, absent] at unproposed
    cases unproposed

theorem Inv.acceptPreprepare {node : Node n} (inv : node.Inv e genesis voted sent) (pp : Preprepare)
    (height : e.info.number pp.proposal = node.core.current.sequence)
    (accepting : node.core.state = .acceptRequest)
    (keepsLock : ∀ L, node.core.current.lockedHash = some L → e.info.valid L = true →
      pp.proposal = L) :
    (node.acceptPreprepare pp).Inv e genesis voted sent := by
  have empty := inv.accept_commits accepting
  refine { inv with preprepare_number := ?_, lock_proposal := ?_, commits_voted := ?_ }
  · intro pp' accepted
    cases accepted
    exact height
  · intro L locked valid
    show some pp.proposal = some L
    rw [keepsLock L locked valid]
  · intro j member
    have : j ∈ node.core.current.commits := member
    rw [empty] at this
    cases this

theorem Inv.acceptPrepare {node : Node n} (inv : node.Inv e genesis voted sent) (src : Fin n) :
    (node.acceptPrepare src).Inv e genesis voted sent :=
  { inv with }

theorem Inv.acceptCommit {node : Node n} (inv : node.Inv e genesis voted sent) (src : Fin n)
    (busy : node.core.state ≠ .acceptRequest)
    (vote : ∃ X, node.core.current.proposal = some X ∧ voted src ⟨node.currentView, X⟩) :
    (node.acceptCommit src).Inv e genesis voted sent := by
  refine { inv with accept_commits := fun accepting => absurd accepting busy, commits_voted := ?_ }
  intro j member
  rcases Finset.mem_insert.mp member with rfl | old
  · exact vote
  · exact inv.commits_voted j old

/-- A round change at the same sequence keeps a valid lock, since the backend never
reports a valid block bad. -/
theorem Inv.updateRoundState_roundChange {node : Node n} (inv : node.Inv e genesis voted sent)
    (view : View) (same : view.sequence = node.core.current.sequence) :
    (node.updateRoundState view true).Inv e genesis voted sent := by
  unfold Node.updateRoundState
  dsimp only
  rw [if_pos rfl]
  -- the height stays, so the old endorsements keep their place below and at it
  have below := inv.genesis_below
  rw [← same] at below
  have endorsed : ∀ h X, e.info.number genesis < h → node.Endorses h X → e.info.valid X = true →
      h ≤ view.sequence ∧ (h = view.sequence → node.core.current.lockedHash = some X) := by
    rw [same]
    exact inv.endorse_locked
  by_cases locked : node.isHashLocked = true
  · rw [if_pos locked]
    exact { inv with
      preprepare_number := fun pp accepted => (inv.preprepare_number pp accepted).trans same.symm
      accept_commits := fun _ => rfl
      genesis_below := below
      endorse_locked := endorsed
      commits_voted := fun j member => nomatch member }
  · rw [if_neg locked]
    refine { inv with
      preprepare_number := fun pp accepted => nomatch accepted
      lock_proposal := fun L locked => nomatch locked
      accept_commits := fun _ => rfl
      genesis_below := below
      endorse_locked := fun h X above endorses valid => ⟨(endorsed h X above endorses valid).1, ?_⟩
      commits_voted := fun j member => nomatch member }
    -- a valid block vouched for at this height would have kept the lock
    intro current
    exact absurd (inv.isHashLocked_of_valid ((endorsed h X above endorses valid).2 current) valid)
      locked

theorem Inv.updateRoundState_newSequence {node : Node n} (inv : node.Inv e genesis voted sent)
    (view : View) (later : node.core.current.sequence < view.sequence) :
    (node.updateRoundState view false).Inv e genesis voted sent := by
  unfold Node.updateRoundState
  dsimp only
  rw [if_neg Bool.false_ne_true]
  have below := inv.genesis_below
  refine { inv with
    preprepare_number := fun pp accepted => nomatch accepted
    lock_proposal := fun L locked => nomatch locked
    accept_commits := fun _ => rfl
    genesis_below := by show _ < view.sequence; omega
    endorse_locked := ?_
    commits_voted := fun j member => nomatch member }
  -- everything vouched for lies at or below the old sequence
  intro h X above endorses valid
  have old := (inv.endorse_locked h X above endorses valid).1
  exact ⟨by show h ≤ view.sequence; omega, fun current => by
    have : h = view.sequence := current
    omega⟩

theorem Inv.catchUpRound {node : Node n} (inv : node.Inv e genesis voted sent) (view : View)
    (same : view.sequence = node.core.current.sequence) :
    (node.catchUpRound view).Inv e genesis voted sent := by
  unfold Node.catchUpRound
  -- the waiting flag and the round-change set lie outside the invariant
  have waiting : ({ node with core := { node.core with waitingForRoundChange := true } } :
      Node n).Inv e genesis voted sent := { inv with }
  exact { waiting.updateRoundState_roundChange view same with }

theorem Inv.sendRoundChange {node : Node n} (inv : node.Inv e genesis voted sent) (round : Nat) :
    (node.sendRoundChange round).Inv e genesis voted sent := by
  unfold Node.sendRoundChange
  dsimp only
  split
  · exact inv
  · exact (inv.catchUpRound _ rfl).broadcast _ (fun _ isPreprepare => nomatch isPreprepare)
      fun _ _ _ isCommit => nomatch isCommit

theorem Inv.sendNextRoundChange {node : Node n} (inv : node.Inv e genesis voted sent) :
    node.sendNextRoundChange.Inv e genesis voted sent :=
  inv.sendRoundChange _

/-- The source moves to a new sequence only past a block at or above the current one. -/
theorem newRoundKind_false [NeZero n] {node : Node n} {round : Nat}
    (kind : node.newRoundKind e round = some false) :
    node.core.current.sequence ≤ e.info.number (node.chain.lastProposal e.info).1 := by
  unfold Node.newRoundKind at kind
  dsimp only at kind
  split at kind
  · next caughtUp => exact caughtUp
  · split at kind
    · split at kind
      · cases kind
      · split at kind <;> cases kind
    · cases kind

theorem updateRoundState_commits (node : Node n) (view : View) (roundChange : Bool) :
    (node.updateRoundState view roundChange).core.current.commits = ∅ := by
  unfold Node.updateRoundState
  dsimp only
  split
  · split <;> rfl
  · rfl

/-- The new round's proposer, the cleared waiting flag and AcceptRequest. -/
theorem Inv.start {node : Node n} (inv : node.Inv e genesis voted sent) (proposer : Fin n)
    (empty : node.core.current.commits = ∅) :
    ({ node with core := { node.core with
        proposer, waitingForRoundChange := false, state := .acceptRequest } } : Node n).Inv
      e genesis voted sent :=
  { inv with accept_commits := fun _ => empty }

theorem Chain.mem_insertBlock_bad {info : BlockInfo n} {c : Chain} {X H : Hash}
    (member : H ∈ (c.insertBlock info X).bad) : H ∈ c.bad ∨ (H = X ∧ info.valid X = false) := by
  unfold Chain.insertBlock at member
  split at member
  · exact Or.inl member
  · split at member
    · exact Or.inl member
    · next invalid =>
      rcases List.mem_append.mp member with old | new
      · exact Or.inl old
      · exact Or.inr ⟨List.mem_singleton.mp new, Bool.eq_false_iff.mpr invalid⟩

theorem Chain.mem_insertBlock_blocks {info : BlockInfo n} {c : Chain} {X Z : Hash}
    (member : Z ∈ (c.insertBlock info X).blocks) : Z ∈ c.blocks ∨ (Z = X ∧ info.valid X = true) := by
  unfold Chain.insertBlock at member
  split at member
  · exact Or.inl member
  · split at member
    · next valid =>
      rcases List.mem_append.mp member with old | new
      · exact Or.inl old
      · exact Or.inr ⟨List.mem_singleton.mp new, valid⟩
    · exact Or.inl member

/-- Committing the locked proposal on a quorum of COMMITs keeps the invariant: the
call vouches for the lock, and the quorum stands behind it. -/
theorem Inv.commit {node : Node n} (inv : node.Inv e genesis voted sent)
    (locked : ∀ X, node.core.current.proposal = some X → node.core.current.lockedHash = some X)
    (quorum : confirmations n ≤ node.core.current.commits.card) :
    (node.commit e).Inv e genesis voted sent := by
  have committing := inv.setState .committed fun busy => nomatch busy
  unfold Node.commit
  dsimp only
  split
  · exact committing
  · next X proposed =>
    replace proposed : node.core.current.proposal = some X := proposed
    have height : e.info.number X = node.core.current.sequence := by
      obtain ⟨pp, accepted, rfl⟩ := Option.map_eq_some_iff.mp proposed
      exact inv.preprepare_number pp accepted
    have lockX : node.core.current.lockedHash = some X := locked X proposed
    have above := inv.genesis_below
    rw [Chain.commit]
    dsimp only
    have endorse := inv.endorse_of_grow
      { node.setState .committed with
        committed := node.committed ++ [(node.core.current.sequence, X)]
        chain := node.chain.insertBlock e.info X } rfl rfl fun h Y _ endorses => by
      rcases endorses with sent | committed
      · exact Or.inl (Or.inl sent)
      · rcases List.mem_append.mp committed with old | new
        · exact Or.inl (Or.inr old)
        · cases List.mem_singleton.mp new
          exact Or.inr ⟨rfl, lockX⟩
    refine { committing with
      bad_invalid := fun H member => ?_
      blocks_committed := fun Z member => ?_
      committed_above := fun h Y member => ?_
      endorse_locked := endorse.1
      endorse_unique := endorse.2
      committed_quorum := fun h Y member => ?_ }
    · rcases Chain.mem_insertBlock_bad member with old | ⟨rfl, invalid⟩
      · exact inv.bad_invalid H old
      · exact invalid
    · rcases Chain.mem_insertBlock_blocks member with old | ⟨rfl, _⟩
      · rcases inv.blocks_committed Z old with isGenesis | committed
        · exact Or.inl isGenesis
        · exact Or.inr (List.mem_append_left _ committed)
      · rw [height]
        exact Or.inr (List.mem_append_right _ (List.mem_singleton_self _))
    · rcases List.mem_append.mp member with old | new
      · exact inv.committed_above h Y old
      · cases List.mem_singleton.mp new
        exact above
    · rcases List.mem_append.mp member with old | new
      · exact inv.committed_quorum h Y old
      · -- the COMMITs counted in this round all name the current view and the proposal
        cases List.mem_singleton.mp new
        refine ⟨node.core.current.commits, quorum, fun j member => ?_⟩
        obtain ⟨Y, proposedY, vote⟩ := inv.commits_voted j member
        rw [proposed] at proposedY
        cases proposedY
        exact ⟨node.core.current.round, vote⟩

theorem lockHash_commits (node : Node n) :
    node.lockHash.core.current.commits = node.core.current.commits := by
  unfold Node.lockHash RoundState.lockHash
  split <;> rfl

theorem View.eq_of_cmp {v y : View} (notAfter : v.cmp y ≠ .gt) (notBefore : v.cmp y ≠ .lt) :
    v = y := by
  unfold View.cmp at notAfter notBefore
  by_cases sameSequence : v.sequence = y.sequence
  · rw [if_neg (not_not_intro sameSequence)] at notAfter notBefore
    have sameRound : v.round = y.round := by
      rcases Nat.lt_trichotomy v.round y.round with before | same | after
      · exact absurd (Nat.compare_eq_lt.mpr before) notBefore
      · exact same
      · exact absurd (Nat.compare_eq_gt.mpr after) notAfter
    cases v
    cases y
    simp only [View.mk.injEq]
    exact ⟨sameRound, sameSequence⟩
  · rw [if_pos sameSequence] at notAfter notBefore
    rcases Nat.lt_or_gt_of_ne sameSequence with before | after
    · exact absurd (Nat.compare_eq_lt.mpr before) notBefore
    · exact absurd (Nat.compare_eq_gt.mpr after) notAfter

/-- A message other than ROUND-CHANGE passes `checkMessage` only for the current view,
and one after PRE-PREPARE only once the state has left AcceptRequest. -/
theorem Core.checkMessage_eq_none {c : Core n} {code : Nat} {view : View}
    (passed : c.checkMessage code view = none) (notRoundChange : code ≠ msgRoundChange) :
    view = c.currentView ∧ (msgPreprepare < code → c.state ≠ .acceptRequest) := by
  unfold Core.checkMessage at passed
  rw [if_neg notRoundChange] at passed
  by_cases after : view.cmp c.currentView = .gt
  · rw [if_pos after] at passed
    cases passed
  rw [if_neg after] at passed
  by_cases before : view.cmp c.currentView = .lt
  · rw [if_pos before] at passed
    cases passed
  rw [if_neg before] at passed
  refine ⟨View.eq_of_cmp after before, fun later accepting => ?_⟩
  by_cases waiting : c.waitingForRoundChange = true
  · rw [if_pos waiting] at passed
    cases passed
  rw [if_neg waiting, if_pos accepting, if_pos later] at passed
  cases passed

theorem Inv.proposeAfterRoundChange {node : Node n} (inv : node.Inv e genesis voted sent)
    (roundChange : Bool) : (node.proposeAfterRoundChange e roundChange).Inv e genesis voted sent := by
  unfold Node.proposeAfterRoundChange
  split
  · split
    · split
      · exact inv.sendPreprepare _
      · exact inv
    · split
      · exact inv.sendPreprepare _
      · exact inv
  · exact inv

theorem Inv.startNewRound [NeZero n] {node : Node n} (inv : node.Inv e genesis voted sent)
    (round : Nat) : (node.startNewRound e round).Inv e genesis voted sent := by
  unfold Node.startNewRound
  split
  · exact inv
  · next roundChange kind =>
    rcases last : node.chain.lastProposal e.info with ⟨lastProposal, lastProposer⟩
    have cleared : ({ node with core := { node.core with roundChangeSet := ∅ } } : Node n).Inv
        e genesis voted sent := { inv with }
    dsimp only
    cases roundChange
    · -- a block at or above the sequence: the next sequence starts
      have later : node.core.current.sequence < e.info.number lastProposal + 1 := by
        have caughtUp := newRoundKind_false kind
        rw [last] at caughtUp
        dsimp only at caughtUp
        omega
      exact ((cleared.updateRoundState_newSequence _ later).start _ rfl).proposeAfterRoundChange _
    · -- a later round of this sequence
      exact ((cleared.updateRoundState_roundChange ⟨round, node.core.current.sequence⟩
        rfl).start _ (updateRoundState_commits _ _ _)).proposeAfterRoundChange _

theorem Inv.handlePreprepare [NeZero n] {node : Node n} (inv : node.Inv e genesis voted sent)
    (pp : Preprepare) (src : Fin n) (sane : e.info.number pp.proposal = pp.view.sequence) :
    (node.handlePreprepare e pp src).1.Inv e genesis voted sent := by
  unfold Node.handlePreprepare
  split
  · -- an old PRE-PREPARE is answered only for a block the validator holds
    dsimp only
    split
    · next vouches =>
      have stored := vouches.2
      unfold Chain.hasPropsal at stored
      rw [Bool.and_eq_true, List.contains_iff_mem] at stored
      exact inv.sendCommitForOldBlock _ _ stored.1 sane
    · exact inv
  · exact inv
  · next passed =>
    have checked := Core.checkMessage_eq_none passed (by decide)
    split
    · exact inv
    · split
      · exact inv
      · exact inv.sendNextRoundChange
      · split
        · next accepting =>
          have height : e.info.number pp.proposal = node.core.current.sequence := by
            rw [sane, checked.1]
            rfl
          split
          · split
            · next sameLock =>
              -- a locked validator accepts its own block again and commits at once
              have keepsLock : ∀ L, node.core.current.lockedHash = some L →
                  e.info.valid L = true → pp.proposal = L := fun L locked _ => by
                rw [sameLock] at locked
                exact Option.some.inj locked
              refine ((inv.acceptPreprepare pp height accepting keepsLock).setState .prepared
                fun prepared => nomatch prepared).sendCommit fun X proposed => ?_
              cases proposed
              exact sameLock
            · exact inv.sendNextRoundChange
          · next unlocked =>
            refine ((inv.acceptPreprepare pp height accepting fun L locked valid => ?_).setState
              .preprepared fun preprepared => nomatch preprepared).sendPrepare
            exact absurd (inv.isHashLocked_of_valid locked valid) unlocked
        · exact inv

theorem Inv.handlePrepare {node : Node n} (inv : node.Inv e genesis voted sent) (prepare : Subject)
    (src : Fin n) : (node.handlePrepare prepare src).1.Inv e genesis voted sent := by
  unfold Node.handlePrepare
  split
  · exact inv
  · split
    · exact inv
    · dsimp only
      have accepted := inv.acceptPrepare src
      split
      · exact (accepted.lockHash.setState .prepared fun prepared => nomatch prepared).sendCommit
          (lockHash_locked _)
      · exact accepted

theorem Inv.handleCommit {node : Node n} (inv : node.Inv e genesis voted sent) (commit : Subject)
    (src : Fin n) (vote : voted src commit) :
    (node.handleCommit e commit src).1.Inv e genesis voted sent := by
  unfold Node.handleCommit
  split
  · exact inv
  · next passed =>
    have checked := Core.checkMessage_eq_none passed (by decide)
    split
    · exact inv
    · next consistent =>
      obtain ⟨pp, accepted, rfl⟩ := Option.map_eq_some_iff.mp (not_not.mp consistent)
      have counted := inv.acceptCommit src (checked.2 (by decide))
        ⟨pp.proposal, by rw [RoundState.proposal, accepted]; rfl, vote⟩
      dsimp only
      split
      · next enough =>
        have quorum := enough.1
        rw [← lockHash_commits] at quorum
        exact counted.lockHash.commit (lockHash_locked _) quorum
      · exact counted

theorem Inv.handleRoundChange [NeZero n] {node : Node n} (inv : node.Inv e genesis voted sent)
    (rc : Subject) (src : Fin n) : (node.handleRoundChange e rc src).1.Inv e genesis voted sent := by
  unfold Node.handleRoundChange
  split
  · exact inv
  · rcases added : node.core.roundChangeSet.add rc.view.round src with ⟨num, roundChangeSet⟩
    have counted : ({ node with core := { node.core with roundChangeSet } } : Node n).Inv
        e genesis voted sent := { inv with }
    dsimp only
    split
    · split
      · exact counted.sendRoundChange _
      · exact counted
    · split
      · exact counted.startNewRound _
      · split <;> exact counted

theorem Inv.handleTimeoutMsg [NeZero n] {node : Node n} (inv : node.Inv e genesis voted sent) :
    (node.handleTimeoutMsg e).Inv e genesis voted sent := by
  have nextRound : (if node.core.current.sequence ≤ e.info.number (node.chain.lastProposal e.info).1
      then node.startNewRound e 0 else node.sendNextRoundChange).Inv e genesis voted sent := by
    split
    · exact inv.startNewRound 0
    · exact inv.sendNextRoundChange
  unfold Node.handleTimeoutMsg
  dsimp only
  split
  · exact nextRound
  · split
    · split
      · exact inv.sendRoundChange _
      · exact nextRound
    · exact nextRound

theorem Inv.handleRequest {node : Node n} (inv : node.Inv e genesis voted sent) (request : Hash) :
    (node.handleRequest e request).1.Inv e genesis voted sent := by
  unfold Node.handleRequest
  split
  · exact inv
  · have pending : (node.setCurrent { node.core.current with pendingRequest := some request }).Inv
        e genesis voted sent := { inv with }
    dsimp only
    split
    · exact pending.sendPreprepare _
    · exact pending

theorem Inv.handleFinalCommitted [NeZero n] {node : Node n} (inv : node.Inv e genesis voted sent) :
    (node.handleFinalCommitted e).Inv e genesis voted sent :=
  inv.startNewRound 0

/-- Every message keeps the invariant, given that a Byzantine PRE-PREPARE proposes a
block of its view's height and that a delivered COMMIT may be counted. -/
theorem Inv.handleCheckedMsg [NeZero n] {node : Node n} (inv : node.Inv e genesis voted sent)
    (msg : Message n)
    (sane : ∀ pp, msg.body = .preprepare pp → e.info.number pp.proposal = pp.view.sequence)
    (vote : ∀ sub, msg.body = .commit sub → voted msg.address sub) :
    (node.handleCheckedMsg e msg).1.Inv e genesis voted sent := by
  unfold Node.handleCheckedMsg
  split
  · next pp isPreprepare => exact inv.handlePreprepare pp _ (sane pp isPreprepare)
  · exact inv.handlePrepare _ _
  · next sub isCommit => exact inv.handleCommit _ _ (vote sub isCommit)
  · exact inv.handleRoundChange _ _

theorem Inv.mono {node : Node n} {voted' : Fin n → Subject → Prop}
    (inv : node.Inv e genesis voted sent) (weaker : ∀ j sub, voted j sub → voted' j sub) :
    node.Inv e genesis voted' sent :=
  { inv with
    commits_voted := fun j member =>
      (inv.commits_voted j member).imp fun _ counted => ⟨counted.1, weaker _ _ counted.2⟩
    committed_quorum := fun h X member =>
      (inv.committed_quorum h X member).mono fun _ counted =>
        counted.imp fun _ vote => weaker _ _ vote }

theorem start_inv [NeZero n] (address : Fin n) :
    (Node.start e address genesis).Inv e genesis voted [] where
  outbox_sent := fun _ member => nomatch member
  outbox_sane := fun _ member => nomatch member
  preprepare_number := fun _ accepted => nomatch accepted
  lock_proposal := fun _ locked => nomatch locked
  accept_commits := fun _ => rfl
  bad_invalid := fun _ member => nomatch member
  blocks_committed := fun Z member => Or.inl (List.mem_singleton.mp member)
  genesis_below := Nat.lt_succ_self _
  committed_above := fun _ _ member => nomatch member
  endorse_locked := fun _ _ _ endorses => by
    rcases endorses with ⟨_, member, _⟩ | member <;> cases member
  endorse_unique := fun _ _ _ _ endorses => by
    rcases endorses with ⟨_, member, _⟩ | member <;> cases member
  commits_voted := fun _ member => nomatch member
  committed_quorum := fun _ _ member => nomatch member

end Node

end SimpleChain.Istanbul
