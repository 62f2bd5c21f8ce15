import Mathlib
import SimpleChain.Lib.GoMap

/-! # The Istanbul BFT core

`consensus/istanbul/core` is one validator's side of Istanbul BFT.  On a view
(sequence, round) the proposer sends PRE-PREPARE, validators answer PREPARE and,
after a quorum of those, COMMIT; a quorum of COMMITs makes the core hand the
proposal to `backend.Commit`.  ROUND-CHANGE messages and timeouts move to the next
round.  A validator that reached Prepared locks the proposal's hash, and at that
sequence it votes for nothing else while the lock holds.

A block is its hash: its number, parent, author and whether its state transition
succeeds are functions of the hash (`BlockInfo`).  Of the backend the model keeps
what the core reads: the blocks in the database, the head and the bad-block cache.
Each handler returns the node and the error the source returns.  The backlog of
future messages, the queue of future requests, gossip and the timers only hand a
message, a request or a timeout to the core later; the network of
`Istanbul.Network` delivers anything sent at any time, which covers them. -/
set_option autoImplicit false

namespace SimpleChain.Istanbul

abbrev Hash := BitVec 256

/-- Go's `common.Hash{}`, the digest of a ROUND-CHANGE. -/
def emptyHash : Hash := 0

inductive ProposerPolicy
  | roundRobin
  | sticky
deriving DecidableEq, Repr

structure BlockInfo (n : Nat) where
  number : Hash → Nat
  parentHash : Hash → Hash
  author : Hash → Fin n
  -- whether inserting the block succeeds, i.e. its state transition is correct
  valid : Hash → Bool

inductive VerifyError
  | futureBlock
  | blacklistedHash
  | unknownAncestor
deriving DecidableEq, Repr

inductive BackendError
  | invalidCommittedSeals
deriving DecidableEq, Repr

inductive CoreError
  | inconsistentSubject
  | notFromProposer
  | ignored
  | futureMessage
  | oldMessage
  | verify (err : VerifyError)
deriving DecidableEq, Repr

def msgPreprepare : Nat := 0
def msgPrepare : Nat := 1
def msgCommit : Nat := 2
def msgRoundChange : Nat := 3

/-! ## Validator set -/

namespace ValidatorSet

variable {n : Nat}

/-- `defaultSet.F`, `int(math.Ceil(float64(N)/3)) - 1`. -/
def F (n : Nat) : Nat := (n + 2) / 3 - 1

def calcSeed (proposer : Fin n) (round : Nat) : Nat := proposer.val + round

-- the two selectors differ only in the step past the last proposer
def pickProposer [NeZero n] (step : Nat) (proposer : Option (Fin n)) (round : Nat) : Fin n :=
  match proposer with
  | none => Fin.ofNat n round
  | some p => Fin.ofNat n (calcSeed p round + step)

def roundRobinProposer [NeZero n] (proposer : Option (Fin n)) (round : Nat) : Fin n :=
  pickProposer 1 proposer round

def stickyProposer [NeZero n] (proposer : Option (Fin n)) (round : Nat) : Fin n :=
  pickProposer 0 proposer round

def calcProposer [NeZero n] (policy : ProposerPolicy) (lastProposer : Option (Fin n))
    (round : Nat) : Fin n :=
  match policy with
  | .roundRobin => roundRobinProposer lastProposer round
  | .sticky => stickyProposer lastProposer round

end ValidatorSet

open ValidatorSet

/-- `core.Confirmations`, `int(math.Ceil(float64(2*N)/3))`. -/
def confirmations (n : Nat) : Nat := (2 * n + 2) / 3

/-! ## Messages -/

/-- `istanbul.View`; `View.Cmp` orders by sequence, then round. -/
structure View where
  round : Nat
  sequence : Nat
deriving DecidableEq, Repr

def View.cmp (v y : View) : Ordering :=
  if v.sequence ≠ y.sequence then compare v.sequence y.sequence else compare v.round y.round

structure Preprepare where
  view : View
  proposal : Hash
deriving DecidableEq, Repr

structure Subject where
  view : View
  digest : Hash
deriving DecidableEq, Repr

inductive MessageBody
  | preprepare (preprepare : Preprepare)
  | prepare (subject : Subject)
  | commit (subject : Subject)
  | roundChange (subject : Subject)
deriving DecidableEq, Repr

/-- A message as `handleMsg` sees it once its signature has named the sender. -/
structure Message (n : Nat) where
  address : Fin n
  body : MessageBody
deriving DecidableEq, Repr

/-! ## Round state -/

inductive State
  | acceptRequest
  | preprepared
  | prepared
  | committed
deriving DecidableEq, Repr

/-- The `uint64` behind a state, which `State.Cmp` compares. -/
def State.toNat : State → Nat
  | .acceptRequest => 0
  | .preprepared => 1
  | .prepared => 2
  | .committed => 3

/-- `roundState`.  The message sets hold their senders (`messageSet` is keyed by
address); an unset lock, the zero hash in Go, is `none`. -/
structure RoundState (n : Nat) where
  round : Nat
  sequence : Nat
  preprepare : Option Preprepare
  prepares : Finset (Fin n)
  commits : Finset (Fin n)
  lockedHash : Option Hash
  pendingRequest : Option Hash

namespace RoundState

variable {n : Nat}

def subject (s : RoundState n) : Option Subject :=
  s.preprepare.map fun preprepare => ⟨⟨s.round, s.sequence⟩, preprepare.proposal⟩

def proposal (s : RoundState n) : Option Hash := s.preprepare.map (·.proposal)

def lockHash (s : RoundState n) : RoundState n :=
  match s.preprepare with
  | some preprepare => { s with lockedHash := some preprepare.proposal }
  | none => s

def unlockHash (s : RoundState n) : RoundState n := { s with lockedHash := none }

def isHashLocked (hasBadProposal : Hash → Bool) (s : RoundState n) : Bool :=
  match s.lockedHash with
  | none => false
  | some hash => !hasBadProposal hash

-- the PREPAREs and COMMITs counted once per sender
def getPrepareOrCommitSize (s : RoundState n) : Nat :=
  s.prepares.card + s.commits.card - (s.prepares.filter (· ∈ s.commits)).card

end RoundState

def newRoundState {n : Nat} (view : View) (lockedHash : Option Hash)
    (preprepare : Option Preprepare) (pendingRequest : Option Hash) : RoundState n :=
  { round := view.round, sequence := view.sequence, preprepare, prepares := ∅, commits := ∅,
    lockedHash, pendingRequest }

/-! ## Round-change set -/

abbrev RoundChangeSet (n : Nat) := GoMap Nat (Finset (Fin n))

namespace RoundChangeSet

variable {n : Nat}

def add (rcs : RoundChangeSet n) (round : Nat) (src : Fin n) : Nat × RoundChangeSet n :=
  let senders := insert src ((rcs.lookup round).getD ∅)
  (senders.card, rcs.insert round senders)

def clear (rcs : RoundChangeSet n) (round : Nat) : RoundChangeSet n :=
  GoMap.filter (fun k senders => !(senders.card == 0 || k < round)) rcs

def maxRound (rcs : RoundChangeSet n) (num : Nat) : Option Nat :=
  rcs.entries.foldl
    (fun maxRound entry =>
      if entry.2.card < num then maxRound
      else match maxRound with
        | some r => if r < entry.1 then some entry.1 else some r
        | none => some entry.1)
    none

end RoundChangeSet

/-! ## Backend -/

/-- What the core reads of its backend's chain: the blocks in the database, the
current block and the bad-block cache. -/
structure Chain where
  blocks : List Hash
  head : Hash
  bad : List Hash

namespace Chain

variable {n : Nat} (info : BlockInfo n)

def hasBadProposal (c : Chain) (hash : Hash) : Bool := c.bad.contains hash

def hasPropsal (c : Chain) (hash : Hash) (number : Nat) : Bool :=
  c.blocks.contains hash && info.number hash == number

-- `Author` fails on the genesis header, and the callers then use the empty address
def author? (hash : Hash) : Option (Fin n) :=
  if info.number hash = 0 then none else some (info.author hash)

def lastProposal (c : Chain) : Hash × Option (Fin n) := (c.head, author? info c.head)

def getProposer (c : Chain) (number : Nat) : Option (Fin n) :=
  (c.blocks.find? fun b => info.number b == number).bind (author? info)

/-- `backend.Verify` as far as blocks are modelled: the bad-block check and the
known-parent check of `verifyCascadingFields`. -/
def verify (c : Chain) (proposal : Hash) : Option VerifyError :=
  if c.hasBadProposal proposal then some .blacklistedHash
  else if info.number proposal = 0 then none
  else if c.hasPropsal info (info.parentHash proposal) (info.number proposal - 1) then none
  else some .unknownAncestor

/-- Inserting a committed block: a known block is skipped, a block whose state
transition fails goes to the bad-block cache, and a block one above the head
becomes the head. -/
def insertBlock (c : Chain) (hash : Hash) : Chain :=
  if c.blocks.contains hash then c
  else if info.valid hash then
    { c with
      blocks := c.blocks ++ [hash]
      head := if info.number hash = info.number c.head + 1 then hash else c.head }
  else { c with bad := c.bad ++ [hash] }

/-- `backend.Commit`.  It fails only when the seals cannot be written into a
header `Verify` accepted, so it returns `nil`; insertion happens behind it. -/
def commit (c : Chain) (proposal : Hash) : Except BackendError Chain :=
  .ok (c.insertBlock info proposal)

end Chain

/-! ## Core -/

/-- `core`: the validator set is fixed, and of it the core keeps the proposer. -/
structure Core (n : Nat) where
  address : Fin n
  state : State
  current : RoundState n
  waitingForRoundChange : Bool
  proposer : Fin n
  roundChangeSet : RoundChangeSet n

/-- The environment of the validators: what blocks are, the proposer policy and
the backend's `Verify`. -/
structure Env (n : Nat) where
  info : BlockInfo n
  policy : ProposerPolicy
  verify : Chain → Hash → Option VerifyError

/-- A validator: its core, its backend's chain, every message it broadcast, and
every `backend.Commit` call with the sequence the core was at. -/
structure Node (n : Nat) where
  core : Core n
  chain : Chain
  outbox : List (Message n)
  committed : List (Nat × Hash)

namespace Core

variable {n : Nat}

def currentView (c : Core n) : View := ⟨c.current.round, c.current.sequence⟩

def isProposer (c : Core n) (address : Fin n) : Bool := c.proposer == address

def checkMessage (c : Core n) (msgCode : Nat) (view : View) : Option CoreError :=
  if msgCode = msgRoundChange then
    if view.sequence > c.currentView.sequence then some .futureMessage
    else if view.cmp c.currentView = .lt then some .oldMessage
    else none
  else if view.cmp c.currentView = .gt then some .futureMessage
  else if view.cmp c.currentView = .lt then some .oldMessage
  else if c.waitingForRoundChange then some .futureMessage
  -- in AcceptRequest only a PRE-PREPARE is for now
  else if c.state = .acceptRequest then
    if msgCode > msgPreprepare then some .futureMessage else none
  else none

def checkRequestMsg (c : Core n) (number : Nat) : Option CoreError :=
  if number < c.current.sequence then some .oldMessage
  else if c.current.sequence < number then some .futureMessage
  else none

end Core

namespace Node

variable {n : Nat} [NeZero n] (e : Env n)

def currentView (node : Node n) : View := node.core.currentView

def isHashLocked (node : Node n) : Bool :=
  node.core.current.isHashLocked node.chain.hasBadProposal

def setCurrent (node : Node n) (current : RoundState n) : Node n :=
  { node with core := { node.core with current } }

def setState (node : Node n) (state : State) : Node n :=
  { node with core := { node.core with state } }

def broadcast (node : Node n) (body : MessageBody) : Node n :=
  { node with outbox := node.outbox ++ [⟨node.core.address, body⟩] }

def sendPreprepare (node : Node n) (request : Hash) : Node n :=
  if node.core.current.sequence = e.info.number request
      ∧ node.core.isProposer node.core.address = true then
    node.broadcast (.preprepare ⟨node.currentView, request⟩)
  else node

def sendPrepare (node : Node n) : Node n :=
  match node.core.current.subject with
  | some sub => node.broadcast (.prepare sub)
  | none => node

def sendCommit (node : Node n) : Node n :=
  match node.core.current.subject with
  | some sub => node.broadcast (.commit sub)
  | none => node

def sendCommitForOldBlock (node : Node n) (view : View) (digest : Hash) : Node n :=
  node.broadcast (.commit ⟨view, digest⟩)

def acceptPreprepare (node : Node n) (preprepare : Preprepare) : Node n :=
  node.setCurrent { node.core.current with preprepare := some preprepare }

def acceptPrepare (node : Node n) (src : Fin n) : Node n :=
  node.setCurrent { node.core.current with prepares := insert src node.core.current.prepares }

def acceptCommit (node : Node n) (src : Fin n) : Node n :=
  node.setCurrent { node.core.current with commits := insert src node.core.current.commits }

def lockHash (node : Node n) : Node n := node.setCurrent node.core.current.lockHash

/-- A round change keeps the lock, and the PRE-PREPARE it came from, only while
the locked block is not reported bad. -/
def updateRoundState (node : Node n) (view : View) (roundChange : Bool) : Node n :=
  let cur := node.core.current
  node.setCurrent <|
    if roundChange = true then
      if node.isHashLocked = true then newRoundState view cur.lockedHash cur.preprepare cur.pendingRequest
      else newRoundState view none none cur.pendingRequest
    else newRoundState view none none none

def catchUpRound (node : Node n) (view : View) : Node n :=
  let node := { node with core := { node.core with waitingForRoundChange := true } }
  let node := node.updateRoundState view true
  { node with core := { node.core with
      roundChangeSet := node.core.roundChangeSet.clear view.round } }

def sendRoundChange (node : Node n) (round : Nat) : Node n :=
  let cv := node.currentView
  if round ≤ cv.round then node
  else
    let node := node.catchUpRound ⟨round, cv.sequence⟩
    node.broadcast (.roundChange ⟨node.currentView, emptyHash⟩)

def sendNextRoundChange (node : Node n) : Node n :=
  node.sendRoundChange (node.currentView.round + 1)

/-- The end of `startNewRound`: the proposer of a round change proposes the locked
block, or else its pending request. -/
def proposeAfterRoundChange (node : Node n) (roundChange : Bool) : Node n :=
  if roundChange = true ∧ node.core.isProposer node.core.address = true then
    if node.isHashLocked = true then
      match node.core.current.proposal with
      | some proposal => node.sendPreprepare e proposal
      | none => node
    else
      match node.core.current.pendingRequest with
      | some request => node.sendPreprepare e request
      | none => node
  else node

/-- The source's three cases: a block at or above the current sequence starts the
next sequence (`some false`), a later round at the same sequence is a round change
(`some true`), and anything else leaves the round alone. -/
def newRoundKind (node : Node n) (round : Nat) : Option Bool :=
  let lastNumber := e.info.number (node.chain.lastProposal e.info).1
  let cur := node.core.current
  if cur.sequence ≤ lastNumber then some false
  else if lastNumber = cur.sequence - 1 then
    if round = 0 then none
    else if round < cur.round then none
    else some true
  else none

def startNewRound (node : Node n) (round : Nat) : Node n :=
  match node.newRoundKind e round with
  | none => node
  | some roundChange =>
      let (lastProposal, lastProposer) := node.chain.lastProposal e.info
      let newView : View :=
        if roundChange then ⟨round, node.core.current.sequence⟩
        else ⟨0, e.info.number lastProposal + 1⟩
      let node := { node with core := { node.core with roundChangeSet := ∅ } }
      let node := node.updateRoundState newView roundChange
      let node := { node with core := { node.core with
        proposer := calcProposer e.policy lastProposer newView.round
        waitingForRoundChange := false
        state := .acceptRequest } }
      node.proposeAfterRoundChange e roundChange

def commit (node : Node n) : Node n :=
  let node := node.setState .committed
  match node.core.current.proposal with
  | none => node
  | some proposal =>
      let node := { node with
        committed := node.committed ++ [(node.core.current.sequence, proposal)] }
      match node.chain.commit e.info proposal with
      | .ok chain => { node with chain }
      | .error _ => (node.setCurrent node.core.current.unlockHash).sendNextRoundChange

def handlePreprepare (node : Node n) (preprepare : Preprepare) (src : Fin n) :
    Node n × Option CoreError :=
  match node.core.checkMessage msgPreprepare preprepare.view with
  | some .oldMessage =>
      -- an old PRE-PREPARE of a block we hold, from its proposer: vouch for it again
      let number := e.info.number preprepare.proposal
      let previousProposer := node.chain.getProposer e.info (number - 1)
      if calcProposer e.policy previousProposer preprepare.view.round = src
          ∧ node.chain.hasPropsal e.info preprepare.proposal number = true then
        (node.sendCommitForOldBlock preprepare.view preprepare.proposal, none)
      else (node, some .oldMessage)
  | some err => (node, some err)
  | none =>
      if node.core.isProposer src = false then (node, some .notFromProposer)
      else
        match e.verify node.chain preprepare.proposal with
        | some .futureBlock => (node, some (.verify .futureBlock))
        | some err => (node.sendNextRoundChange, some (.verify err))
        | none =>
            if node.core.state = .acceptRequest then
              if node.isHashLocked = true then
                if node.core.current.lockedHash = some preprepare.proposal then
                  (((node.acceptPreprepare preprepare).setState .prepared).sendCommit, none)
                else (node.sendNextRoundChange, none)
              else (((node.acceptPreprepare preprepare).setState .preprepared).sendPrepare, none)
            else (node, none)

def handlePrepare (node : Node n) (prepare : Subject) (src : Fin n) :
    Node n × Option CoreError :=
  match node.core.checkMessage msgPrepare prepare.view with
  | some err => (node, some err)
  | none =>
      if node.core.current.subject ≠ some prepare then (node, some .inconsistentSubject)
      else
        let node := node.acceptPrepare src
        if ((node.isHashLocked = true ∧ node.core.current.lockedHash = some prepare.digest)
              ∨ confirmations n ≤ node.core.current.getPrepareOrCommitSize)
            ∧ node.core.state.toNat < State.prepared.toNat then
          ((node.lockHash.setState .prepared).sendCommit, none)
        else (node, none)

def handleCommit (node : Node n) (commit : Subject) (src : Fin n) :
    Node n × Option CoreError :=
  match node.core.checkMessage msgCommit commit.view with
  | some err => (node, some err)
  | none =>
      if node.core.current.subject ≠ some commit then (node, some .inconsistentSubject)
      else
        let node := node.acceptCommit src
        if confirmations n ≤ node.core.current.commits.card
            ∧ node.core.state.toNat < State.committed.toNat then
          (node.lockHash.commit e, none)
        else (node, none)

def handleRoundChange (node : Node n) (rc : Subject) (src : Fin n) :
    Node n × Option CoreError :=
  match node.core.checkMessage msgRoundChange rc.view with
  | some err => (node, some err)
  | none =>
      let cv := node.currentView
      let (num, roundChangeSet) := node.core.roundChangeSet.add rc.view.round src
      let node := { node with core := { node.core with roundChangeSet } }
      -- F+1 ROUND-CHANGEs are a weak certificate to catch up with, 2F+1 start the round
      if node.core.waitingForRoundChange = true ∧ num = F n + 1 then
        if cv.round < rc.view.round then (node.sendRoundChange rc.view.round, none)
        else (node, none)
      else if num = confirmations n
          ∧ (node.core.waitingForRoundChange = true ∨ cv.round < rc.view.round) then
        (node.startNewRound e rc.view.round, none)
      else if cv.round < rc.view.round then (node, some .ignored)
      else (node, none)

def handleTimeoutMsg (node : Node n) : Node n :=
  let nextRound :=
    if node.core.current.sequence ≤ e.info.number (node.chain.lastProposal e.info).1 then
      node.startNewRound e 0
    else node.sendNextRoundChange
  -- not yet waiting: catch up with the highest round that F+1 validators asked for
  if node.core.waitingForRoundChange = true then nextRound
  else
    match node.core.roundChangeSet.maxRound (F n + 1) with
    | some maxRound =>
        if node.core.current.round < maxRound then node.sendRoundChange maxRound else nextRound
    | none => nextRound

def handleRequest (node : Node n) (request : Hash) : Node n × Option CoreError :=
  match node.core.checkRequestMsg (e.info.number request) with
  | some err => (node, some err)
  | none =>
      let node := node.setCurrent { node.core.current with pendingRequest := some request }
      if node.core.state = .acceptRequest then (node.sendPreprepare e request, none)
      else (node, none)

def handleFinalCommitted (node : Node n) : Node n := node.startNewRound e 0

def handleCheckedMsg (node : Node n) (msg : Message n) : Node n × Option CoreError :=
  match msg.body with
  | .preprepare preprepare => node.handlePreprepare e preprepare msg.address
  | .prepare sub => node.handlePrepare sub msg.address
  | .commit sub => node.handleCommit e sub msg.address
  | .roundChange sub => node.handleRoundChange e sub msg.address

/-- A validator after `core.Start`, on a chain holding only `genesis`. -/
def start (address : Fin n) (genesis : Hash) : Node n :=
  let chain : Chain := ⟨[genesis], genesis, []⟩
  let (lastProposal, lastProposer) := chain.lastProposal e.info
  { core :=
      { address
        state := .acceptRequest
        current := newRoundState ⟨0, e.info.number lastProposal + 1⟩ none none none
        waitingForRoundChange := false
        proposer := calcProposer e.policy lastProposer 0
        roundChangeSet := ∅ }
    chain
    outbox := []
    committed := [] }

end Node

end SimpleChain.Istanbul
