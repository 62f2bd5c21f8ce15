import Mathlib
import SimpleChain.Istanbul.Core

/-! # A network of Istanbul validators

The validators are `Fin n`.  Those in `byzantine` run nothing of the core and may
send anything under their own name.  A message reaches a validator only if its
sender broadcast it or is Byzantine, since signatures cannot be forged; apart from
that the network delivers messages in any order, any number of times or never.
Timeouts, the miner's requests and final-committed notices arrive whenever the
environment chooses.

A validator also imports blocks that peers send it (the fetcher and the downloader
call `InsertChain`).  `VerifyHeader` lets a block in when its parent is known and
`verifyCommittedSeals` counts more than F distinct committers; a committed seal in an
honest name is one that validator signed for a COMMIT it broadcast.  The new head
then reaches the core as a final-committed notice through the miner's
`NewChainHead`, which is the `finalCommitted` event. -/
set_option autoImplicit false

namespace SimpleChain.Istanbul

inductive Event (n : Nat)
  | message (recipient : Fin n) (msg : Message n)
  | request (recipient : Fin n) (proposal : Hash)
  | timeout (recipient : Fin n)
  | finalCommitted (recipient : Fin n)
  | importBlock (recipient : Fin n) (block : Hash)

/-- The block a COMMIT is for. -/
def MessageBody.commitDigest : MessageBody → Option Hash
  | .commit sub => some sub.digest
  | _ => none

structure Net (n : Nat) where
  nodes : Fin n → Node n

namespace Net

variable {n : Nat} [NeZero n] (e : Env n) (byzantine : Finset (Fin n))

def init (genesis : Hash) : Net n := ⟨fun i => Node.start e i genesis⟩

/-- Run `f` at validator `recipient`, unless it is Byzantine. -/
def apply (net : Net n) (recipient : Fin n) (f : Node n → Node n) : Net n :=
  if recipient ∈ byzantine then net
  else ⟨Function.update net.nodes recipient (f (net.nodes recipient))⟩

/-- The network can hand `msg` to a validator: its sender broadcast it or is Byzantine. -/
def Deliverable (net : Net n) (msg : Message n) : Prop :=
  msg.address ∈ byzantine ∨ msg ∈ (net.nodes msg.address).outbox

instance (net : Net n) (msg : Message n) : Decidable (net.Deliverable byzantine msg) := by
  unfold Deliverable
  infer_instance

/-- Validator `j` has a committed seal over `block`: it is Byzantine, or it broadcast a
COMMIT for `block`.  (`finalizeMessage` signs the current proposal, which for a COMMIT
answering an old PRE-PREPARE is not the old block; counting that COMMIT only lets more
blocks in.) -/
def Sealed (net : Net n) (block : Hash) (j : Fin n) : Prop :=
  j ∈ byzantine ∨ ∃ msg ∈ (net.nodes j).outbox, msg.address = j ∧ msg.body.commitDigest = some block

instance (net : Net n) (block : Hash) (j : Fin n) : Decidable (net.Sealed byzantine block j) := by
  unfold Sealed
  infer_instance

/-- What `InsertChain` checks of a block from peers: `VerifyHeader`'s known parent and
blacklist, as the backend's `Verify` has them, and more than F committers. -/
def Importable (net : Net n) (recipient : Fin n) (block : Hash) : Prop :=
  (net.nodes recipient).chain.verify e.info block = none ∧
    ValidatorSet.F n < (Finset.univ.filter (net.Sealed byzantine block)).card

instance (net : Net n) (recipient : Fin n) (block : Hash) :
    Decidable (net.Importable e byzantine recipient block) := by
  unfold Importable
  infer_instance

def step (net : Net n) : Event n → Net n
  | .message recipient msg =>
      if net.Deliverable byzantine msg then
        net.apply byzantine recipient fun node => (node.handleCheckedMsg e msg).1
      else net
  | .request recipient proposal =>
      net.apply byzantine recipient fun node => (node.handleRequest e proposal).1
  | .timeout recipient => net.apply byzantine recipient (Node.handleTimeoutMsg e)
  | .finalCommitted recipient => net.apply byzantine recipient (Node.handleFinalCommitted e)
  | .importBlock recipient block =>
      if net.Importable e byzantine recipient block then
        net.apply byzantine recipient fun node => { node with chain := node.chain.insertBlock e.info block }
      else net

def run (net : Net n) (events : List (Event n)) : Net n := events.foldl (step e byzantine) net

end Net

end SimpleChain.Istanbul
