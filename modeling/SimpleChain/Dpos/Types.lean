import Mathlib
import SimpleChain.Lib.GoMap

/-! # DPoS engine data: votes, header extra-data, snapshots

The records of `consensus/dpos` as the snapshot code reads them.  Go's
`*big.Int` amounts are `Int` (they may be negative in principle; the engine only
ever stores balances), block numbers and counters are `Nat`, and the `uint64`
subtractions whose wrap-around the code can reach are written with `subU64`.

A header enters the model through what the engine computes from it:
`header.Hash()`, the sealer `ecrecover` recovers from the signature, and the
`HeaderExtra` that `decodeHeaderExtra` decodes from `Extra[32 : len - 65]`
(`none` when recovery or decoding fails).

`Snapshot.Proposals` holds pointers: the code inserts `&proposal` for the loop
variable of `updateSnapshotByProposals` (Go 1.13, one variable for the whole
loop), so a snapshot keeps proposal objects in `proposalHeap` and maps each hash to
an object index. -/
set_option autoImplicit false

namespace SimpleChain.Dpos

/-- `common.Address`; `bytes.Compare` on its 20 bytes is the unsigned order. -/
abbrev Address := BitVec 160

/-- `common.Hash`; `bytes.Compare` on its 32 bytes is the unsigned order. -/
abbrev Hash := BitVec 256

/-- Go's `a - b` on `uint64` operands, wrapping below zero. -/
def subU64 (a b : Nat) : Nat := (a % 2 ^ 64 + 2 ^ 64 - b % 2 ^ 64) % 2 ^ 64

/-- Go's `a + b` on `uint64` operands. -/
def addU64 (a b : Nat) : Nat := (a + b) % 2 ^ 64

/-- Go's `a * b` on `uint64` operands. -/
def mulU64 (a b : Nat) : Nat := (a * b) % 2 ^ 64

/-! ## Constants of `snapshot.go`, `dpos.go` and `event.go` -/

def defaultFullCredit : Nat := 28800
def missingPublishCredit : Nat := 100
def signRewardCredit : Nat := 10
def autoRewardCredit : Nat := 1
def minCalSignerQueueCredit : Nat := 10000
def defaultOfficialMaxSignerCount : Nat := 21
def defaultOfficialFirstLevelCount : Nat := 10
def defaultOfficialSecondLevelCount : Nat := 20
def defaultOfficialThirdLevelCount : Nat := 30
def defaultOfficialMaxValidCount : Nat := 50
def maxUncheckBalanceVoteCount : Nat := 10000
def candidateStateNormal : Nat := 1
def candidateMaxLen : Nat := 500
def proposalRefundDelayLoopCount : Nat := 0
def proposalRefundExpiredLoopCount : Nat := proposalRefundDelayLoopCount + 2
def minerRewardPerThousand : Nat := 618
def candidateNeedPD : Bool := false
def proposalTypeCandidateAdd : Nat := 1
def proposalTypeCandidateRemove : Nat := 2
def proposalTypeMinerRewardDistributionModify : Nat := 3
def proposalTypeMinVoterBalanceModify : Nat := 6
def proposalTypeProposalDepositModify : Nat := 7
def devoteStake : Int := 0

/-! ## Records -/

/-- `Vote`: `Voter` backs `Candidate` with `Stake`; a stake of `devoteStake`
withdraws the voter. -/
structure Vote where
  voter : Address
  candidate : Address
  stake : Int
deriving DecidableEq, Repr

/-- `PredecessorVoter`: a voter whose balance changed, with the new balance. -/
structure PredecessorVoter where
  voter : Address
  stake : Int
deriving DecidableEq, Repr

structure Confirmation where
  signer : Address
  blockNumber : Nat
deriving DecidableEq, Repr

structure Declare where
  proposalHash : Hash
  declarer : Address
  decision : Bool
deriving DecidableEq, Repr

/-- `Proposal`, without `ProposalDeposit`, which no statement of the engine reads. -/
structure Proposal where
  hash : Hash
  receivedNumber : Nat
  currentDeposit : Int
  validationLoopCnt : Nat
  proposalType : Nat
  proposer : Address
  targetAddress : Address
  minerRewardPerThousand : Nat
  declares : List Declare
  minVoterBalance : Nat
deriving DecidableEq, Repr

/-- `HeaderExtra`, the RLP payload between the vanity prefix and the seal. -/
structure HeaderExtra where
  currentBlockConfirmations : List Confirmation
  currentBlockVotes : List Vote
  currentBlockProposals : List Proposal
  currentBlockDeclares : List Declare
  modifyPredecessorVotes : List PredecessorVoter
  loopStartTime : Nat
  signerQueue : List Address
  signerMissing : List Address
  confirmedBlockNumber : Nat
deriving DecidableEq, Repr

/-- `HeaderExtra{}`, the zero value. -/
def HeaderExtra.empty : HeaderExtra :=
  { currentBlockConfirmations := [], currentBlockVotes := [], currentBlockProposals := [],
    currentBlockDeclares := [], modifyPredecessorVotes := [], loopStartTime := 0,
    signerQueue := [], signerMissing := [], confirmedBlockNumber := 0 }

/-- `params.DPoSConfig` after `New` has filled in its defaults: a zero
`MaxSignerCount` is replaced by 21, so it is positive in every engine. -/
structure DPoSConfig where
  period : Nat
  epoch : Nat
  maxSignerCount : Nat
  minVoterBalance : Int
  genesisTimestamp : Nat
  selfVoteSigners : List Address
  voterReward : Bool
  maxSignerCount_pos : 0 < maxSignerCount

/-- A block header as the engine sees it. -/
structure Header where
  number : Nat
  time : Nat
  coinbase : Address
  parentHash : Hash
  /-- `header.Hash()` -/
  hash : Hash
  /-- `ecrecover(header)`, `none` when the signature does not recover. -/
  sealer : Option Address
  /-- `decodeHeaderExtra(header.Extra[32 : len - 65])`, `none` on a decoding error. -/
  extra : Option HeaderExtra
deriving DecidableEq, Repr

/-- `Snapshot`, the voting state at one block.  `sigcache` is a cache of
`ecrecover` results and is not modelled. -/
structure Snapshot where
  config : DPoSConfig
  lcrs : Nat
  period : Nat
  number : Nat
  confirmedNumber : Nat
  hash : Hash
  historyHash : List Hash
  signers : List Address
  votes : GoMap Address Vote
  tally : GoMap Address Int
  voters : GoMap Address Nat
  candidates : GoMap Address Nat
  punished : GoMap Address Nat
  confirmations : GoMap Nat (List Address)
  /-- `Proposals`: each hash points at an object of `proposalHeap`. -/
  proposals : GoMap Hash Nat
  proposalHeap : List Proposal
  headerTime : Nat
  loopStartTime : Nat
  proposalRefund : GoMap Nat (GoMap Address Int)
  minerReward : Nat
  minVB : Int

/-- The errors `apply`, `createSignerQueue` and `verifySeal` return, and the
run-time panics of the code (a nil map value dereferenced, an index out of
range, an integer division by zero). -/
inductive DposError where
  | invalidVotingChain
  | unauthorized
  | ecrecoverFailed
  | decodeFailed
  | incorrectTallyCount
  | createSignerQueueNotAllowed
  | signerQueueEmpty
  | invalidSignerQueue
  | unknownBlock
  | unknownAncestor
  | invalidNeighborSigner
  | lastLoopHeaderFail
  | punishedMissing
  | panicNilDereference
  | panicIndexOutOfRange
  | panicDivideByZero
deriving DecidableEq, Repr

end SimpleChain.Dpos
