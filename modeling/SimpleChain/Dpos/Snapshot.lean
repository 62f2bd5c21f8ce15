import Mathlib
import SimpleChain.Dpos.SignerQueue
import SimpleChain.Lib.Loop

/-! # Snapshots and `Snapshot.apply` (`snapshot.go`)

`newSnapshot` builds the genesis snapshot from the self-vote signers' votes;
`Snapshot.apply` copies a snapshot and replays a run of consecutive headers on
the copy, each header through the fixed sequence of `updateSnapshot*` steps of
the source, and checks the tally against the votes at the end.

Steps that dereference `s.Tally[c]` for a candidate with no tally entry panic in
Go (`(*big.Int).Sub` on nil); here they return `.panicNilDereference`, so a
snapshot `apply` returns is one the code really reaches.  The removal of extra
candidates needs `sort.Sort`, so `apply` takes the sort routine as a parameter. -/
set_option autoImplicit false

namespace SimpleChain.Dpos

/-! ## `newSnapshot` and `copy` -/

/-- One iteration of `newSnapshot`'s loop over the genesis votes. -/
def addGenesisVote (s : Snapshot) (vote : Vote) : Snapshot :=
  { s with
    votes := s.votes.insert vote.voter vote
    tally := s.tally.insert vote.candidate ((s.tally.lookup vote.candidate).getD 0 + vote.stake)
    voters := s.voters.insert vote.voter 0
    candidates := s.candidates.insert vote.voter candidateStateNormal }

/-- `MaxSignerCount` entries cycling through `config.SelfVoteSigners`. -/
def selfVoteSignerQueue (config : DPoSConfig) : List Address :=
  match config.selfVoteSigners with
  | [] => []
  | first :: rest =>
      (List.range config.maxSignerCount).map fun i =>
        (first :: rest).getD (i % (rest.length + 1)) first

/-- `newSnapshot`; `now` is the clock reading `time.Now().Unix()`. -/
def newSnapshot (config : DPoSConfig) (hash : Hash) (votes : List Vote) (lcrs now : Nat) :
    Snapshot :=
  let empty : Snapshot :=
    { config := config, lcrs := lcrs, period := config.period, number := 0,
      confirmedNumber := 0, hash := hash, historyHash := [hash], signers := [],
      votes := ∅, tally := ∅, voters := ∅, candidates := ∅, punished := ∅,
      confirmations := ∅, proposals := ∅, proposalHeap := [], headerTime := subU64 now 1,
      loopStartTime := config.genesisTimestamp, proposalRefund := ∅,
      minerReward := minerRewardPerThousand, minVB := config.minVoterBalance }
  { votes.foldl addGenesisVote empty with signers := selfVoteSignerQueue config }

/-- `copy`: the value fields are copied as they are; every `Proposals` entry
gets a fresh object, which ends any sharing between entries. -/
def Snapshot.copy (s : Snapshot) : Snapshot :=
  let fresh := s.proposals.entries.foldl
    (fun (acc : GoMap Hash Nat × List Proposal) entry =>
      -- `entry.2` always points into the heap; the `none` case is not reachable
      match s.proposalHeap[entry.2]? with
      | some proposal => (acc.1.insert entry.1 acc.2.length, acc.2 ++ [proposal])
      | none => acc)
    (∅, [])
  { s with
    proposals := fresh.1
    proposalHeap := fresh.2
    minerReward := if s.minerReward = 0 then minerRewardPerThousand else s.minerReward }

/-! ## The per-header steps -/

/-- One confirmation of `updateSnapshotByConfirmations`. -/
def Snapshot.updateSnapshotByConfirmation (s : Snapshot) (confirmation : Confirmation) :
    Snapshot :=
  let key := confirmation.blockNumber % 2 ^ 64
  let confirmers := (s.confirmations.lookup key).getD []
  { s with
    confirmations := s.confirmations.insert key
      (if confirmation.signer ∈ confirmers then confirmers
       else confirmers ++ [confirmation.signer]) }

def Snapshot.updateSnapshotByConfirmations (s : Snapshot) (confirmations : List Confirmation) :
    Snapshot :=
  confirmations.foldl Snapshot.updateSnapshotByConfirmation s

/-- `s.Tally[lastVote.Candidate].Sub(...)` for the voter's last vote, if it
has one: the tally after the old stake is taken off, or a panic when the old
candidate has no tally entry. -/
def Snapshot.withdrawLastVote (s : Snapshot) (voter : Address) :
    Except DposError (GoMap Address Int) :=
  match s.votes.lookup voter with
  | none => pure s.tally
  | some lastVote =>
      match s.tally.lookup lastVote.candidate with
      | some stake => pure (s.tally.insert lastVote.candidate (stake - lastVote.stake))
      | none => throw .panicNilDereference

/-- One vote of `updateSnapshotByVotes`.  A voter's earlier vote is first
taken off its candidate's tally, then the new vote is counted, or the voter is
removed when the stake is `devoteStake`. -/
def Snapshot.updateSnapshotByVote (headerNumber : Nat) (s : Snapshot) (vote : Vote) :
    Except DposError Snapshot := do
  let tally ← s.withdrawLastVote vote.voter
  if vote.stake = devoteStake then
    pure { s with
      tally := tally
      votes := s.votes.erase vote.voter
      voters := s.voters.erase vote.voter }
  else
    let record : Vote := ⟨vote.voter, vote.candidate, vote.stake⟩
    match tally.lookup vote.candidate with
    | some stake =>
        pure { s with
          tally := tally.insert vote.candidate (stake + vote.stake)
          votes := s.votes.insert vote.voter record
          voters := s.voters.insert vote.voter headerNumber }
    | none =>
        pure { s with
          tally := tally.insert vote.candidate vote.stake
          candidates := if !candidateNeedPD then
              s.candidates.insert vote.candidate candidateStateNormal
            else s.candidates
          votes := s.votes.insert vote.voter record
          voters := s.voters.insert vote.voter headerNumber }

def Snapshot.updateSnapshotByVotes (s : Snapshot) (votes : List Vote) (headerNumber : Nat) :
    Except DposError Snapshot :=
  votes.foldlM (Snapshot.updateSnapshotByVote headerNumber) s

/-- One entry of `updateSnapshotByMPVotes`: a voter's balance changed, so its
vote keeps the candidate and takes the new stake. -/
def Snapshot.updateSnapshotByMPVote (s : Snapshot) (txVote : PredecessorVoter) :
    Except DposError Snapshot :=
  match s.votes.lookup txVote.voter with
  | none => pure s
  | some lastVote =>
      match s.tally.lookup lastVote.candidate with
      | none => throw .panicNilDereference
      | some stake =>
          pure { s with
            tally := s.tally.insert lastVote.candidate (stake - lastVote.stake + txVote.stake)
            votes := s.votes.insert txVote.voter ⟨txVote.voter, lastVote.candidate, txVote.stake⟩ }

def Snapshot.updateSnapshotByMPVotes (s : Snapshot) (votes : List PredecessorVoter) :
    Except DposError Snapshot :=
  votes.foldlM Snapshot.updateSnapshotByMPVote s

/-- The punishment of one missing signer. -/
def punishMissingSigner (punished : GoMap Address Nat) (signer : Address) :
    GoMap Address Nat :=
  match punished.lookup signer with
  | some count =>
      if count ≤ 10 * defaultFullCredit then punished.insert signer (count + missingPublishCredit)
      else punished
  | none => punished.insert signer missingPublishCredit

/-- The credit one signer recovers; `reduction` is `signRewardCredit` for the
sealer and `autoRewardCredit` for everyone once per block. -/
def recoverCredit (reduction : Nat) (punished : GoMap Address Nat) (signer : Address) :
    GoMap Address Nat :=
  match punished.lookup signer with
  | some count =>
      if count > reduction then punished.insert signer (count - reduction)
      else punished.erase signer
  | none => punished

def Snapshot.updateSnapshotForPunish (s : Snapshot) (signerMissing : List Address)
    (_headerNumber : Nat) (coinbase : Address) : Snapshot :=
  let punished := signerMissing.foldl punishMissingSigner s.punished
  let punished := recoverCredit signRewardCredit punished coinbase
  { s with punished := punished.keys.foldl (recoverCredit autoRewardCredit) punished }

/-- `updateSnapshotByProposals`.  The loop stores `&proposal` for its single
loop variable, so every listed hash points at one object, which holds the last
proposal when the loop ends. -/
def Snapshot.updateSnapshotByProposals (s : Snapshot) (proposals : List Proposal)
    (headerNumber : Nat) : Snapshot :=
  match proposals.getLast? with
  | none => s
  | some last =>
      let pointer := s.proposalHeap.length
      { s with
        proposalHeap := s.proposalHeap ++ [{ last with receivedNumber := headerNumber }]
        proposals := proposals.foldl (fun pointers p => pointers.insert p.hash pointer)
          s.proposals }

/-- One declare of `updateSnapshotByDeclares`, appended to the proposal object. -/
def Snapshot.updateSnapshotByDeclare (headerNumber : Nat) (s : Snapshot) (declare : Declare) :
    Snapshot :=
  match s.proposals.lookup declare.proposalHash with
  | none => s
  | some pointer =>
      match s.proposalHeap[pointer]? with
      | none => s
      | some proposal =>
          if addU64 proposal.receivedNumber
                (mulU64 proposal.validationLoopCnt s.config.maxSignerCount) < headerNumber ∨
              !s.isCandidate declare.declarer then s
          else if proposal.declares.any (fun v => v.declarer == declare.declarer) then s
          else
            { s with
              proposalHeap := s.proposalHeap.set pointer
                { proposal with declares := proposal.declares ++
                    [⟨declare.proposalHash, declare.declarer, declare.decision⟩] } }

def Snapshot.updateSnapshotByDeclares (s : Snapshot) (declares : List Declare)
    (headerNumber : Nat) : Snapshot :=
  declares.foldl (Snapshot.updateSnapshotByDeclare headerNumber) s

/-- The effect of a proposal that passed, by `ProposalType`. -/
def Snapshot.applyProposal (s : Snapshot) (proposal : Proposal) : Snapshot :=
  if proposal.proposalType = proposalTypeCandidateAdd then
    if candidateNeedPD then
      { s with candidates := s.candidates.insert proposal.targetAddress candidateStateNormal }
    else s
  else if proposal.proposalType = proposalTypeCandidateRemove then
    if s.isCandidate proposal.targetAddress && candidateNeedPD then
      { s with candidates := s.candidates.erase proposal.targetAddress }
    else s
  else if proposal.proposalType = proposalTypeMinerRewardDistributionModify then
    { s with minerReward := proposal.minerRewardPerThousand }
  else if proposal.proposalType = proposalTypeMinVoterBalanceModify then
    { s with minVB := proposal.minVoterBalance * 10 ^ 18 }
  else s

/-- One entry of the loop over `Proposals` in `calculateProposalResult`: a
proposal whose validation window closes at this header refunds its deposit,
is decided by the yes-declarers' tally against two thirds of the total tally,
and is removed. -/
def Snapshot.resolveProposal (headerNumber : Nat) (s : Snapshot) (entry : Σ _ : Hash, Nat) :
    Snapshot :=
  match s.proposalHeap[entry.2]? with
  | none => s
  | some proposal =>
      if addU64 (addU64 proposal.receivedNumber
            (mulU64 proposal.validationLoopCnt s.config.maxSignerCount)) 1 = headerNumber then
        let refunds := (s.proposalRefund.lookup headerNumber).getD ∅
        let refunds := refunds.insert proposal.proposer
          ((refunds.lookup proposal.proposer).getD 0 + proposal.currentDeposit)
        let judegmentStake := GoMap.sumOf (fun _ stake => stake) s.tally * 2 / 3
        let yesDeclareStake := (proposal.declares.map fun declare =>
          if declare.decision then (s.tally.lookup declare.declarer).getD 0 else 0).sum
        let s := { s with proposalRefund := s.proposalRefund.insert headerNumber refunds }
        let s := if yesDeclareStake > judegmentStake then s.applyProposal proposal else s
        { s with proposals := s.proposals.erase entry.1 }
      else s

def Snapshot.calculateProposalResult (s : Snapshot) (headerNumber : Nat) : Snapshot :=
  let expiredHeaderNumber :=
    subU64 headerNumber (mulU64 proposalRefundExpiredLoopCount s.config.maxSignerCount)
  let s := { s with proposalRefund := s.proposalRefund.erase expiredHeaderNumber }
  s.proposals.entries.foldl (Snapshot.resolveProposal headerNumber) s

/-- `removeExtraCandidate`: candidates ranked below `candidateMaxLen` lose
their candidacy. -/
def Snapshot.removeExtraCandidate (sortTally : GoSort TallyItem TallySlice.less)
    (s : Snapshot) : Snapshot :=
  let tallySlice := sortTally.run s.buildTallySlice
  if tallySlice.length > candidateMaxLen then
    { s with
      candidates := (tallySlice.drop candidateMaxLen).foldl
        (fun candidates item => candidates.erase item.addr) s.candidates }
  else s

/-- The votes `updateSnapshotForExpired` collects: voters whose vote is older
than an epoch, or below `MinVB` once there are more than 10000 voters. -/
def Snapshot.expiredVotes (s : Snapshot) (headerNumber : Nat) : List Vote :=
  let checkBalance := s.voters.size > maxUncheckBalanceVoteCount
  s.voters.entries.filterMap fun entry =>
    match s.votes.lookup entry.1 with
    | none => none
    | some expiredVote =>
        if subU64 headerNumber entry.2 > s.config.epoch ∨
            (checkBalance ∧ expiredVote.stake < s.minVB) then some expiredVote
        else none

/-- Remove one expired vote, with its stake, from the snapshot. -/
def Snapshot.removeExpiredVote (s : Snapshot) (expiredVote : Vote) : Snapshot :=
  let tally := match s.tally.lookup expiredVote.candidate with
    | some stake =>
        if stake - expiredVote.stake = 0 then s.tally.erase expiredVote.candidate
        else s.tally.insert expiredVote.candidate (stake - expiredVote.stake)
    | none => s.tally
  { s with
    tally := tally
    votes := s.votes.erase expiredVote.voter
    voters := s.voters.erase expiredVote.voter }

/-- `updateSnapshotForExpired`: expired votes go only while enough voters are
left, old confirmations go, and tallies that are not positive are pruned. -/
def Snapshot.updateSnapshotForExpired (s : Snapshot) (headerNumber : Nat) : Snapshot :=
  let expiredVotes := s.expiredVotes headerNumber
  let s := if s.voters.size - expiredVotes.length ≥ s.config.maxSignerCount then
      expiredVotes.foldl Snapshot.removeExpiredVote s
    else s
  let s := { s with
    confirmations := s.confirmations.filter fun blockNumber _ =>
      !decide (subU64 headerNumber blockNumber > s.config.maxSignerCount) }
  { s with tally := s.tally.filter fun _ stake => !decide (stake ≤ 0) }

/-- The stake the votes give each candidate, built as `verifyTallyCnt` does. -/
def Snapshot.tallyTarget (s : Snapshot) : GoMap Address Int :=
  s.votes.entries.foldl
    (fun target entry => target.insert entry.2.candidate
      ((target.lookup entry.2.candidate).getD 0 + entry.2.stake))
    ∅

def Snapshot.verifyTallyCnt (s : Snapshot) : Except DposError Unit :=
  if s.tally.entries.all (fun entry => s.tallyTarget.lookup entry.1 == some entry.2) then pure ()
  else throw .incorrectTallyCount

/-! ## `apply` -/

/-- `if len(HistoryHash) >= window { HistoryHash = HistoryHash[1:window] }`
followed by the append of the new hash. -/
def historyHashPush (window : Nat) (historyHash : List Hash) (hash : Hash) : List Hash :=
  (if historyHash.length ≥ window then (historyHash.take window).drop 1 else historyHash) ++ [hash]

section Apply
variable (sortTally : GoSort TallyItem TallySlice.less)

/-- The check of `removeExtraCandidate`, evaluated as Go's `&&` does. -/
def Snapshot.trimCandidates (s : Snapshot) : Except DposError Snapshot :=
  if !candidateNeedPD then do
    let position ← modU64 (s.number + 1) (mulU64 s.config.maxSignerCount s.lcrs)
    if position = 0 ∧ s.candidates.size > candidateMaxLen then
      pure (s.removeExtraCandidate sortTally)
    else pure s
  else pure s

/-- The fields `apply` takes from the header and its extra-data, and the new
hash pushed on the `HistoryHash` window. -/
def Snapshot.recordHeader (snap : Snapshot) (header : Header) (headerExtra : HeaderExtra) :
    Snapshot :=
  { snap with
    headerTime := header.time
    loopStartTime := headerExtra.loopStartTime
    signers := headerExtra.signerQueue
    confirmedNumber := headerExtra.confirmedBlockNumber
    historyHash := historyHashPush (2 * snap.config.maxSignerCount) snap.historyHash header.hash }

/-- The steps between the predecessor votes and the candidate trim: punishment,
proposals, declares, the period upgrade and the proposal results. -/
def Snapshot.settleHeader (snap : Snapshot) (header : Header) (headerExtra : HeaderExtra) :
    Snapshot :=
  let snap := snap.updateSnapshotForPunish headerExtra.signerMissing header.number header.coinbase
  let snap := snap.updateSnapshotByProposals headerExtra.currentBlockProposals header.number
  let snap := snap.updateSnapshotByDeclares headerExtra.currentBlockDeclares header.number
  let snap := if snap.period = 0 then { snap with period := snap.config.period } else snap
  snap.calculateProposalResult header.number

/-- The body of `apply`'s loop for one header. -/
def Snapshot.applyHeader (snap : Snapshot) (header : Header) : Except DposError Snapshot := do
  let coinbase ← match header.sealer with
    | some signer => pure signer
    | none => throw .ecrecoverFailed
  if coinbase ≠ header.coinbase then throw .unauthorized
  let headerExtra ← match header.extra with
    | some extra => pure extra
    | none => throw .decodeFailed
  let snap := (snap.recordHeader header headerExtra).updateSnapshotByConfirmations
    headerExtra.currentBlockConfirmations
  let snap ← snap.updateSnapshotByVotes headerExtra.currentBlockVotes header.number
  let snap ← snap.updateSnapshotByMPVotes headerExtra.modifyPredecessorVotes
  let snap ← (snap.settleHeader header headerExtra).trimCandidates sortTally
  pure (snap.updateSnapshotForExpired header.number)

/-- The sanity check of `apply`: each header follows the one before it. -/
def consecutive : List Header → Bool
  | first :: second :: rest => second.number == first.number + 1 && consecutive (second :: rest)
  | _ => true

/-- `apply`: an empty run returns the snapshot itself; otherwise the headers
are replayed on a copy, which then takes the last header's number and hash and
must pass `verifyTallyCnt`. -/
def Snapshot.apply (s : Snapshot) (headers : List Header) : Except DposError Snapshot :=
  match headers with
  | [] => pure s
  | first :: rest => do
      if !consecutive (first :: rest) then throw .invalidVotingChain
      if first.number ≠ s.number + 1 then throw .invalidVotingChain
      let snap ← (first :: rest).foldlM (Snapshot.applyHeader sortTally) s.copy
      let snap := { snap with
        number := snap.number + (first :: rest).length
        hash := ((first :: rest).getLast (List.cons_ne_nil first rest)).hash }
      snap.verifyTallyCnt
      pure snap

end Apply

end SimpleChain.Dpos
