import Mathlib
import SimpleChain.Dpos.Snapshot
import SimpleChain.Lib.Loop
import SimpleChain.Lib.Share

/-! # Block rewards (`accumulateRewards`, `calculateVoteReward`)

A block is worth the first-year reward `totalBlockReward / (2 * blockNumPerYear)`
halved once a year.  With voter rewards on, the miner keeps `MinerReward` per
thousand of it and the rest goes to the voters of the coinbase who voted before
the previous loop, pro rata to their stakes; gas refunds come out of the miner's
part.  Every share is rounded down, so nothing is minted beyond the block reward
(`accumulateRewards_bounded`), and the stake total is a divisor only when it is
positive.

The state's `AddBalance` calls are the credits `accumulateRewards` returns, by
kind and in the order it makes them. -/
set_option autoImplicit false

namespace SimpleChain.Dpos

def secondsPerYear : Nat := 365 * 24 * 3600

/-- `1e18 * 2.5e8` wei. -/
def totalBlockReward : Nat := 10 ^ 18 * 250000000

inductive RewardError where
  | allStakeMissing
  | panicNilDereference
  | panicDivideByZero
deriving DecidableEq, Repr

/-- The reward of the block at `number`: the first-year reward shifted right once a year. -/
def blockReward (period number : Nat) : Nat :=
  let blockNumPerYear := secondsPerYear / period
  (totalBlockReward / (2 * blockNumPerYear)) >>> (number / blockNumPerYear)

/-- The `AddBalance` calls of `accumulateRewards`, by kind, each list in the order made. -/
structure RewardCredits where
  voters : List (Address × Int)
  proposalRefunds : List (Address × Int)
  gasRefunds : List (Address × Int)
  coinbase : Option Int

/-- The loop of `calculateVoteReward` over `Votes`: the coinbase's voters that voted before the
previous loop, with their stakes, and the stakes' total. -/
def Snapshot.voteRewardStep (s : Snapshot) (coinbase : Address) (acc : GoMap Address Int × Int)
    (entry : Σ _ : Address, Vote) : Except RewardError (GoMap Address Int × Int) :=
  let vote := entry.2
  if vote.candidate = coinbase then
    -- `s.Voters[vote.Voter].Uint64()` on a missing entry dereferences nil
    match s.voters.lookup vote.voter with
    | none => .error .panicNilDereference
    | some since =>
      if since < subU64 s.number s.config.maxSignerCount then
        .ok (acc.1.insert entry.1 vote.stake, acc.2 + vote.stake)
      else .ok acc
  else .ok acc

def Snapshot.calculateVoteReward (s : Snapshot) (coinbase : Address) (votersReward : Int) :
    Except RewardError (List (Address × Int)) := do
  let (rewards, allStake) ← s.votes.entries.foldlM (s.voteRewardStep coinbase) (∅, 0)
  if allStake ≤ 0 ∧ rewards.entries.length > 0 then throw .allStakeMissing
  rewards.entries.mapM fun entry =>
    if allStake = 0 then throw .panicDivideByZero
    else pure (entry.1, entry.2 * votersReward / allStake)

def Snapshot.calculateProposalRefund (s : Snapshot) : GoMap Address Int :=
  (s.proposalRefund.lookup
    (subU64 s.number (mulU64 proposalRefundDelayLoopCount s.config.maxSignerCount))).getD ∅

def accumulateRewards (config : DPoSConfig) (number : Nat) (coinbase : Address) (snap : Snapshot)
    (refundGas : GoMap Address Int) : Except RewardError RewardCredits := do
  -- `secondsPerYear / Period` and the divisions by `blockNumPerYear` panic on zero
  if config.period = 0 ∨ secondsPerYear / config.period = 0 then throw .panicDivideByZero
  let blockReward : Int := blockReward config.period number
  let (minerReward, voters) ← if config.voterReward then do
      let minerReward := blockReward * snap.minerReward / 1000
      let voteRewards ← snap.calculateVoteReward coinbase (blockReward - minerReward)
      pure (minerReward, voteRewards)
    else pure (blockReward, [])
  let proposalRefunds := snap.calculateProposalRefund.entries.map fun e => (e.1, e.2)
  let gasRefunds := refundGas.entries.map fun e => (e.1, e.2)
  let minerReward := gasRefunds.foldl (fun reward gas => reward - gas.2) minerReward
  pure ⟨voters, proposalRefunds, gasRefunds, if minerReward > 0 then some minerReward else none⟩

/-! ## The voters' shares -/

/-- What the loop over `Votes` keeps: non-negative stakes whose sum is at most the total. -/
def StakeTotal (acc : GoMap Address Int × Int) : Prop :=
  (∀ k v, acc.1.lookup k = some v → 0 ≤ v) ∧ acc.1.sumOf (fun _ v => v) ≤ acc.2

theorem stakeTotal_insert {acc : GoMap Address Int × Int} (inv : StakeTotal acc) (k : Address)
    {stake : Int} (nonneg : 0 ≤ stake) : StakeTotal (acc.1.insert k stake, acc.2 + stake) := by
  obtain ⟨values, total⟩ := inv
  refine ⟨fun k' v found => ?_, ?_⟩
  · by_cases same : k' = k
    · subst same
      rw [AList.lookup_insert, Option.some.injEq] at found
      exact found ▸ nonneg
    · rw [AList.lookup_insert_ne same] at found
      exact values k' v found
  · -- overwriting a voter drops its old stake from the sum, never from the total
    have erased : GoMap.sumOf (fun _ v => v) (acc.1.erase k) ≤ acc.1.sumOf (fun _ v => v) := by
      cases present : acc.1.lookup k with
      | none => rw [GoMap.erase_of_lookup_none present]
      | some v =>
        have split := GoMap.sumOf_erase_add (f := fun _ v => v) present
        have stake := values k v present
        omega
    rw [GoMap.sumOf_insert]
    simp only at erased ⊢
    omega

theorem voteRewardStep_stakeTotal (s : Snapshot) (coinbase : Address)
    (stakes : ∀ entry ∈ s.votes.entries, 0 ≤ entry.2.stake) :
    ∀ acc entry acc', entry ∈ s.votes.entries → StakeTotal acc →
      s.voteRewardStep coinbase acc entry = .ok acc' → StakeTotal acc' := by
  intro acc entry acc' member inv step
  unfold Snapshot.voteRewardStep at step
  dsimp only at step
  split_ifs at step with forCoinbase
  · split at step
    · cases step
    · split_ifs at step
      · cases step
        exact stakeTotal_insert inv entry.1 (stakes entry member)
      · cases step
        exact inv
  · cases step
    exact inv

theorem voteRewardStep_error {s : Snapshot} {coinbase : Address} {acc : GoMap Address Int × Int}
    {entry : Σ _ : Address, Vote} {e : RewardError} (failed : s.voteRewardStep coinbase acc entry = .error e) :
    e = .panicNilDereference := by
  unfold Snapshot.voteRewardStep at failed
  dsimp only at failed
  split at failed
  · split at failed
    · cases failed
      rfl
    · split at failed <;> cases failed
  · cases failed

/-- The division by the stake total is reached only with a positive total or no voter. -/
theorem shares_ok {rewards : GoMap Address Int} {allStake : Int}
    (passed : ¬ (allStake ≤ 0 ∧ rewards.entries.length > 0)) (votersReward : Int) :
    (rewards.entries.mapM fun entry =>
      if allStake = 0 then (throw .panicDivideByZero : Except RewardError (Address × Int))
      else pure (entry.1, entry.2 * votersReward / allStake)) =
      .ok (rewards.entries.map fun entry => (entry.1, entry.2 * votersReward / allStake)) := by
  have each : ∀ entry ∈ rewards.entries, ∃ share,
      (if allStake = 0 then (throw .panicDivideByZero : Except RewardError (Address × Int))
        else pure (entry.1, entry.2 * votersReward / allStake)) = .ok share ∧
      id share = (entry.1, entry.2 * votersReward / allStake) := by
    intro entry member
    have positive : allStake ≠ 0 := by
      have := List.length_pos_of_mem member
      omega
    exact ⟨_, by rw [if_neg positive]; rfl, rfl⟩
  obtain ⟨out, ok, shares⟩ := GoLoop.mapM_ok_of_forall _ id _ rewards.entries each
  rw [ok, ← shares, List.map_id]

/-- The voters get non-negative shares adding up to at most the voters' reward, and no
division by zero is ever reached. -/
theorem Snapshot.calculateVoteReward_spec (s : Snapshot) (coinbase : Address) (votersReward : Int)
    (stakes : ∀ entry ∈ s.votes.entries, 0 ≤ entry.2.stake) (nonneg : 0 ≤ votersReward) :
    ∀ credits, s.calculateVoteReward coinbase votersReward = .ok credits →
      (∀ credit ∈ credits, 0 ≤ credit.2) ∧ (credits.map (·.2)).sum ≤ votersReward := by
  intro credits returned
  obtain ⟨⟨rewards, allStake⟩, loop, rest⟩ := GoLoop.bind_eq_ok.mp returned
  have inv : StakeTotal (rewards, allStake) :=
    GoLoop.foldlM_invariant StakeTotal _ _ _ _ (voteRewardStep_stakeTotal s coinbase stakes)
      ⟨fun _ _ found => by simp at found, le_refl _⟩ loop
  obtain ⟨values, total⟩ := inv
  simp only at values total
  simp only at rest
  by_cases missing : allStake ≤ 0 ∧ rewards.entries.length > 0
  · rw [if_pos missing] at rest
    simp [throw, throwThe, MonadExceptOf.throw, bind, Except.bind] at rest
  · rw [if_neg missing, shares_ok missing, Except.ok.injEq] at rest
    subst rest
    refine ⟨fun credit member => ?_, ?_⟩
    · obtain ⟨entry, inRewards, rfl⟩ := List.mem_map.mp member
      have stake := values entry.1 entry.2 (AList.mem_lookup_iff.mpr inRewards)
      have atMost := GoMap.le_sumOf values (AList.mem_lookup_iff.mpr inRewards)
      exact Share.share_nonneg stake nonneg (by omega)
    · rw [List.map_map]
      by_cases empty : rewards.entries = []
      · simp [empty, nonneg]
      · have positive : 0 < allStake := by
          have := List.length_pos_of_ne_nil empty
          omega
        unfold GoMap.sumOf at total
        have shares := Share.sum_shares_le (l := rewards.entries.map (·.2)) nonneg positive total
        simpa [List.map_map, Function.comp_def] using shares

theorem Snapshot.calculateVoteReward_ne_divideByZero (s : Snapshot) (coinbase : Address)
    (votersReward : Int) : s.calculateVoteReward coinbase votersReward ≠ .error .panicDivideByZero := by
  intro failed
  rcases GoLoop.bind_eq_error.mp failed with loopFailed | ⟨⟨rewards, allStake⟩, -, rest⟩
  · obtain ⟨acc, entry, -, step⟩ := GoLoop.foldlM_error _ _ _ _ loopFailed
    exact absurd (voteRewardStep_error step) (by decide)
  · simp only at rest
    by_cases missing : allStake ≤ 0 ∧ rewards.entries.length > 0
    · rw [if_pos missing] at rest
      simp [throw, throwThe, MonadExceptOf.throw, bind, Except.bind] at rest
    · rw [if_neg missing, shares_ok missing] at rest
      cases rest

/-! ## The block's credits -/

/-- Gas refunds only lower the miner's part. -/
theorem foldl_refunds_le (gasRefunds : List (Address × Int)) (refunds : ∀ gas ∈ gasRefunds, 0 ≤ gas.2)
    (reward : Int) : gasRefunds.foldl (fun reward gas => reward - gas.2) reward ≤ reward := by
  induction gasRefunds generalizing reward with
  | nil => exact le_refl _
  | cons gas rest ih =>
    have first := refunds gas List.mem_cons_self
    have later := ih (fun g member => refunds g (List.mem_cons_of_mem gas member)) (reward - gas.2)
    rw [List.foldl_cons]
    omega

/-- The coinbase is credited what is left of a non-negative miner's part after the refunds,
when that is positive: never more than the part. -/
theorem coinbase_credit_le (gasRefunds : List (Address × Int)) (refunds : ∀ gas ∈ gasRefunds, 0 ≤ gas.2)
    {reward : Int} (nonneg : 0 ≤ reward) :
    (if gasRefunds.foldl (fun reward gas => reward - gas.2) reward > 0 then
      some (gasRefunds.foldl (fun reward gas => reward - gas.2) reward) else none).getD 0 ≤ reward := by
  have lowered := foldl_refunds_le gasRefunds refunds reward
  split_ifs
  · exact lowered
  · exact nonneg

/-- With `MinerReward` at most a thousand, non-negative stakes and non-negative gas refunds,
every voter is credited a non-negative amount, the voters' credits add up to at most the block
reward less the miner's share, and with the coinbase's credit to at most the block reward; the
voters' shares never divide by zero. -/
theorem accumulateRewards_bounded (config : DPoSConfig) (number : Nat) (coinbase : Address)
    (snap : Snapshot) (refundGas : GoMap Address Int) (minerShare : snap.minerReward ≤ 1000)
    (stakes : ∀ entry ∈ snap.votes.entries, 0 ≤ entry.2.stake)
    (refunds : ∀ entry ∈ refundGas.entries, 0 ≤ entry.2) :
    (∀ votersReward, snap.calculateVoteReward coinbase votersReward ≠ .error .panicDivideByZero) ∧
      ∀ credits, accumulateRewards config number coinbase snap refundGas = .ok credits →
        (∀ credit ∈ credits.voters, 0 ≤ credit.2) ∧
        (credits.voters.map (·.2)).sum ≤
          (blockReward config.period number : Int) -
            (blockReward config.period number : Int) * snap.minerReward / 1000 ∧
        (credits.voters.map (·.2)).sum + credits.coinbase.getD 0 ≤ (blockReward config.period number : Int) := by
  refine ⟨snap.calculateVoteReward_ne_divideByZero coinbase, fun credits returned => ?_⟩
  -- the block reward and the miner's per-thousand share of it
  have rewardNonneg : (0 : Int) ≤ blockReward config.period number := Int.natCast_nonneg _
  have shareLe : (blockReward config.period number : Int) * snap.minerReward ≤
      (blockReward config.period number : Int) * 1000 := by
    exact_mod_cast Nat.mul_le_mul_left _ minerShare
  have shareNonneg : (0 : Int) ≤ (blockReward config.period number : Int) * snap.minerReward :=
    Int.mul_nonneg rewardNonneg (Int.natCast_nonneg _)
  have gasNonneg : ∀ gas ∈ refundGas.entries.map (fun e => (e.1, e.2)), 0 ≤ gas.2 := by
    intro gas member
    obtain ⟨entry, inRefunds, rfl⟩ := List.mem_map.mp member
    exact refunds entry inRefunds
  unfold accumulateRewards at returned
  by_cases broken : config.period = 0 ∨ secondsPerYear / config.period = 0
  · rw [if_pos broken] at returned
    simp [throw, throwThe, MonadExceptOf.throw, bind, Except.bind] at returned
  rw [if_neg broken] at returned
  dsimp only at returned
  by_cases voterReward : config.voterReward = true
  · -- the miner keeps its share and the voters split the rest
    rw [if_pos voterReward] at returned
    obtain ⟨voteRewards, shares, rest⟩ := GoLoop.bind_eq_ok.mp returned
    simp only [pure, Except.pure, GoLoop.ok_bind, Except.ok.injEq] at rest
    subst rest
    dsimp only
    obtain ⟨nonneg, bounded⟩ := snap.calculateVoteReward_spec coinbase _ stakes (by omega) _ shares
    have minerLe := coinbase_credit_le _ gasNonneg (show 0 ≤ (blockReward config.period number : Int) * snap.minerReward / 1000 by omega)
    exact ⟨nonneg, bounded, by omega⟩
  · -- the miner keeps the whole reward
    rw [if_neg voterReward] at returned
    simp only [pure, Except.pure, GoLoop.ok_bind, Except.ok.injEq] at returned
    subst returned
    dsimp only
    have minerLe := coinbase_credit_le _ gasNonneg rewardNonneg
    simp only [List.not_mem_nil, false_implies, implies_true, List.map_nil, List.sum_nil, true_and,
      Int.zero_add]
    omega

/-- A chain with voter rewards on, three-second blocks and one signer a loop. -/
def rewardConfig : DPoSConfig where
  period := 3
  epoch := 201600
  maxSignerCount := 1
  minVoterBalance := 0
  genesisTimestamp := 0
  selfVoteSigners := [1#160]
  voterReward := true
  maxSignerCount_pos := Nat.one_pos

/-- Signer 1 with its own stake and two more voters for it. -/
def votedSnapshot : Snapshot :=
  newSnapshot rewardConfig 0#256 [⟨1#160, 1#160, 5⟩, ⟨3#160, 1#160, 7⟩, ⟨4#160, 1#160, 2⟩] 1 0

/-- Gas refunds owed to the coinbase and to another address. -/
def refundedGas : GoMap Address Int := ((∅ : GoMap Address Int).insert 1#160 300).insert 5#160 200

theorem accumulateRewards_bounded_of_three_voters :
    votedSnapshot.minerReward ≤ 1000 ∧
      (∀ entry ∈ votedSnapshot.votes.entries, 0 ≤ entry.2.stake) ∧
      (∀ entry ∈ refundedGas.entries, 0 ≤ entry.2) ∧
      (accumulateRewards rewardConfig 7 1#160 votedSnapshot refundedGas).toOption.map
          (fun credits => (credits.voters, credits.coinbase)) =
        some ([(1#160, 1622295607740813220), (3#160, 2271213850837138508), (4#160, 648918243096325288)],
          some 7348744292237442422) ∧
      ((∀ votersReward, votedSnapshot.calculateVoteReward 1#160 votersReward ≠ .error .panicDivideByZero) ∧
        ∀ credits, accumulateRewards rewardConfig 7 1#160 votedSnapshot refundedGas = .ok credits →
          (∀ credit ∈ credits.voters, 0 ≤ credit.2) ∧
          (credits.voters.map (·.2)).sum ≤
            (blockReward rewardConfig.period 7 : Int) - (blockReward rewardConfig.period 7 : Int) *
              votedSnapshot.minerReward / 1000 ∧
          (credits.voters.map (·.2)).sum + credits.coinbase.getD 0 ≤ (blockReward rewardConfig.period 7 : Int)) :=
  ⟨by decide, by decide, by decide, by decide +kernel,
    accumulateRewards_bounded rewardConfig 7 1#160 _ _ (by decide) (by decide) (by decide)⟩

end SimpleChain.Dpos
