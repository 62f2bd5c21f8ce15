import Mathlib
import SimpleChain.Lib.Share

/-! # Rewards and difficulty of the scrypt engine (`consensus/scrypt/consensus.go`, and the raft engine's rewards in `consensus/raft/raft.go`)

A block at number `n` is worth `BlockReward` halved once every `BlockAttenuation`
blocks.  `calculateFoundationRewards` is given that reward and takes 5% of it for the
foundation, but it divides by the same power of two a second time: from the second
halving era on the foundation gets 5% of the reward over `2 ^ era`.  The rest of the
accounting is exact: coinbase and foundation share the block reward, each uncle adds
a 32nd of it to the coinbase and pays its own coinbase `(u + 8 - n) / 8` of it.

The difficulty of a block `dt` seconds after its parent is the parent's difficulty `D`
plus `3 D dt² / 10⁸`, minus `8 D dt / 10⁵`, plus `D / 1000` (twice that when the parent
has uncles), each term rounded down, `dt` capped at 900 and the result at least 5000.
On `[0, 900]` the real polynomial decreases, but the two roundings can lift the value
by one when `dt` grows by one (`difficulty_rises_after_longer_wait`): waiting longer
raises the difficulty by at most one, and not at all once `D ≥ 76835`.

The state's `AddBalance` calls are the credits `accumulateRewards` returns, in the
order made.  Block numbers and times are `Nat` (`uint64`, never negative here), and
the `big.Int` divisions are Euclidean, Lean's `/` on `Int`. -/
set_option autoImplicit false

namespace SimpleChain.Scrypt

abbrev Address := BitVec 160

/-- `params.FoundationAddress`. -/
def foundationAddress : Address := 0x992ec45ae0d2d2fcf97f4417cfd3f80505862fbc#160

/-- `BlockReward`: `1e18 * 20` wei. -/
def blockReward : Nat := 10 ^ 18 * 20

/-- `BlockAttenuation`: the reward halves every this many blocks. -/
def blockAttenuation : Nat := 2500000

abbrev Hash := BitVec 256

/-- The fields of a header that the rewards and the difficulty read. -/
structure Header where
  uncleHash : Hash
  coinbase : Address
  difficulty : Int
  number : Nat
  time : Nat

/-- `types.EmptyUncleHash`, the hash of the empty uncle list. -/
def emptyUncleHash : Hash := 0x1dcc4de8dec75d7aab85b567b6ccd41ad312451b948a7413f0a142fd40d49347#256

def calculateFixedRewards (blockNumber : Nat) : Nat :=
  if 0 < blockNumber then blockReward / 2 ^ (blockNumber / blockAttenuation) else blockReward

def calculateFoundationRewards (blockNumber : Nat) (blockReward : Nat) : Nat :=
  let foundation := blockReward * 5
  let foundation :=
    if 0 < blockNumber then foundation / 2 ^ (blockNumber / blockAttenuation) else foundation
  foundation / 100

/-- One pass of the uncle loop: the one `r` is first the uncle's reward, then the
coinbase's reward for including it. -/
def uncleStep (header : Header) (blockReward : Int) (acc : List (Address × Int) × Int)
    (uncle : Header) : List (Address × Int) × Int :=
  let r := ((uncle.number : Int) + 8 - header.number) * blockReward / 8
  let credits := acc.1 ++ [(uncle.coinbase, r)]
  let r := blockReward / 32
  (credits, acc.2 + r)

def accumulateRewards (header : Header) (uncles : List Header) : List (Address × Int) :=
  let blockReward := calculateFixedRewards header.number
  let (credits, uncleReward) := uncles.foldl (uncleStep header blockReward) ([], 0)
  let foundation := calculateFoundationRewards header.number blockReward
  let coinbaseReward := (blockReward : Int) - foundation + uncleReward
  credits ++ [(header.coinbase, coinbaseReward), (foundationAddress, foundation)]

/-- The halving era of a block. -/
def era (blockNumber : Nat) : Nat := blockNumber / blockAttenuation

theorem calculateFixedRewards_eq (n : Nat) : calculateFixedRewards n = blockReward / 2 ^ era n := by
  unfold calculateFixedRewards era
  split
  · rfl
  · have zero : n = 0 := by omega
    simp [zero]

theorem calculateFoundationRewards_eq (n reward : Nat) :
    calculateFoundationRewards n reward = reward * 5 / 2 ^ era n / 100 := by
  unfold calculateFoundationRewards era
  split
  · rfl
  · have zero : n = 0 := by omega
    simp [zero]

/-- What an uncle at `u` is paid for a block at `n`. -/
def uncleReward (n u : Nat) (blockReward : Int) : Int := ((u : Int) + 8 - n) * blockReward / 8

theorem foldl_uncleStep (header : Header) (blockReward : Int) :
    ∀ (uncles : List Header) (credits : List (Address × Int)) (acc : Int),
      uncles.foldl (uncleStep header blockReward) (credits, acc) =
        (credits ++ uncles.map (fun u => (u.coinbase, uncleReward header.number u.number blockReward)),
          acc + uncles.length * (blockReward / 32))
  | [], credits, acc => by simp
  | uncle :: uncles, credits, acc => by
    rw [List.foldl_cons, uncleStep, foldl_uncleStep header blockReward uncles]
    simp only [List.map_cons, List.append_assoc, List.singleton_append, List.length_cons, uncleReward]
    push_cast
    ring_nf

/-- The credits of a block: each uncle's, then the coinbase's and the foundation's. -/
theorem accumulateRewards_eq (header : Header) (uncles : List Header) :
    accumulateRewards header uncles =
      uncles.map (fun u => (u.coinbase, uncleReward header.number u.number (calculateFixedRewards header.number))) ++
        [(header.coinbase, (calculateFixedRewards header.number : Int) -
            calculateFoundationRewards header.number (calculateFixedRewards header.number) +
            uncles.length * ((calculateFixedRewards header.number : Int) / 32)),
          (foundationAddress, calculateFoundationRewards header.number (calculateFixedRewards header.number))] := by
  rw [accumulateRewards]
  dsimp only
  rw [foldl_uncleStep, List.nil_append, zero_add]

/-- An uncle at most seven generations older than the block is paid a non-negative amount. -/
theorem uncleReward_nonneg {n u : Nat} (recent : n ≤ u + 7) (reward : Nat) :
    0 ≤ uncleReward n u reward := by
  unfold uncleReward
  apply Int.ediv_nonneg _ (by norm_num)
  apply mul_nonneg _ (Int.natCast_nonneg reward)
  omega

/-- The foundation's credit against 5% of the era's block reward, the share
`calculateFoundationRewards` takes before its era division, at the first block of the second
era: the reward it is given is already halved once and is halved again. -/
theorem foundation_share_halved_twice (header : Header) :
    accumulateRewards { header with number := 2500000 } [] =
        [(header.coinbase, 9750000000000000000), (foundationAddress, 250000000000000000)] ∧
      calculateFixedRewards 2500000 * 5 / 100 = 500000000000000000 := by
  constructor
  · rw [accumulateRewards_eq, calculateFixedRewards_eq, calculateFoundationRewards_eq]
    norm_num [era, blockReward, blockAttenuation]
  · rw [calculateFixedRewards_eq]
    norm_num [era, blockReward, blockAttenuation]

/-! ## Difficulty -/

def calcDifficultySimpleChain (time : Nat) (parent : Header) : Int :=
  let yUncle : Int := if parent.uncleHash = emptyUncleHash then 1 else 2
  let x : Int := (time : Int) - parent.time
  let timeDiff : Int := if 900 < x then 900 else x
  let y1 := timeDiff * timeDiff * parent.difficulty * 3 / 100000000
  let y2 := parent.difficulty * timeDiff * 8 / 100000
  let y3 := parent.difficulty * yUncle / 1000
  let yn := parent.difficulty + y1 - y2 + y3
  if yn < 5000 then 5000 else yn

/-- The difficulty before the floor of 5000, `x` seconds after the parent. -/
def adjusted (difficulty yUncle x : Int) : Int :=
  difficulty + x * x * difficulty * 3 / 100000000 - difficulty * x * 8 / 100000 +
    difficulty * yUncle / 1000

theorem calcDifficultySimpleChain_eq {time : Nat} {parent : Header} (within : time ≤ parent.time + 900) :
    calcDifficultySimpleChain time parent =
      max 5000 (adjusted parent.difficulty (if parent.uncleHash = emptyUncleHash then 1 else 2)
        ((time : Int) - parent.time)) := by
  have uncapped : ¬ (900 < (time : Int) - parent.time) := by omega
  rw [calcDifficultySimpleChain, if_neg uncapped, adjusted]
  split <;> omega

/-- `8 D x / 10⁵` is `8000 D x / 10⁸`: both terms are floors over the same divisor. -/
theorem linear_term_eq (difficulty x : Int) :
    difficulty * x * 8 / 100000 = difficulty * x * 8000 / 100000000 := by
  rw [show difficulty * x * 8000 = 1000 * (difficulty * x * 8) by ring,
    show (100000000 : Int) = 1000 * 100000 by norm_num, Int.mul_ediv_mul_of_pos _ _ (by norm_num)]

/-- Between two waits in `[0, 900]` the linear term grows more than the quadratic one, by at
least `2603 D` per second of difference. -/
theorem quadratic_gap {difficulty x₁ x₂ : Int} (hD : 0 ≤ difficulty) (early : 0 ≤ x₁) (later : x₁ < x₂)
    (within : x₂ ≤ 900) :
    2603 * difficulty ≤ difficulty * x₂ * 8000 - difficulty * x₁ * 8000 -
      (x₂ * x₂ * difficulty * 3 - x₁ * x₁ * difficulty * 3) := by
  have gap : difficulty * x₂ * 8000 - difficulty * x₁ * 8000 - (x₂ * x₂ * difficulty * 3 - x₁ * x₁ * difficulty * 3) =
      difficulty * ((x₂ - x₁) * (8000 - 3 * (x₁ + x₂))) := by ring
  have spread : (1 : Int) * 2603 ≤ (x₂ - x₁) * (8000 - 3 * (x₁ + x₂)) :=
    mul_le_mul (by omega) (by omega) (by norm_num) (by omega)
  rw [gap]
  nlinarith

theorem adjusted_le_succ {difficulty yUncle x₁ x₂ : Int} (positive : 0 < difficulty) (early : 0 ≤ x₁)
    (later : x₁ < x₂) (within : x₂ ≤ 900) :
    adjusted difficulty yUncle x₂ ≤ adjusted difficulty yUncle x₁ + 1 := by
  have gap := quadratic_gap positive.le early later within
  have floors := Share.floor_growth_le_succ (x₁ * x₁ * difficulty * 3) (x₂ * x₂ * difficulty * 3)
    (difficulty * x₁ * 8000) (difficulty * x₂ * 8000) (show (0 : Int) < 100000000 by norm_num) (by omega)
  unfold adjusted
  rw [linear_term_eq difficulty x₁, linear_term_eq difficulty x₂]
  omega

theorem adjusted_le {difficulty yUncle x₁ x₂ : Int} (hard : 76835 ≤ difficulty) (early : 0 ≤ x₁)
    (later : x₁ < x₂) (within : x₂ ≤ 900) :
    adjusted difficulty yUncle x₂ ≤ adjusted difficulty yUncle x₁ := by
  have gap := quadratic_gap (show 0 ≤ difficulty by omega) early later within
  have floors := Share.floor_growth_le (x₁ * x₁ * difficulty * 3) (x₂ * x₂ * difficulty * 3)
    (difficulty * x₁ * 8000) (difficulty * x₂ * 8000) (show (0 : Int) < 100000000 by norm_num) (by omega)
  unfold adjusted
  rw [linear_term_eq difficulty x₁, linear_term_eq difficulty x₂]
  omega

theorem calcDifficulty_interval_monotone (parent : Header) (t₁ t₂ : Nat) (hard : 5000 ≤ parent.difficulty)
    (after : parent.time < t₁) (later : t₁ < t₂) (within : t₂ ≤ parent.time + 900) :
    calcDifficultySimpleChain t₂ parent ≤ calcDifficultySimpleChain t₁ parent + 1 ∧
      (76835 ≤ parent.difficulty → calcDifficultySimpleChain t₂ parent ≤ calcDifficultySimpleChain t₁ parent) := by
  rw [calcDifficultySimpleChain_eq within, calcDifficultySimpleChain_eq (by omega)]
  have early : (0 : Int) ≤ (t₁ : Int) - parent.time := by omega
  have gap : (t₁ : Int) - parent.time < (t₂ : Int) - parent.time := by omega
  have bounded : (t₂ : Int) - parent.time ≤ 900 := by omega
  generalize (if parent.uncleHash = emptyUncleHash then 1 else 2 : Int) = yUncle
  constructor
  · have step : adjusted parent.difficulty yUncle _ ≤ adjusted parent.difficulty yUncle _ + 1 :=
      adjusted_le_succ (show 0 < parent.difficulty by omega) early gap bounded
    omega
  · intro veryHard
    have step : adjusted parent.difficulty yUncle _ ≤ adjusted parent.difficulty yUncle _ :=
      adjusted_le veryHard early gap bounded
    omega

/-- A parent of difficulty 5027 with no uncles: a block 82 seconds after it needs one more unit of
difficulty than a block 81 seconds after it. -/
theorem difficulty_rises_after_longer_wait :
    calcDifficultySimpleChain 81 ⟨emptyUncleHash, 0, 5027, 0, 0⟩ = 5000 ∧
      calcDifficultySimpleChain 82 ⟨emptyUncleHash, 0, 5027, 0, 0⟩ = 5001 := by
  decide

theorem calcDifficulty_interval_monotone_at_5027 :
    5000 ≤ (5027 : Int) ∧ 0 < 81 ∧ 81 < 82 ∧ 82 ≤ 0 + 900 ∧
      calcDifficultySimpleChain 82 ⟨emptyUncleHash, 0, 5027, 0, 0⟩ ≤
        calcDifficultySimpleChain 81 ⟨emptyUncleHash, 0, 5027, 0, 0⟩ + 1 :=
  ⟨by norm_num, by norm_num, by norm_num, by norm_num,
    (calcDifficulty_interval_monotone ⟨emptyUncleHash, 0, 5027, 0, 0⟩ 81 82 (by norm_num) (by norm_num)
      (by norm_num) (by norm_num)).1⟩

end SimpleChain.Scrypt

namespace SimpleChain.Raft

open Scrypt

/-- The raft engine's copy of `calculateFixedRewards`. -/
def calculateFixedRewards (blockNumber : Nat) : Nat := Scrypt.calculateFixedRewards blockNumber

/-- The raft engine's copy of `calculateFoundationRewards`. -/
def calculateFoundationRewards (blockNumber blockReward : Nat) : Nat :=
  Scrypt.calculateFoundationRewards blockNumber blockReward

/-- The raft engine's `accumulateRewards`: no uncles. -/
def accumulateRewards (header : Header) : List (Scrypt.Address × Int) :=
  let blockReward := calculateFixedRewards header.number
  let foundation := calculateFoundationRewards header.number blockReward
  [(header.coinbase, (blockReward : Int) - foundation), (foundationAddress, foundation)]

theorem accumulateRewards_eq_scrypt (header : Header) :
    accumulateRewards header = Scrypt.accumulateRewards header [] := by
  rw [Scrypt.accumulateRewards_eq, accumulateRewards, calculateFixedRewards, calculateFoundationRewards]
  simp

end SimpleChain.Raft
