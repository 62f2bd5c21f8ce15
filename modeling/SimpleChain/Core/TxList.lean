import Mathlib
import SimpleChain.Core.TxSortedMap

/-! # The per-account transaction list

`txList` (`core/tx_list.go`) is a `txSortedMap` with a mode and two caps: `costcap` and `gascap`
are at least the cost and the gas of every transaction the list holds.  `Add` raises them and
`Filter` lowers them to its limits after dropping what exceeds them.  `Filter` trusts them: when
both are within its limits it returns at once.  In strict mode the list is meant to hold a run of
consecutive nonces, so `Filter` and `Remove` also drop everything above the lowest nonce they
took out.

The caps cover the list after every sequence of calls, so the early return of `Filter` drops
nothing it should have dropped; in strict mode `Filter` and `Remove` leave a prefix of a run. -/
set_option autoImplicit false

namespace SimpleChain.Core

structure TxList where
  strict : Bool
  txs : TxSortedMap
  costcap : ℤ
  gascap : ℕ

def newTxList (strict : Bool) : TxList := ⟨strict, newTxSortedMap, 0, 0⟩

namespace TxList

section Methods
variable (sortNonces : GoSort ℕ nonceLess) (sortTxs : GoSort Transaction txByNonceLess)

def overlaps (l : TxList) (tx : Transaction) : Bool := (l.txs.get tx.nonce).isSome

/-- Whether `Add` refuses `tx` over the `old` transaction of its nonce: unless the new gas price is
above the old one and at least `priceBump` percent above it.  `big.NewInt(100+int64(priceBump))`
reads the bump as an `int64`. -/
def underpriced (old tx : Transaction) (priceBump : ℕ) : Bool :=
  let threshold := old.gasPrice * Int.bmod (100 + priceBump) (2 ^ 64) / 100
  decide (old.gasPrice ≥ tx.gasPrice) || decide (threshold > tx.gasPrice)

/-- `Add(tx, priceBump)`: whether `tx` went in, and the transaction it replaced. -/
def add (l : TxList) (tx : Transaction) (priceBump : ℕ) : TxList × Bool × Option Transaction :=
  let old := l.txs.get tx.nonce
  if old.any (fun old => underpriced old tx priceBump) then (l, false, none)
  else
    ({ l with
        txs := l.txs.put tx
        costcap := if l.costcap < tx.cost then tx.cost else l.costcap
        gascap := if l.gascap < tx.gas then tx.gas else l.gascap },
      true, old)

def forward (l : TxList) (threshold : ℕ) : Option (TxList × List (Option Transaction)) :=
  (l.txs.forward threshold).map fun result => ({ l with txs := result.1 }, result.2)

/-- The lowest nonce of `removed`, from `math.MaxUint64` down. -/
def lowestNonce (removed : List Transaction) : ℕ :=
  removed.foldl (fun lowest tx => if lowest > tx.nonce then tx.nonce else lowest) (2 ^ 64 - 1)

/-- `Filter(costLimit, gasLimit)`: the transactions dropped over the limits, and in strict mode
the ones above the lowest of them. -/
def filter (l : TxList) (costLimit : ℤ) (gasLimit : ℕ) : TxList × List Transaction × List Transaction :=
  if l.costcap ≤ costLimit ∧ l.gascap ≤ gasLimit then (l, [], [])
  else
    let filtered := l.txs.filter fun tx => decide (tx.cost > costLimit) || decide (tx.gas > gasLimit)
    if l.strict ∧ filtered.2.length > 0 then
      let invalid := filtered.1.filter fun tx => decide (tx.nonce > lowestNonce filtered.2)
      ({ l with txs := invalid.1, costcap := costLimit, gascap := gasLimit }, filtered.2, invalid.2)
    else ({ l with txs := filtered.1, costcap := costLimit, gascap := gasLimit }, filtered.2, [])

def cap (l : TxList) (threshold : ℤ) : Option (TxList × List (Option Transaction)) :=
  (l.txs.cap sortNonces threshold).map fun result => ({ l with txs := result.1 }, result.2)

/-- `Remove(tx)`: whether its nonce was held, and in strict mode the transactions above it. -/
def remove (l : TxList) (tx : Transaction) : TxList × Bool × List Transaction :=
  let removed := l.txs.remove tx.nonce
  if !removed.2 then ({ l with txs := removed.1 }, false, [])
  else if l.strict then
    let invalid := removed.1.filter fun tx' => decide (tx'.nonce > tx.nonce)
    ({ l with txs := invalid.1 }, true, invalid.2)
  else ({ l with txs := removed.1 }, true, [])

def ready (l : TxList) (start : ℕ) : TxList × List (Option Transaction) :=
  let result := l.txs.ready start
  ({ l with txs := result.1 }, result.2)

def len (l : TxList) : ℕ := l.txs.len

def empty (l : TxList) : Bool := l.len == 0

def flatten (l : TxList) : TxList × List Transaction :=
  let result := l.txs.flatten sortTxs
  ({ l with txs := result.1 }, result.2)

end Methods

/-- The methods that change the list. -/
inductive Op
  | add (tx : Transaction) (priceBump : ℕ)
  | forward (threshold : ℕ)
  | filter (costLimit : ℤ) (gasLimit : ℕ)
  | cap (threshold : ℤ)
  | remove (tx : Transaction)
  | ready (start : ℕ)
  | flatten

section Run
variable (sortNonces : GoSort ℕ nonceLess) (sortTxs : GoSort Transaction txByNonceLess)

/-- One method call; `none` is a panic. -/
def step (l : TxList) : Op → Option TxList
  | .add tx priceBump => some (l.add tx priceBump).1
  | .forward threshold => (l.forward threshold).map Prod.fst
  | .filter costLimit gasLimit => some (l.filter costLimit gasLimit).1
  | .cap threshold => (l.cap sortNonces threshold).map Prod.fst
  | .remove tx => some (l.remove tx).1
  | .ready start => some (l.ready start).1
  | .flatten => some (l.flatten sortTxs).1

/-- A sequence of calls on a list. -/
def run (ops : List Op) (l : TxList) : Option TxList := ops.foldlM (step sortNonces sortTxs) l

end Run

/-! ## The caps cover the list -/

/-- `costcap` and `gascap` bound the cost and the gas of every transaction held. -/
def CapsCover (l : TxList) : Prop :=
  ∀ n tx, l.txs.items.lookup n = some tx → tx.cost ≤ l.costcap ∧ tx.gas ≤ l.gascap

/-- What every list the methods build keeps: a valid map, covered by the caps. -/
structure Built (l : TxList) : Prop where
  valid : l.txs.Valid
  caps : l.CapsCover

/-- The list holds exactly the nonces `first`, …, `last - 1`. -/
def NoncesFrom (l : TxList) (first last : ℕ) : Prop :=
  ∀ n, n ∈ l.txs.items.keys ↔ first ≤ n ∧ n < last

section Lemmas
variable (sortNonces : GoSort ℕ nonceLess) (sortTxs : GoSort Transaction txByNonceLess)
variable {l : TxList}

theorem lookup_of_equiv_filter {items items' : GoMap ℕ Transaction} {p : ℕ → Transaction → Bool}
    (same : items'.Equiv (items.filter p)) {n : ℕ} {tx : Transaction} (found : items'.lookup n = some tx) :
    items.lookup n = some tx ∧ p n tx = true := by
  rwa [same n, GoMap.lookup_filter, Option.filter_eq_some_iff] at found

/-- A map holding only transactions of a covered list is covered by the same caps. -/
theorem CapsCover.of_subset (cover : l.CapsCover) {txs : TxSortedMap}
    (subset : ∀ n tx, txs.items.lookup n = some tx → l.txs.items.lookup n = some tx) :
    ({ l with txs } : TxList).CapsCover :=
  fun n tx found => cover n tx (subset n tx found)

/-- What `Filter` leaves when it does not return early: transactions of the list within both
limits. -/
theorem lookup_filter_of_over (costLimit : ℤ) (gasLimit : ℕ) (exceeded : ¬(l.costcap ≤ costLimit ∧ l.gascap ≤ gasLimit))
    {n : ℕ} {tx : Transaction} (found : (l.filter costLimit gasLimit).1.txs.items.lookup n = some tx) :
    l.txs.items.lookup n = some tx ∧ tx.cost ≤ costLimit ∧ tx.gas ≤ gasLimit := by
  have within : ∀ {n tx}, (l.txs.filter fun tx => decide (tx.cost > costLimit) || decide (tx.gas > gasLimit)).1.items.lookup n =
      some tx → l.txs.items.lookup n = some tx ∧ tx.cost ≤ costLimit ∧ tx.gas ≤ gasLimit := fun found => by
    rw [TxSortedMap.filter_items, GoMap.lookup_filter, Option.filter_eq_some_iff] at found
    simp only [Bool.not_eq_true', Bool.or_eq_false_iff, decide_eq_false_iff_not, not_lt] at found
    exact ⟨found.1, found.2⟩
  unfold TxList.filter at found
  rw [if_neg exceeded] at found
  dsimp only at found
  split at found
  case isTrue =>
    rw [TxSortedMap.filter_items, GoMap.lookup_filter, Option.filter_eq_some_iff] at found
    exact within found.1
  case isFalse => exact within found

theorem Built.add (built : l.Built) (tx : Transaction) (priceBump : ℕ) : (l.add tx priceBump).1.Built := by
  unfold TxList.add
  dsimp only
  split
  case isTrue => exact built
  case isFalse =>
    refine ⟨built.valid.put tx, fun n tx' found => ?_⟩
    simp only [TxSortedMap.put] at found ⊢
    by_cases same : n = tx.nonce
    · -- the new transaction raised the caps to its own cost and gas
      subst same
      rw [AList.lookup_insert] at found
      cases found
      constructor <;> split <;> omega
    · rw [AList.lookup_insert_ne same] at found
      obtain ⟨cost, gas⟩ := built.caps n tx' found
      constructor <;> split <;> omega

theorem Built.forward (built : l.Built) {threshold : ℕ} {l' : TxList} {removed : List (Option Transaction)}
    (forwarded : l.forward threshold = some (l', removed)) : l'.Built := by
  obtain ⟨m', removed', inner, valid', -, kept⟩ := TxSortedMap.forward_spec built.valid threshold
  simp only [TxList.forward, inner, Option.map_some, Option.some.injEq, Prod.mk.injEq] at forwarded
  obtain ⟨rfl, -⟩ := forwarded
  exact ⟨valid', built.caps.of_subset fun n tx found => (lookup_of_equiv_filter kept found).1⟩

theorem Built.filter (built : l.Built) (costLimit : ℤ) (gasLimit : ℕ) : (l.filter costLimit gasLimit).1.Built := by
  by_cases early : l.costcap ≤ costLimit ∧ l.gascap ≤ gasLimit
  · rw [TxList.filter, if_pos early]
    exact built
  · have valid : (l.filter costLimit gasLimit).1.txs.Valid := by
      unfold TxList.filter
      rw [if_neg early]
      dsimp only
      split
      case isTrue => exact (built.valid.filter _).filter _
      case isFalse => exact built.valid.filter _
    have caps : (l.filter costLimit gasLimit).1.costcap = costLimit ∧ (l.filter costLimit gasLimit).1.gascap = gasLimit := by
      unfold TxList.filter
      rw [if_neg early]
      dsimp only
      split <;> exact ⟨rfl, rfl⟩
    refine ⟨valid, fun n tx found => ?_⟩
    obtain ⟨-, cost, gas⟩ := lookup_filter_of_over costLimit gasLimit early found
    rw [caps.1, caps.2]
    exact ⟨cost, gas⟩

theorem Built.cap (built : l.Built) {threshold : ℤ} {l' : TxList} {drops : List (Option Transaction)}
    (capped : l.cap sortNonces threshold = some (l', drops)) : l'.Built := by
  cases threshold with
  | ofNat n =>
    obtain ⟨m', drops', inner, valid', ⟨all, -, -, kept⟩, -⟩ := TxSortedMap.cap_spec sortNonces built.valid n
    simp only [TxList.cap, Int.ofNat_eq_natCast, inner, Option.map_some, Option.some.injEq, Prod.mk.injEq] at capped
    obtain ⟨rfl, -⟩ := capped
    exact ⟨valid', built.caps.of_subset fun n tx found => (lookup_of_equiv_filter kept found).1⟩
  | negSucc n => simp [TxList.cap, TxSortedMap.cap_negative_panics] at capped

theorem Built.remove (built : l.Built) (tx : Transaction) : (l.remove tx).1.Built := by
  have valid := built.valid.remove tx.nonce
  have inner : ∀ n tx', (l.txs.remove tx.nonce).1.items.lookup n = some tx' → l.txs.items.lookup n = some tx' :=
    fun n tx' found => GoMap.lookup_of_lookup_erase (TxSortedMap.remove_items tx.nonce ▸ found)
  unfold TxList.remove
  dsimp only
  split
  case isTrue => exact ⟨valid, built.caps.of_subset inner⟩
  case isFalse =>
    split
    case isTrue =>
      refine ⟨valid.filter _, built.caps.of_subset fun n tx' found => inner n tx' ?_⟩
      rw [TxSortedMap.filter_items, GoMap.lookup_filter, Option.filter_eq_some_iff] at found
      exact found.1
    case isFalse => exact ⟨valid, built.caps.of_subset inner⟩

theorem Built.ready (built : l.Built) (start : ℕ) : (l.ready start).1.Built := by
  obtain ⟨valid, spec⟩ := TxSortedMap.ready_spec built.valid start
  refine ⟨valid, built.caps.of_subset fun n tx found => ?_⟩
  rcases spec with ⟨-, same, -⟩ | ⟨lowest, k, -, -, -, -, -, -, kept⟩
  · rwa [same] at found
  · exact (lookup_of_equiv_filter kept found).1

theorem Built.flatten (built : l.Built) : (l.flatten sortTxs).1.Built :=
  ⟨(TxSortedMap.flatten_spec sortTxs built.valid).1, built.caps.of_subset fun _ _ found => found⟩

theorem Built.step (built : l.Built) {op : Op} {l' : TxList} (stepped : step sortNonces sortTxs l op = some l') :
    l'.Built := by
  cases op with
  | add tx priceBump =>
    cases stepped
    exact built.add tx priceBump
  | forward threshold =>
    obtain ⟨⟨l'', removed⟩, forwarded, rfl⟩ := Option.map_eq_some_iff.mp stepped
    exact built.forward forwarded
  | filter costLimit gasLimit =>
    cases stepped
    exact built.filter costLimit gasLimit
  | cap threshold =>
    obtain ⟨⟨l'', drops⟩, capped, rfl⟩ := Option.map_eq_some_iff.mp stepped
    exact built.cap sortNonces capped
  | remove tx =>
    cases stepped
    exact built.remove tx
  | ready start =>
    cases stepped
    exact built.ready start
  | flatten =>
    cases stepped
    exact built.flatten sortTxs

theorem newTxList_built (strict : Bool) : (newTxList strict).Built :=
  ⟨TxSortedMap.newTxSortedMap_valid, fun _ _ found => by cases found⟩

theorem run_built {ops : List Op} {strict : Bool} {l : TxList}
    (ran : run sortNonces sortTxs ops (newTxList strict) = some l) : l.Built :=
  GoLoop.foldlM_option_preserves Built (step sortNonces sortTxs)
    (fun _ _ _ built stepped => built.step sortNonces sortTxs stepped) ops _ _ (newTxList_built strict) ran

/-! ## What `Filter` and `Remove` leave -/

theorem lowestNonce_le (removed : List Transaction) : ∀ tx ∈ removed, lowestNonce removed ≤ tx.nonce := by
  unfold lowestNonce
  -- the fold from any start is at most the start and every nonce after it
  suffices folded : ∀ (start : ℕ) (rest : List Transaction),
      rest.foldl (fun lowest tx => if lowest > tx.nonce then tx.nonce else lowest) start ≤ start ∧
        ∀ tx ∈ rest, rest.foldl (fun lowest tx => if lowest > tx.nonce then tx.nonce else lowest) start ≤ tx.nonce from
    (folded _ removed).2
  intro start rest
  induction rest generalizing start with
  | nil => simp
  | cons tx rest ih =>
    obtain ⟨belowStart, belowRest⟩ := ih (if start > tx.nonce then tx.nonce else start)
    refine ⟨belowStart.trans (by split <;> omega), fun tx' mem => ?_⟩
    rcases List.mem_cons.mp mem with rfl | later
    · exact belowStart.trans (by split <;> omega)
    · exact belowRest tx' later

theorem mem_keys_filter {items : GoMap ℕ Transaction} {p : ℕ → Transaction → Bool} {n : ℕ} :
    n ∈ (items.filter p).keys ↔ ∃ tx, items.lookup n = some tx ∧ p n tx = true := by
  rw [mem_keys_iff, GoMap.lookup_filter, Option.ne_none_iff_exists']
  simp only [Option.filter_eq_some_iff]

/-- In strict mode, `Filter` leaves a prefix of a run of nonces. -/
theorem filter_prefix (strict : l.strict = true) (keyed : Keyed l.txs.items) {first last : ℕ}
    (run : l.NoncesFrom first last) (costLimit : ℤ) (gasLimit : ℕ) :
    ∃ c ≤ last, (l.filter costLimit gasLimit).1.NoncesFrom first c := by
  by_cases early : l.costcap ≤ costLimit ∧ l.gascap ≤ gasLimit
  · rw [TxList.filter, if_pos early]
    exact ⟨last, le_rfl, run⟩
  -- a held transaction over the limits is among the removed ones, so not below the lowest of them
  have removedAbove : ∀ n tx, l.txs.items.lookup n = some tx →
      (decide (tx.cost > costLimit) || decide (tx.gas > gasLimit)) = true →
        lowestNonce (l.txs.filter fun tx => decide (tx.cost > costLimit) || decide (tx.gas > gasLimit)).2 ≤ n :=
    fun n tx found exceeds => by
      rw [← keyed n tx found]
      exact lowestNonce_le _ tx ((TxSortedMap.mem_filter_removed keyed _ tx).mpr ⟨keyed.lookup_nonce found, exceeds⟩)
  unfold TxList.filter
  rw [if_neg early]
  dsimp only
  split
  case isFalse nothingRemoved =>
    -- strict mode: nothing was over the limits, so every nonce stays
    refine ⟨last, le_rfl, fun n => ?_⟩
    rw [← run n, TxSortedMap.filter_items, mem_keys_filter, mem_keys_iff, Option.ne_none_iff_exists']
    refine exists_congr fun tx => and_iff_left_of_imp fun found => ?_
    cases exceeds : (decide (tx.cost > costLimit) || decide (tx.gas > gasLimit))
    · rfl
    · exact absurd ⟨strict, List.length_pos_of_mem ((TxSortedMap.mem_filter_removed keyed _ tx).mpr
        ⟨keyed.lookup_nonce found, exceeds⟩)⟩ nothingRemoved
  case isTrue =>
    generalize lowestNonce _ = lowest at removedAbove ⊢
    have kept : ∀ n, n ∈ (GoMap.filter (fun _ tx => !decide (tx.nonce > lowest))
        (GoMap.filter (fun _ tx => !(decide (tx.cost > costLimit) || decide (tx.gas > gasLimit))) l.txs.items)).keys ↔
        ∃ tx, l.txs.items.lookup n = some tx ∧ (decide (tx.cost > costLimit) || decide (tx.gas > gasLimit)) = false ∧
          n ≤ lowest := fun n => by
      simp only [mem_keys_filter, GoMap.lookup_filter, Option.filter_eq_some_iff]
      constructor
      · rintro ⟨tx, ⟨found, within⟩, below⟩
        exact ⟨tx, found, by simpa using within, by simpa [keyed n tx found] using below⟩
      · rintro ⟨tx, found, within, below⟩
        exact ⟨tx, ⟨found, by simpa using within⟩, by simpa [keyed n tx found] using below⟩
    by_cases lowestRemoved : ∃ tx, l.txs.items.lookup lowest = some tx ∧
        (decide (tx.cost > costLimit) || decide (tx.gas > gasLimit)) = true
    · -- the run is cut just below the lowest nonce removed
      obtain ⟨tx, found, exceeds⟩ := lowestRemoved
      have held := (run lowest).mp (mem_keys_iff.mpr (by simp [found]))
      refine ⟨lowest, held.2.le, fun n => ?_⟩
      dsimp only
      rw [TxSortedMap.filter_items, TxSortedMap.filter_items, kept n]
      constructor
      · rintro ⟨tx', found', within, below⟩
        have other : n ≠ lowest := fun same => by
          rw [same, found] at found'
          cases found'
          rw [within] at exceeds
          cases exceeds
        exact ⟨((run n).mp (mem_keys_iff.mpr (by simp [found']))).1, by omega⟩
      · rintro ⟨low, high⟩
        obtain ⟨tx', found'⟩ := Option.ne_none_iff_exists'.mp (mem_keys_iff.mp ((run n).mpr ⟨low, by omega⟩))
        refine ⟨tx', found', ?_, by omega⟩
        by_contra exceeds'
        have := removedAbove n tx' found' (by simpa only [Bool.not_eq_false] using exceeds')
        omega
    · -- the lowest nonce removed is above everything kept below it
      refine ⟨min last (lowest + 1), min_le_left _ _, fun n => ?_⟩
      dsimp only
      rw [TxSortedMap.filter_items, TxSortedMap.filter_items, kept n]
      constructor
      · rintro ⟨tx', found', -, below⟩
        have := (run n).mp (mem_keys_iff.mpr (by simp [found']))
        omega
      · rintro ⟨low, high⟩
        obtain ⟨tx', found'⟩ := Option.ne_none_iff_exists'.mp (mem_keys_iff.mp ((run n).mpr ⟨low, by omega⟩))
        refine ⟨tx', found', ?_, by omega⟩
        by_contra exceeds'
        have above := removedAbove n tx' found' (by simpa only [Bool.not_eq_false] using exceeds')
        obtain rfl : n = lowest := by omega
        exact lowestRemoved ⟨tx', found', by simpa only [Bool.not_eq_false] using exceeds'⟩

/-- In strict mode, `Remove` leaves a prefix of a run of nonces. -/
theorem remove_prefix (strict : l.strict = true) (keyed : Keyed l.txs.items) {first last : ℕ}
    (run : l.NoncesFrom first last) (tx : Transaction) : ∃ c ≤ last, (l.remove tx).1.NoncesFrom first c := by
  have erased := TxSortedMap.remove_items (m := l.txs) tx.nonce
  have found := TxSortedMap.remove_found (m := l.txs) tx.nonce
  unfold TxList.remove
  dsimp only
  split
  case isTrue missing =>
    -- nothing held the nonce: nothing changes
    simp only [Bool.not_eq_true', ← Bool.not_eq_true] at missing
    rw [found.not, not_not] at missing
    refine ⟨last, le_rfl, fun n => ?_⟩
    show n ∈ (l.txs.remove tx.nonce).1.items.keys ↔ _
    rw [erased, GoMap.erase_of_lookup_none missing, run n]
  case isFalse present =>
    simp only [Bool.not_eq_false', Bool.not_eq_true] at present
    have held := (run tx.nonce).mp (mem_keys_iff.mpr (found.mp present))
    refine ⟨tx.nonce, held.2.le, fun n => ?_⟩
    show n ∈ ((l.txs.remove tx.nonce).1.filter _).1.items.keys ↔ _
    rw [TxSortedMap.filter_items, mem_keys_filter, erased]
    constructor
    · rintro ⟨tx', found', below⟩
      have other : n ≠ tx.nonce := fun same => by
        rw [same, AList.lookup_erase] at found'
        cases found'
      rw [AList.lookup_erase_ne other] at found'
      have := (run n).mp (mem_keys_iff.mpr (by simp [found']))
      simp [keyed n tx' found'] at below
      omega
    · rintro ⟨low, high⟩
      obtain ⟨tx', found'⟩ := Option.ne_none_iff_exists'.mp (mem_keys_iff.mp ((run n).mpr ⟨low, by omega⟩))
      refine ⟨tx', by rw [AList.lookup_erase_ne (by omega), found'], ?_⟩
      simp [keyed n tx' found']
      omega

end Lemmas

section Sound
variable (sortNonces : GoSort ℕ nonceLess) (sortTxs : GoSort Transaction txByNonceLess)

theorem txList_caps_sound (strict : Bool) (ops : List Op) (l : TxList)
    (built : run sortNonces sortTxs ops (newTxList strict) = some l) :
    l.CapsCover ∧
      (∀ costLimit gasLimit, l.costcap ≤ costLimit ∧ l.gascap ≤ gasLimit →
        ∀ n tx, l.txs.items.lookup n = some tx → ¬(tx.cost > costLimit ∨ tx.gas > gasLimit)) ∧
      (∀ costLimit gasLimit n tx, (l.filter costLimit gasLimit).1.txs.items.lookup n = some tx →
        ¬(tx.cost > costLimit ∨ tx.gas > gasLimit)) ∧
      (l.strict = true → ∀ first last, l.NoncesFrom first last →
        (∀ costLimit gasLimit, ∃ c ≤ last, (l.filter costLimit gasLimit).1.NoncesFrom first c) ∧
          ∀ tx, ∃ c ≤ last, (l.remove tx).1.NoncesFrom first c) := by
  have isBuilt := run_built sortNonces sortTxs built
  -- within the caps means within the limits
  have early : ∀ costLimit gasLimit, l.costcap ≤ costLimit ∧ l.gascap ≤ gasLimit →
      ∀ n tx, l.txs.items.lookup n = some tx → ¬(tx.cost > costLimit ∨ tx.gas > gasLimit) :=
    fun costLimit gasLimit within n tx found => by
      have := isBuilt.caps n tx found
      omega
  refine ⟨isBuilt.caps, early, fun costLimit gasLimit n tx found => ?_, fun strict first last run =>
    ⟨fun costLimit gasLimit => filter_prefix strict isBuilt.valid.keyed run costLimit gasLimit,
      fun tx => remove_prefix strict isBuilt.valid.keyed run tx⟩⟩
  by_cases within : l.costcap ≤ costLimit ∧ l.gascap ≤ gasLimit
  · rw [TxList.filter, if_pos within] at found
    exact early costLimit gasLimit within n tx found
  · obtain ⟨-, cost, gas⟩ := lookup_filter_of_over costLimit gasLimit within found
    omega

/-- Three transactions of nonces 0, 1 and 2 added to a strict list; nonce 1 needs 300 gas. -/
def threeAdds : List Op :=
  [.add ⟨0, 2, 100, 5⟩ 10, .add ⟨1, 2, 300, 5⟩ 10, .add ⟨2, 2, 100, 5⟩ 10]

theorem txList_caps_sound_after_three_adds :
    (run TxSortedMap.nonceSort TxSortedMap.txSort threeAdds (newTxList true)).map
        (fun l => (l.txs.items.keys, (l.filter 1000 200).1.txs.items.keys)) = some ([2, 1, 0], [0]) ∧
      ∃ l, run TxSortedMap.nonceSort TxSortedMap.txSort threeAdds (newTxList true) = some l ∧
        l.CapsCover ∧
        (∀ costLimit gasLimit, l.costcap ≤ costLimit ∧ l.gascap ≤ gasLimit →
          ∀ n tx, l.txs.items.lookup n = some tx → ¬(tx.cost > costLimit ∨ tx.gas > gasLimit)) ∧
        (∀ costLimit gasLimit n tx, (l.filter costLimit gasLimit).1.txs.items.lookup n = some tx →
          ¬(tx.cost > costLimit ∨ tx.gas > gasLimit)) ∧
        (l.strict = true → ∀ first last, l.NoncesFrom first last →
          (∀ costLimit gasLimit, ∃ c ≤ last, (l.filter costLimit gasLimit).1.NoncesFrom first c) ∧
            ∀ tx, ∃ c ≤ last, (l.remove tx).1.NoncesFrom first c) := by
  -- the filter drops nonce 1 for its gas and nonce 2 behind it
  have filtered : (run TxSortedMap.nonceSort TxSortedMap.txSort threeAdds (newTxList true)).map
      (fun l => (l.txs.items.keys, (l.filter 1000 200).1.txs.items.keys)) = some ([2, 1, 0], [0]) := by
    decide +kernel
  rcases built : run TxSortedMap.nonceSort TxSortedMap.txSort threeAdds (newTxList true) with _ | l
  · rw [built] at filtered
    cases filtered
  · rw [built] at filtered
    exact ⟨filtered, l, rfl, txList_caps_sound TxSortedMap.nonceSort TxSortedMap.txSort true _ _ built⟩

end Sound

end TxList

end SimpleChain.Core
