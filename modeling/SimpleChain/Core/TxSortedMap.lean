import Mathlib
import SimpleChain.Lib.GoMap
import SimpleChain.Lib.GoSort
import SimpleChain.Lib.GoHeap
import SimpleChain.Lib.Loop

/-! # The nonce-sorted transaction map

`txSortedMap` (`core/tx_list.go`) keeps an account's transactions three ways: `items`, a map
from nonce to transaction; `index`, a `container/heap` of the same nonces (`nonceHeap`); and
`cache`, the transactions sorted by nonce, or `nil` once an operation may have spoiled it.

Each method is a function of the state.  A transaction is the four fields of its `txdata` that
the lists read.  Go's `m.items[nonce]` is `nil` for an absent nonce, so a transaction read from
`items` by key is an `Option`.  A slice index or slice bound out of range panics in Go; the
methods that index slices return `none` for that panic.  `sort.Sort` is any routine with its
contract (`GoSort`).  Nonces, `uint64` in Go, are naturals: the one place they could wrap,
`next++` in `Ready`, runs past the greatest `uint64` only once the heap is empty.

`Valid` is the representation invariant: the index holds each nonce of `items` once, in heap
order, and the cache is `nil` or exactly the items sorted by nonce (`NonceSorted`).  Every
method keeps it and does what its comment says; `Cap` with a negative threshold panics. -/
set_option autoImplicit false

namespace SimpleChain.Core

/-- The fields of a `types.Transaction` the lists read: `AccountNonce`, `Price`, `GasLimit` and
`Amount`. -/
structure Transaction where
  accountNonce : ℕ
  price : ℤ
  gasLimit : ℕ
  amount : ℤ
  deriving DecidableEq, Repr

namespace Transaction

def nonce (tx : Transaction) : ℕ := tx.accountNonce

def gas (tx : Transaction) : ℕ := tx.gasLimit

def gasPrice (tx : Transaction) : ℤ := tx.price

/-- `Cost()`: the gas price times the gas limit, plus the value. -/
def cost (tx : Transaction) : ℤ := tx.price * tx.gasLimit + tx.amount

end Transaction

/-- `nonceHeap.Less` -/
def nonceLess (a b : ℕ) : Bool := decide (a < b)

/-- `nonceHeap` as a `heap.Interface`. -/
def nonceHeap : GoHeap.Interface (List ℕ) ℕ := GoHeap.list nonceLess

/-- `types.TxByNonce.Less` -/
def txByNonceLess (a b : Transaction) : Bool := decide (a.nonce < b.nonce)

structure TxSortedMap where
  items : GoMap ℕ Transaction
  index : List ℕ
  cache : Option (List Transaction)

def newTxSortedMap : TxSortedMap := ⟨∅, [], none⟩

/-- One round of the removal loops: `removed = append(removed, m.items[nonce])`, then
`delete(m.items, nonce)`. -/
def takeOut (acc : GoMap ℕ Transaction × List (Option Transaction)) (nonce : ℕ) :
    GoMap ℕ Transaction × List (Option Transaction) :=
  (acc.1.erase nonce, acc.2 ++ [acc.1.lookup nonce])

/-- The loop of `Forward`: pop the least nonce while it is below `threshold`.  Every round pops,
so a `fuel` of the heap's length runs the loop to its end. -/
def forwardLoop (threshold : ℕ) :
    ℕ → List ℕ → GoMap ℕ Transaction × List (Option Transaction) →
      List ℕ × (GoMap ℕ Transaction × List (Option Transaction))
  | 0, index, acc => (index, acc)
  | fuel + 1, index, acc =>
    match index.head? with
    | some top =>
      if top < threshold then
        match GoHeap.pop nonceHeap index with
        | some (rest, nonce) => forwardLoop threshold fuel rest (takeOut acc nonce)
        | none => (index, acc)
      else (index, acc)
    | none => (index, acc)

/-- The loop of `Ready`: take `next` out while it is the least nonce, then pop it. -/
def readyLoop : ℕ → ℕ → List ℕ → GoMap ℕ Transaction × List (Option Transaction) →
    List ℕ × (GoMap ℕ Transaction × List (Option Transaction))
  | 0, _, index, acc => (index, acc)
  | fuel + 1, next, index, acc =>
    if index.head? = some next then
      match GoHeap.pop nonceHeap index with
      | some (rest, _) => readyLoop fuel (next + 1) rest (takeOut acc next)
      | none => (index, acc)
    else (index, acc)

/-- `m.cache = m.cache[n:]` when there is a cache ("shift the front"); past its end the slice
panics. -/
def shiftFront (cache : Option (List Transaction)) (n : ℕ) : Option (Option (List Transaction)) :=
  match cache with
  | none => some none
  | some c => if n ≤ c.length then some (some (c.drop n)) else none

/-- `m.cache = m.cache[:len(m.cache)-n]` when there is a cache ("shift the back"); a negative
bound panics. -/
def shiftBack (cache : Option (List Transaction)) (n : ℕ) : Option (Option (List Transaction)) :=
  match cache with
  | none => some none
  | some c => if n ≤ c.length then some (some (c.take (c.length - n))) else none

/-! ## What the map means -/

/-- `txs` lists the transactions of `items`, by increasing nonce. -/
structure NonceSorted (items : GoMap ℕ Transaction) (txs : List Transaction) : Prop where
  increasing : txs.Pairwise fun a b => a.nonce < b.nonce
  mem_iff : ∀ tx, tx ∈ txs ↔ items.lookup tx.nonce = some tx

/-- Every transaction of `items` is filed under its own nonce. -/
def Keyed (items : GoMap ℕ Transaction) : Prop :=
  ∀ nonce tx, items.lookup nonce = some tx → tx.nonce = nonce

/-- `index` is a heap of the nonces of `items`, each once. -/
structure Indexed (index : List ℕ) (items : GoMap ℕ Transaction) : Prop where
  perm : index.Perm items.keys
  heap : GoHeap.IsHeap id index

/-- The representation invariant of `txSortedMap`. -/
structure TxSortedMap.Valid (m : TxSortedMap) : Prop where
  keyed : Keyed m.items
  indexed : Indexed m.index m.items
  cache : ∀ c, m.cache = some c → NonceSorted m.items c

section Lemmas
variable {items items' : GoMap ℕ Transaction} {txs txs' : List Transaction} {index : List ℕ}

theorem mem_keys_iff {n : ℕ} : n ∈ items.keys ↔ items.lookup n ≠ none := by
  rw [← AList.mem_keys, ne_eq, AList.lookup_eq_none, not_not]

theorem NonceSorted.nodup (sorted : NonceSorted items txs) : txs.Nodup :=
  sorted.increasing.imp fun lt same => (same ▸ lt).false

/-- The transactions of a map, sorted by nonce, are one list. -/
theorem NonceSorted.unique (sorted : NonceSorted items txs) (sorted' : NonceSorted items txs') :
    txs = txs' := by
  have perm : txs.Perm txs' := by
    rw [List.perm_ext_iff_of_nodup sorted.nodup sorted'.nodup]
    intro tx
    rw [sorted.mem_iff, sorted'.mem_iff]
  exact perm.eq_of_pairwise (fun a b _ _ lt gt => absurd (lt.trans gt) (lt_irrefl _))
    sorted.increasing sorted'.increasing

/-- Only lookups matter. -/
theorem NonceSorted.congr (sorted : NonceSorted items txs) (same : items.Equiv items') :
    NonceSorted items' txs :=
  ⟨sorted.increasing, fun tx => by rw [sorted.mem_iff, same]⟩

theorem Keyed.erase (keyed : Keyed items) (n : ℕ) : Keyed (items.erase n) :=
  fun _ _ found => keyed _ _ (GoMap.lookup_of_lookup_erase found)

theorem Keyed.filter (keyed : Keyed items) (p : ℕ → Transaction → Bool) : Keyed (items.filter p) :=
  fun nonce tx found => by
    rw [GoMap.lookup_filter, Option.filter_eq_some_iff] at found
    exact keyed nonce tx found.1

theorem Keyed.lookup_nonce (keyed : Keyed items) {n : ℕ} {tx : Transaction} (found : items.lookup n = some tx) :
    items.lookup tx.nonce = some tx := by
  rw [keyed n tx found]
  exact found

theorem Keyed.mem_values (keyed : Keyed items) (tx : Transaction) :
    tx ∈ items.entries.map Sigma.snd ↔ items.lookup tx.nonce = some tx := by
  constructor
  · intro mem
    obtain ⟨⟨n, tx'⟩, entry, rfl⟩ := List.mem_map.mp mem
    exact keyed.lookup_nonce (AList.mem_lookup_iff.mpr entry)
  · intro found
    exact List.mem_map.mpr ⟨⟨tx.nonce, tx⟩, AList.mem_lookup_iff.mp found, rfl⟩

/-- Listed by a strictly increasing list of its nonces, a map's transactions are sorted. -/
theorem nonceSorted_filterMap (keyed : Keyed items) {ns : List ℕ} (increasing : ns.Pairwise (· < ·))
    (members : ∀ n, n ∈ ns ↔ n ∈ items.keys) : NonceSorted items (ns.filterMap items.lookup) := by
  refine ⟨increasing.filterMap _ fun a b lt tx found tx' found' => ?_, fun tx => ?_⟩
  · rw [keyed a tx found, keyed b tx' found']
    exact lt
  · rw [List.mem_filterMap]
    constructor
    · rintro ⟨n, -, found⟩
      exact keyed.lookup_nonce found
    · intro found
      exact ⟨tx.nonce, (members _).mpr (mem_keys_iff.mpr (by simp [found])), found⟩

theorem nonceKeyed (xs : List ℕ) : GoHeap.Keyed nonceLess id xs :=
  fun a _ b _ => by simp [nonceLess]

theorem Indexed.keys_eq_nil (indexed : Indexed [] items) : items.keys = [] :=
  List.Perm.nil_eq indexed.perm |>.symm

/-- The root of the index is the least nonce of the map. -/
theorem Indexed.head_least {top : ℕ} (indexed : Indexed index items) (head : index.head? = some top) :
    top ∈ items.keys ∧ ∀ n ∈ items.keys, top ≤ n := by
  obtain ⟨rest, rfl⟩ : ∃ rest, index = top :: rest := by
    cases index with
    | nil => cases head
    | cons x rest => exact ⟨rest, by simpa using head⟩
  refine ⟨indexed.perm.subset List.mem_cons_self, fun n mem => ?_⟩
  simpa using indexed.heap.root_le_mem (indexed.perm.symm.subset mem)

/-- `heap.Pop` on the index takes its root, the least nonce, off. -/
theorem Indexed.pop {top : ℕ} (indexed : Indexed index items) (head : index.head? = some top) :
    ∃ rest, GoHeap.pop nonceHeap index = some (rest, top) ∧ Indexed rest (items.erase top) ∧
      rest.length + 1 = index.length := by
  obtain ⟨tail, rfl⟩ : ∃ tail, index = top :: tail := by
    cases index with
    | nil => cases head
    | cons x tail => exact ⟨tail, by simpa using head⟩
  obtain ⟨⟨rest, x⟩, popped⟩ : ∃ p, GoHeap.pop nonceHeap (top :: tail) = some p := by
    simp [GoHeap.pop, nonceHeap]
  obtain ⟨heap, perm, first⟩ := GoHeap.pop_heap (nonceKeyed _) indexed.heap popped
  simp only [List.getD_cons_zero] at first
  subst first
  refine ⟨rest, popped, ⟨?_, heap⟩, by simpa using perm.length_eq⟩
  have erased := (perm.trans indexed.perm).erase x
  rwa [List.erase_cons_head, ← AList.keys_erase] at erased

theorem mem_keys_of_mem_filter {p : ℕ → Transaction → Bool} {n : ℕ} (mem : n ∈ (items.filter p).keys) :
    n ∈ items.keys := by
  rw [mem_keys_iff, GoMap.lookup_filter] at mem
  rw [mem_keys_iff]
  intro absent
  simp [absent] at mem

theorem erase_filter_equiv (p : ℕ → Transaction → Bool) (n : ℕ) :
    (GoMap.filter p (items.erase n)).Equiv ((items.filter p).erase n) := by
  intro k
  by_cases same : k = n
  · subst same
    simp
  · simp [AList.lookup_erase_ne same]

/-- Taking out an entry the filter drops anyway changes nothing after the filter. -/
theorem erase_filter_equiv_of_drop {p : ℕ → Transaction → Bool} {n : ℕ} (drop : ∀ tx, p n tx = false) :
    (GoMap.filter p (items.erase n)).Equiv (items.filter p) := by
  intro k
  by_cases same : k = n
  · subst same
    cases found : items.lookup k <;> simp [found, Option.filter_some, drop]
  · simp [AList.lookup_erase_ne same]

/-- A map's transactions by nonce: the one under the least nonce, then the others'. -/
theorem NonceSorted.cons {tx : Transaction} (found : items.lookup tx.nonce = some tx)
    (least : ∀ n ∈ items.keys, tx.nonce ≤ n) (sorted : NonceSorted (items.erase tx.nonce) txs) :
    NonceSorted items (tx :: txs) := by
  refine ⟨List.pairwise_cons.mpr ⟨fun b mem => ?_, sorted.increasing⟩, fun tx' => ?_⟩
  · have there := (sorted.mem_iff b).mp mem
    have other : b.nonce ≠ tx.nonce := fun same => by
      rw [same, AList.lookup_erase] at there
      cases there
    have before : items.lookup b.nonce = some b := GoMap.lookup_of_lookup_erase there
    have le := least b.nonce (mem_keys_iff.mpr (by simp [before]))
    omega
  · rw [List.mem_cons, sorted.mem_iff]
    by_cases same : tx'.nonce = tx.nonce
    · rw [same, found, AList.lookup_erase]
      constructor
      · rintro (rfl | absurd)
        · rfl
        · cases absurd
      · intro eq
        exact .inl (Option.some.inj eq).symm
    · rw [AList.lookup_erase_ne same]
      constructor
      · rintro (rfl | there)
        · exact absurd rfl same
        · exact there
      · exact .inr

theorem Keyed.of_equiv (keyed : Keyed items) (same : items'.Equiv items) : Keyed items' :=
  fun n tx found => keyed n tx ((same n) ▸ found)

/-- The sorted transactions whose nonces `p` accepts are the map's filtered by `p`, sorted. -/
theorem NonceSorted.filter (sorted : NonceSorted items txs) (p : ℕ → Bool) :
    NonceSorted (items.filter fun n _ => p n) (txs.filter fun tx => p tx.nonce) := by
  refine ⟨sorted.increasing.sublist List.filter_sublist, fun tx => ?_⟩
  rw [List.mem_filter, sorted.mem_iff, GoMap.lookup_filter, Option.filter_eq_some_iff]

/-- In a list sorted by nonce, the transactions below a threshold come first. -/
theorem drop_filter_below (t : ℕ) :
    ∀ {txs : List Transaction}, txs.Pairwise (fun a b => a.nonce < b.nonce) →
      txs.drop (txs.filter fun tx => tx.nonce < t).length = txs.filter fun tx => t ≤ tx.nonce
  | [], _ => rfl
  | a :: rest, increasing => by
    obtain ⟨later, increasing⟩ := List.pairwise_cons.mp increasing
    by_cases below : a.nonce < t
    · simp [below, drop_filter_below t increasing]
    · -- everything from `a` on is at or above the threshold
      have above : ∀ b ∈ rest, t ≤ b.nonce := fun b mem => by have := later b mem; omega
      have none : rest.filter (fun tx => tx.nonce < t) = [] :=
        List.filter_eq_nil_iff.mpr fun b mem => by simpa using above b mem
      have all : rest.filter (fun tx => t ≤ tx.nonce) = rest :=
        List.filter_eq_self.mpr fun b mem => by simpa using above b mem
      simp [below, none, all, not_lt.mp below]

/-- `sort.Sort(types.TxByNonce(...))` of the map's values sorts them by nonce. -/
theorem nonceSorted_run (srt : GoSort Transaction txByNonceLess) (keyed : Keyed items) :
    NonceSorted items (srt.run (items.entries.map Sigma.snd)) := by
  have nonces : (items.entries.map Sigma.snd).map Transaction.nonce = items.keys := by
    rw [List.map_map, AList.keys, List.keys]
    exact List.map_congr_left fun e mem => keyed e.1 e.2 (AList.mem_lookup_iff.mpr mem)
  have distinct : ((srt.run (items.entries.map Sigma.snd)).map Transaction.nonce).Nodup := by
    rw [((srt.perm _).map _).nodup_iff, nonces]
    exact AList.keys_nodup _
  refine ⟨((srt.sorted _).and (List.pairwise_map.mp distinct)).imp fun both => ?_, fun tx => ?_⟩
  · obtain ⟨notAfter, differ⟩ := both
    simp only [NotAfter, txByNonceLess, decide_eq_false_iff_not, not_lt] at notAfter
    omega
  · rw [GoSort.mem_run, keyed.mem_values]

/-! ## The loop of `Forward` -/

/-- Where the loop of `Forward` from `items` ends: a heap of what is left, which is what is not
below `threshold`; and the transactions below `threshold`, by increasing nonce, appended to the
ones `removed` before. -/
structure ForwardOutcome (threshold : ℕ) (items : GoMap ℕ Transaction) (removed : List (Option Transaction))
    (loop : List ℕ × (GoMap ℕ Transaction × List (Option Transaction))) : Prop where
  indexed : Indexed loop.1 loop.2.1
  kept : loop.2.1.Equiv (items.filter fun n _ => threshold ≤ n)
  below : ∃ below, NonceSorted (items.filter fun n _ => n < threshold) below ∧ loop.2.2 = removed ++ below.map some

theorem forwardOutcome_stop {threshold : ℕ} {removed : List (Option Transaction)} (indexed : Indexed index items)
    (above : ∀ n ∈ items.keys, threshold ≤ n) : ForwardOutcome threshold items removed (index, (items, removed)) := by
  refine ⟨indexed, fun k => ?_, ⟨[], ⟨List.Pairwise.nil, fun tx => ?_⟩, by simp⟩⟩
  · cases found : items.lookup k with
    | none => simp [found]
    | some tx =>
      have := above k (mem_keys_iff.mpr (by simp [found]))
      simp [found, this, Option.filter_some]
  · cases found : items.lookup tx.nonce with
    | none => simp [found]
    | some tx' =>
      have := above tx.nonce (mem_keys_iff.mpr (by simp [found]))
      simp [found]
      omega

theorem forwardLoop_outcome (threshold fuel : ℕ) :
    ∀ (index : List ℕ) (items : GoMap ℕ Transaction) (removed : List (Option Transaction)),
      Keyed items → Indexed index items → index.length ≤ fuel →
        ForwardOutcome threshold items removed (forwardLoop threshold fuel index (items, removed)) := by
  induction fuel with
  | zero =>
    intro index items removed _ indexed short
    obtain rfl : index = [] := List.eq_nil_of_length_eq_zero (by omega)
    exact forwardOutcome_stop indexed (by simp [indexed.keys_eq_nil])
  | succ fuel ih =>
    intro index items removed keyed indexed short
    cases head : index.head? with
    | none =>
      obtain rfl : index = [] := List.head?_eq_none_iff.mp head
      exact forwardOutcome_stop indexed (by simp [indexed.keys_eq_nil])
    | some top =>
      obtain ⟨inKeys, least⟩ := indexed.head_least head
      by_cases below : top < threshold
      case neg =>
        simp only [forwardLoop, head, below, if_false]
        exact forwardOutcome_stop indexed fun n mem => (not_lt.mp below).trans (least n mem)
      case pos =>
        obtain ⟨rest, popped, restIndexed, length⟩ := indexed.pop head
        obtain ⟨tx, found⟩ := Option.ne_none_iff_exists'.mp (mem_keys_iff.mp inKeys)
        have nonce := keyed top tx found
        simp only [forwardLoop, head, below, if_true, popped, takeOut]
        obtain ⟨loopIndexed, kept, below', sorted, removedEq⟩ :=
          ih rest (items.erase top) (removed ++ [items.lookup top]) (keyed.erase top) restIndexed (by omega)
        -- the root comes out first, and the rest of the run is the run from the map without it
        refine ⟨loopIndexed, kept.trans (erase_filter_equiv_of_drop fun _ => decide_eq_false (not_le.mpr below)),
          tx :: below', ?_, ?_⟩
        · refine NonceSorted.cons ?_ ?_ ?_
          · rw [GoMap.lookup_filter, nonce, found]
            simp [below]
          · exact fun n mem => nonce ▸ least n (mem_keys_of_mem_filter mem)
          · exact nonce ▸ sorted.congr (erase_filter_equiv _ top)
        · rw [found] at removedEq ⊢
          rw [removedEq]
          simp

theorem filter_congr {p q : ℕ → Transaction → Bool} (same : ∀ n tx, items.lookup n = some tx → p n tx = q n tx) :
    (items.filter p).Equiv (items.filter q) := by
  intro k
  simp only [GoMap.lookup_filter]
  cases found : items.lookup k with
  | none => rfl
  | some tx => simp [Option.filter_some, same k tx found]

theorem not_mem_keys_erase_iff {n k : ℕ} (other : k ≠ n) : k ∈ (items.erase n).keys ↔ k ∈ items.keys := by
  rw [mem_keys_iff, mem_keys_iff, AList.lookup_erase_ne other]

/-! ## The loop of `Ready` -/

/-- Where the loop of `Ready` from `next` ends: the map holds the nonces `next`, …, `next + k - 1`
and not `next + k`; their transactions are appended to the ones taken before, and what is left
is the rest of the map, with a heap of its nonces. -/
structure ReadyOutcome (next : ℕ) (items : GoMap ℕ Transaction) (ready : List (Option Transaction))
    (loop : List ℕ × (GoMap ℕ Transaction × List (Option Transaction))) : Prop where
  indexed : Indexed loop.1 loop.2.1
  run : ∃ k, (∀ i < k, next + i ∈ items.keys) ∧ next + k ∉ items.keys ∧
    loop.2.2 = ready ++ (List.range' next k).map items.lookup ∧
    loop.2.1.Equiv (items.filter fun n _ => !(next ≤ n ∧ n < next + k))

theorem readyOutcome_stop {next : ℕ} {ready : List (Option Transaction)} (indexed : Indexed index items)
    (absent : next ∉ items.keys) : ReadyOutcome next items ready (index, (items, ready)) := by
  refine ⟨indexed, 0, by simp, by simpa using absent, by simp, fun k => ?_⟩
  cases found : items.lookup k <;> simp [found, Option.filter_some]

theorem readyLoop_outcome (fuel : ℕ) :
    ∀ (next : ℕ) (index : List ℕ) (items : GoMap ℕ Transaction) (ready : List (Option Transaction)),
      Indexed index items → index.length ≤ fuel → (∀ n ∈ items.keys, next ≤ n) →
        ReadyOutcome next items ready (readyLoop fuel next index (items, ready)) := by
  induction fuel with
  | zero =>
    intro next index items ready indexed short _
    obtain rfl : index = [] := List.eq_nil_of_length_eq_zero (by omega)
    exact readyOutcome_stop indexed (by simp [indexed.keys_eq_nil])
  | succ fuel ih =>
    intro next index items ready indexed short above
    by_cases head : index.head? = some next
    case neg =>
      simp only [readyLoop, head, if_false]
      refine readyOutcome_stop indexed fun mem => head ?_
      -- `next` is at most every nonce, so if the map held it, it would be the root
      cases top : index.head? with
      | none =>
        obtain rfl : index = [] := List.head?_eq_none_iff.mp top
        simp [indexed.keys_eq_nil] at mem
      | some top' =>
        have := (indexed.head_least top).2 next mem
        have := above top' (indexed.head_least top).1
        rw [show top' = next by omega]
    case pos =>
      obtain ⟨inKeys, -⟩ := indexed.head_least head
      obtain ⟨rest, popped, restIndexed, length⟩ := indexed.pop head
      simp only [readyLoop, head, if_true, popped, takeOut]
      have restAbove : ∀ n ∈ (items.erase next).keys, next + 1 ≤ n := fun n mem => by
        have other : n ≠ next := fun same => by
          rw [same, mem_keys_iff, AList.lookup_erase] at mem
          exact mem rfl
        have := above n ((not_mem_keys_erase_iff other).mp mem)
        omega
      obtain ⟨loopIndexed, k, held, absent, readyEq, kept⟩ :=
        ih (next + 1) rest (items.erase next) (ready ++ [items.lookup next]) restIndexed (by omega) restAbove
      refine ⟨loopIndexed, k + 1, fun i lt => ?_, ?_, ?_, ?_⟩
      · cases i with
        | zero => simpa using inKeys
        | succ i =>
          have := held i (by omega)
          rw [not_mem_keys_erase_iff (by omega)] at this
          rwa [show next + (i + 1) = next + 1 + i by omega]
      · rwa [not_mem_keys_erase_iff (by omega), show next + 1 + k = next + (k + 1) by omega] at absent
      · -- past `next`, the map without `next` answers as the map
        have later : (List.range' (next + 1) k).map (items.erase next).lookup =
            (List.range' (next + 1) k).map items.lookup :=
          List.map_congr_left fun n mem => AList.lookup_erase_ne (by simp [List.mem_range'] at mem; omega)
        rw [readyEq, later, List.range'_succ]
        simp
      · have dropped : ∀ tx, (fun n (_ : Transaction) => !(decide (next ≤ n ∧ n < next + (k + 1)))) next tx = false :=
          fun _ => by simp
        refine kept.trans ((filter_congr fun n _ found => ?_).trans (erase_filter_equiv_of_drop dropped))
        have other : n ≠ next := fun same => by
          rw [same, AList.lookup_erase] at found
          cases found
        simp only [Bool.not_eq_eq_eq_not, Bool.not_not, Bool.decide_and]
        by_cases low : next + 1 ≤ n <;> by_cases high : n < next + 1 + k <;>
          simp [low, high] <;> omega

/-- The first `t` sorted transactions are the map's whose nonces are among theirs. -/
theorem NonceSorted.take (sorted : NonceSorted items txs) (t : ℕ) :
    NonceSorted (items.filter fun n _ => n ∈ (txs.take t).map Transaction.nonce) (txs.take t) := by
  refine ⟨sorted.increasing.sublist (List.take_sublist _ _), fun tx => ?_⟩
  rw [GoMap.lookup_filter, Option.filter_eq_some_iff]
  constructor
  · intro mem
    exact ⟨(sorted.mem_iff tx).mp (List.mem_of_mem_take mem), decide_eq_true (List.mem_map_of_mem mem)⟩
  · rintro ⟨found, early⟩
    obtain ⟨tx', mem, same⟩ := List.mem_map.mp (of_decide_eq_true early)
    have found' := (sorted.mem_iff tx').mp (List.mem_of_mem_take mem)
    rw [same, found] at found'
    rwa [← Option.some.inj found'] at mem

/-! ## The loop of `Cap` -/

theorem size_eq_length_keys : items.size = items.keys.length := by
  simp [GoMap.size, AList.keys, List.keys]

/-- `sort.Sort` on distinct nonces sorts them strictly. -/
theorem increasing_run (srt : GoSort ℕ nonceLess) {xs : List ℕ} (nodup : xs.Nodup) :
    (srt.run xs).Pairwise (· < ·) := by
  have distinct : (srt.run xs).Nodup := (srt.perm xs).nodup_iff.mpr nodup
  refine ((srt.sorted xs).and distinct).imp fun ⟨notAfter, differ⟩ => ?_
  simp only [NotAfter, nonceLess, decide_eq_false_iff_not, not_lt] at notAfter
  omega

theorem NonceSorted.map_nonce_perm (sorted : NonceSorted items txs) (keyed : Keyed items) :
    (txs.map Transaction.nonce).Perm items.keys := by
  have distinct : (txs.map Transaction.nonce).Nodup :=
    List.Pairwise.map _ (fun _ _ lt same => (same ▸ lt).false) sorted.increasing
  rw [List.perm_ext_iff_of_nodup distinct (AList.keys_nodup _)]
  intro n
  rw [List.mem_map, mem_keys_iff]
  constructor
  · rintro ⟨tx, mem, rfl⟩
    simp [(sorted.mem_iff tx).mp mem]
  · intro present
    obtain ⟨tx, found⟩ := Option.ne_none_iff_exists'.mp present
    exact ⟨tx, (sorted.mem_iff tx).mpr (keyed.lookup_nonce found), keyed n tx found⟩

/-- The nonces of the sorted transactions are the nonces sorted. -/
theorem NonceSorted.map_nonce_eq (sorted : NonceSorted items txs) (keyed : Keyed items) {ns : List ℕ}
    (perm : ns.Perm items.keys) (increasing : ns.Pairwise (· < ·)) : txs.map Transaction.nonce = ns :=
  ((sorted.map_nonce_perm keyed).trans perm.symm).eq_of_pairwise
    (fun _ _ _ _ lt gt => absurd (lt.trans gt) (lt_irrefl _))
    (List.pairwise_map.mpr sorted.increasing) increasing

theorem NonceSorted.map_lookup (sorted : NonceSorted items txs) :
    (txs.map Transaction.nonce).map items.lookup = txs.map some := by
  rw [List.map_map]
  exact List.map_congr_left fun tx mem => (sorted.mem_iff tx).mp mem

theorem mem_take_iff_of_nodup {l : List ℕ} (nodup : l.Nodup) (t k : ℕ) :
    k ∈ l.take t ↔ k ∈ l ∧ k ∉ l.drop t := by
  have split := List.take_append_drop t l
  rw [← split, List.nodup_append] at nodup
  constructor
  · intro mem
    exact ⟨List.mem_of_mem_take mem, fun later => nodup.2.2 k mem k later rfl⟩
  · rintro ⟨mem, notLater⟩
    rw [← split, List.mem_append] at mem
    exact mem.resolve_right notLater

/-- `Cap`'s loop, reading `(*m.index)[size-1]` for `size` from the length down past `t`, takes
out the sorted nonces from `t` on, the last first. -/
theorem foldlM_takeOut (sorted : List ℕ) :
    ∀ (is : List ℕ) (acc : GoMap ℕ Transaction × List (Option Transaction)), (∀ i ∈ is, i < sorted.length) →
      is.foldlM (fun acc i => sorted[i]?.map (takeOut acc)) acc =
        some ((is.map fun i => sorted.getD i 0).foldl takeOut acc) := by
  intro is
  induction is with
  | nil => intro acc _; rfl
  | cons i is ih =>
    intro acc inside
    have lt := inside i List.mem_cons_self
    simp only [List.foldlM_cons, List.getElem?_eq_getElem lt, Option.map_some, List.map_cons, List.foldl_cons,
      List.getD_eq_getElem _ _ lt]
    exact ih _ fun j mem => inside j (List.mem_cons_of_mem _ mem)

theorem map_range'_getD (sorted : List ℕ) (t : ℕ) :
    (List.range' t (sorted.length - t)).map (fun i => sorted.getD i 0) = sorted.drop t := by
  apply List.ext_getElem (by simp)
  intro i inRange inDrop
  simp only [List.getElem_map, List.getElem_range', List.getElem_drop, one_mul]
  rw [List.getD_eq_getElem]

/-- Taking distinct nonces out one after another: their transactions in that order, and the map
without them. -/
theorem foldl_takeOut :
    ∀ (ns : List ℕ) (items : GoMap ℕ Transaction) (taken : List (Option Transaction)), ns.Nodup →
      (ns.foldl takeOut (items, taken)).2 = taken ++ ns.map items.lookup ∧
        ∀ k, (ns.foldl takeOut (items, taken)).1.lookup k = if k ∈ ns then none else items.lookup k := by
  intro ns
  induction ns with
  | nil => intro items taken _; simp
  | cons n ns ih =>
    intro items taken nodup
    obtain ⟨fresh, nodup⟩ := List.nodup_cons.mp nodup
    obtain ⟨takenEq, lookupEq⟩ := ih (items.erase n) (taken ++ [items.lookup n]) nodup
    refine ⟨?_, fun k => ?_⟩
    · have later : ns.map (items.erase n).lookup = ns.map items.lookup :=
        List.map_congr_left fun k mem => AList.lookup_erase_ne fun same => fresh (same ▸ mem)
      simp [List.foldl_cons, takeOut, takenEq, later]
    · simp only [List.foldl_cons, takeOut, lookupEq, List.mem_cons]
      by_cases same : k = n
      · subst same
        simp
      · simp [same, AList.lookup_erase_ne same]

end Lemmas

namespace TxSortedMap

section Methods
variable (sortNonces : GoSort ℕ nonceLess) (sortTxs : GoSort Transaction txByNonceLess)

def get (m : TxSortedMap) (nonce : ℕ) : Option Transaction := m.items.lookup nonce

def len (m : TxSortedMap) : ℕ := m.items.size

/-- `Put`: a new nonce is pushed on the heap; the transaction overwrites any with its nonce. -/
def put (m : TxSortedMap) (tx : Transaction) : TxSortedMap :=
  { items := m.items.insert tx.nonce tx
    index := if m.items.lookup tx.nonce = none then GoHeap.push nonceHeap m.index tx.nonce else m.index
    cache := none }

def forward (m : TxSortedMap) (threshold : ℕ) : Option (TxSortedMap × List (Option Transaction)) :=
  let loop := forwardLoop threshold m.index.length m.index (m.items, [])
  (shiftFront m.cache loop.2.2.length).map fun cache =>
    ({ items := loop.2.1, index := loop.1, cache }, loop.2.2)

/-- `Filter`: the `range` loop deletes what `filter` accepts, in the map's order; if it deleted
any, the heap is rebuilt from the nonces left, in the map's order again, and the cache dropped. -/
def filter (m : TxSortedMap) (f : Transaction → Bool) : TxSortedMap × List Transaction :=
  let removed := (m.items.entries.filter fun e => f e.2).map Sigma.snd
  let items := m.items.filter fun _ tx => !f tx
  if removed.length > 0 then ({ items, index := GoHeap.init nonceHeap items.keys, cache := none }, removed)
  else ({ m with items }, removed)

/-- `Cap(threshold)` -/
def cap (m : TxSortedMap) (threshold : ℤ) : Option (TxSortedMap × List (Option Transaction)) :=
  if (m.items.size : ℤ) ≤ threshold then some (m, [])
  -- below zero the loop runs on to `size = 0` and reads `(*m.index)[-1]`
  else if threshold < 0 then none
  else do
    let sorted := sortNonces.run m.index
    let t := threshold.toNat
    -- `size` runs from `len(m.items)` down to `threshold + 1`, taking `(*m.index)[size-1]` out
    let (items, drops) ← (List.range' t (m.items.size - t)).reverse.foldlM
      (fun acc i => sorted[i]?.map (takeOut acc)) (m.items, [])
    let cache ← shiftBack m.cache drops.length
    some ({ items, index := GoHeap.init nonceHeap (sorted.take t), cache }, drops)

/-- `Remove(nonce)`: `heap.Remove` at the first position holding the nonce. -/
def remove (m : TxSortedMap) (nonce : ℕ) : TxSortedMap × Bool :=
  if m.items.lookup nonce = none then (m, false)
  else
    let index :=
      match m.index.findIdx? (fun n => n == nonce) with
      | some i =>
        match GoHeap.remove nonceHeap m.index i with
        | some (rest, _) => rest
        | none => m.index
      | none => m.index
    ({ items := m.items.erase nonce, index, cache := none }, true)

/-- `Ready(start)` -/
def ready (m : TxSortedMap) (start : ℕ) : TxSortedMap × List (Option Transaction) :=
  match m.index.head? with
  | none => (m, [])
  | some top =>
    if top > start then (m, [])
    else
      let loop := readyLoop m.index.length top m.index (m.items, [])
      ({ items := loop.2.1, index := loop.1, cache := none }, loop.2.2)

/-- `Flatten`: the cache, sorted from the map's values when it was `nil`. -/
def flatten (m : TxSortedMap) : TxSortedMap × List Transaction :=
  let cache :=
    match m.cache with
    | some c => c
    | none => sortTxs.run (m.items.entries.map Sigma.snd)
  ({ m with cache := some cache }, cache)

end Methods

/-! ## What each method does -/

/-- `Forward(threshold)`: the transactions below `threshold` come out by increasing nonce, and the
map keeps the others. -/
def ForwardSpec (m : TxSortedMap) (threshold : ℕ) (m' : TxSortedMap) (removed : List (Option Transaction)) :
    Prop :=
  (∃ below, NonceSorted (m.items.filter fun n _ => n < threshold) below ∧ removed = below.map some) ∧
    m'.items.Equiv (m.items.filter fun n _ => threshold ≤ n)

/-- `Cap(threshold)`: the transactions past the `threshold` lowest nonces come out, the highest
first, and the map keeps the others. -/
def CapSpec (m : TxSortedMap) (threshold : ℕ) (m' : TxSortedMap) (drops : List (Option Transaction)) : Prop :=
  ∃ all, NonceSorted m.items all ∧ drops = (all.drop threshold).reverse.map some ∧
    m'.items.Equiv (m.items.filter fun n _ => n ∈ (all.take threshold).map Transaction.nonce)

/-- `Ready(start)`: nothing, when every nonce is above `start`; otherwise the transactions of the
run of nonces `lowest`, `lowest + 1`, … the map holds from its lowest nonce on, which the map
keeps no more. -/
def ReadySpec (m : TxSortedMap) (start : ℕ) (m' : TxSortedMap) (ready : List (Option Transaction)) : Prop :=
  ((∀ n ∈ m.items.keys, start < n) ∧ m' = m ∧ ready = []) ∨
    ∃ lowest k, lowest ∈ m.items.keys ∧ (∀ n ∈ m.items.keys, lowest ≤ n) ∧ lowest ≤ start ∧
      (∀ i < k, lowest + i ∈ m.items.keys) ∧ lowest + k ∉ m.items.keys ∧
      ready = (List.range' lowest k).map m.items.lookup ∧
      m'.items.Equiv (m.items.filter fun n _ => !(lowest ≤ n ∧ n < lowest + k))

section Spec
variable (sortNonces : GoSort ℕ nonceLess) (sortTxs : GoSort Transaction txByNonceLess)
variable {m : TxSortedMap}

theorem Valid.put (valid : m.Valid) (tx : Transaction) : (m.put tx).Valid := by
  have keyed : Keyed (m.items.insert tx.nonce tx) := fun n tx' found => by
    by_cases same : n = tx.nonce
    · subst same
      rw [AList.lookup_insert] at found
      cases found
      rfl
    · rw [AList.lookup_insert_ne same] at found
      exact valid.keyed n tx' found
  refine ⟨keyed, ?_, fun c cached => by cases cached⟩
  simp only [TxSortedMap.put]
  by_cases absent : m.items.lookup tx.nonce = none
  · -- a new nonce climbs the heap from the end
    rw [if_pos absent]
    obtain ⟨heap, perm⟩ := GoHeap.push_heap (nonceKeyed (m.index ++ [tx.nonce])) valid.indexed.heap
    refine ⟨?_, heap⟩
    rw [AList.keys_insert, List.erase_of_not_mem (mt mem_keys_iff.mp (not_not.mpr absent))]
    exact perm.trans ((valid.indexed.perm.append_right _).trans (List.perm_append_singleton _ _))
  · rw [if_neg absent]
    refine ⟨?_, valid.indexed.heap⟩
    rw [AList.keys_insert]
    exact valid.indexed.perm.trans (List.perm_cons_erase (mem_keys_iff.mpr absent))

theorem forward_spec (valid : m.Valid) (threshold : ℕ) :
    ∃ m' removed, m.forward threshold = some (m', removed) ∧ m'.Valid ∧ ForwardSpec m threshold m' removed := by
  obtain ⟨indexed, kept, below, sorted, removedEq⟩ :=
    forwardLoop_outcome threshold m.index.length m.index m.items [] valid.keyed valid.indexed le_rfl
  rw [List.nil_append] at removedEq
  have keyed := (valid.keyed.filter _).of_equiv kept
  -- the cache loses its front, which is what came out
  have shifted : ∃ cache, shiftFront m.cache (forwardLoop threshold m.index.length m.index (m.items, [])).2.2.length =
      some cache ∧ ∀ c, cache = some c → NonceSorted (forwardLoop threshold m.index.length m.index (m.items, [])).2.1 c := by
    cases cached : m.cache with
    | none => exact ⟨none, rfl, fun c none => by cases none⟩
    | some c =>
      have whole := valid.cache c cached
      have front : c.filter (fun tx => tx.nonce < threshold) = below :=
        (whole.filter fun n => decide (n < threshold)).unique sorted
      have fits : below.length ≤ c.length := front ▸ List.length_filter_le _ _
      refine ⟨some (c.drop below.length), by simp [shiftFront, removedEq, fits], fun c' same => ?_⟩
      cases same
      rw [← front, drop_filter_below threshold whole.increasing]
      exact (whole.filter fun n => decide (threshold ≤ n)).congr (GoMap.Equiv.symm kept)
  obtain ⟨cache, shiftedEq, cacheSorted⟩ := shifted
  exact ⟨_, _, by rw [forward, shiftedEq]; rfl, ⟨keyed, indexed, cacheSorted⟩, ⟨below, sorted, removedEq⟩, kept⟩

theorem filter_items (f : Transaction → Bool) : (m.filter f).1.items = m.items.filter fun _ tx => !f tx := by
  unfold TxSortedMap.filter
  dsimp only
  split <;> rfl

/-- What `Filter` returns: the transactions `filter` accepts. -/
theorem mem_filter_removed (keyed : Keyed m.items) (f : Transaction → Bool) (tx : Transaction) :
    tx ∈ (m.filter f).2 ↔ m.items.lookup tx.nonce = some tx ∧ f tx = true := by
  unfold TxSortedMap.filter
  dsimp only
  have removed : tx ∈ (m.items.entries.filter fun e => f e.2).map Sigma.snd ↔
      m.items.lookup tx.nonce = some tx ∧ f tx = true := by
    rw [← keyed.mem_values, List.mem_map, List.mem_map]
    constructor
    · rintro ⟨e, mem, rfl⟩
      exact ⟨⟨e, List.mem_of_mem_filter mem, rfl⟩, (List.mem_filter.mp mem).2⟩
    · rintro ⟨⟨e, mem, rfl⟩, accepted⟩
      exact ⟨e, List.mem_filter.mpr ⟨mem, accepted⟩, rfl⟩
  split <;> exact removed

theorem remove_items (nonce : ℕ) : (m.remove nonce).1.items = m.items.erase nonce := by
  unfold TxSortedMap.remove
  split
  case isTrue absent => exact (GoMap.erase_of_lookup_none absent).symm
  case isFalse => rfl

theorem remove_found (nonce : ℕ) : (m.remove nonce).2 = true ↔ m.items.lookup nonce ≠ none := by
  unfold TxSortedMap.remove
  split <;> simp_all

theorem Valid.filter (valid : m.Valid) (f : Transaction → Bool) : (m.filter f).1.Valid := by
  unfold TxSortedMap.filter
  dsimp only
  split
  case isTrue =>
    obtain ⟨heap, perm⟩ := GoHeap.init_heap (nonceKeyed (GoMap.filter (fun _ tx => !f tx) m.items).keys)
    exact ⟨valid.keyed.filter _, ⟨perm, heap⟩, fun c none => by cases none⟩
  case isFalse nothing =>
    -- nothing was accepted, so the map is as it was
    have none : m.items.entries.filter (fun e => f e.2) = [] := by
      apply List.eq_nil_of_length_eq_zero
      simpa only [List.length_map, gt_iff_lt, not_lt, Nat.le_zero] using nothing
    have same : GoMap.filter (fun _ tx => !f tx) m.items = m.items := by
      apply AList.ext
      refine List.filter_eq_self.mpr fun e mem => ?_
      simpa using List.filter_eq_nil_iff.mp none e mem
    rw [same]
    exact valid

theorem Valid.remove (valid : m.Valid) (nonce : ℕ) : (m.remove nonce).1.Valid := by
  unfold TxSortedMap.remove
  split
  case isTrue => exact valid
  case isFalse present =>
    have inIndex : nonce ∈ m.index := valid.indexed.perm.symm.subset (mem_keys_iff.mpr present)
    obtain ⟨i, found⟩ : ∃ i, m.index.findIdx? (fun n => n == nonce) = some i :=
      Option.ne_none_iff_exists'.mp fun none => by simpa using List.findIdx?_eq_none_iff.mp none nonce inIndex
    obtain ⟨lt, atI, -⟩ := List.findIdx?_eq_some_iff_getElem.mp found
    obtain ⟨⟨rest, x⟩, removed⟩ : ∃ p, GoHeap.remove nonceHeap m.index i = some p := by
      unfold GoHeap.remove
      rw [if_neg (by simpa [nonceHeap] using lt)]
      dsimp only
      split <;> exact ⟨_, rfl⟩
    obtain ⟨heap, perm, taken⟩ := GoHeap.remove_heap (nonceKeyed _) valid.indexed.heap removed
    rw [List.getD_eq_getElem _ _ lt, show m.index[i] = nonce by simpa using atI] at taken
    subst taken
    have erased := (perm.trans valid.indexed.perm).erase x
    rw [List.erase_cons_head, ← AList.keys_erase] at erased
    simp only [found, removed]
    exact ⟨valid.keyed.erase x, ⟨erased, heap⟩, fun c none => by cases none⟩

theorem ready_spec (valid : m.Valid) (start : ℕ) :
    (m.ready start).1.Valid ∧ ReadySpec m start (m.ready start).1 (m.ready start).2 := by
  unfold ready
  cases head : m.index.head? with
  | none =>
    obtain empty : m.index = [] := List.head?_eq_none_iff.mp head
    have noKeys := (empty ▸ valid.indexed).keys_eq_nil
    exact ⟨valid, .inl ⟨by simp [noKeys], rfl, rfl⟩⟩
  | some top =>
    obtain ⟨inKeys, least⟩ := valid.indexed.head_least head
    dsimp only
    split
    case isTrue above =>
      exact ⟨valid, .inl ⟨fun n mem => lt_of_lt_of_le above (least n mem), rfl, rfl⟩⟩
    case isFalse atMost =>
      obtain ⟨indexed, k, held, absent, readyEq, kept⟩ :=
        readyLoop_outcome m.index.length top m.index m.items [] valid.indexed le_rfl least
      refine ⟨⟨(valid.keyed.filter _).of_equiv kept, indexed, fun c none => by cases none⟩, .inr ?_⟩
      exact ⟨top, k, inKeys, least, not_lt.mp atMost, held, absent, by simpa using readyEq, kept⟩

theorem flatten_spec (valid : m.Valid) :
    (m.flatten sortTxs).1.Valid ∧ NonceSorted m.items (m.flatten sortTxs).2 := by
  have sorted : NonceSorted m.items (m.flatten sortTxs).2 := by
    unfold flatten
    cases cached : m.cache with
    | none => exact nonceSorted_run sortTxs valid.keyed
    | some c => exact valid.cache c cached
  exact ⟨⟨valid.keyed, valid.indexed, fun c cached => by cases cached; exact sorted⟩, sorted⟩

theorem cap_spec (valid : m.Valid) (threshold : ℕ) :
    ∃ m' drops, m.cap sortNonces threshold = some (m', drops) ∧ m'.Valid ∧ CapSpec m threshold m' drops ∧
      drops.length = m.len - threshold := by
  have perm : (sortNonces.run m.index).Perm m.items.keys := (sortNonces.perm _).trans valid.indexed.perm
  have nodup : (sortNonces.run m.index).Nodup := perm.nodup_iff.mpr (AList.keys_nodup _)
  have increasing := increasing_run sortNonces (valid.indexed.perm.nodup_iff.mpr (AList.keys_nodup _))
  have allSorted := nonceSorted_filterMap valid.keyed increasing fun n => perm.mem_iff
  have allNonces := allSorted.map_nonce_eq valid.keyed perm increasing
  have length : (sortNonces.run m.index).length = m.items.size := by rw [perm.length_eq, size_eq_length_keys]
  generalize sortedEq : sortNonces.run m.index = sorted at perm nodup increasing allSorted allNonces length
  generalize sorted.filterMap m.items.lookup = all at allSorted allNonces
  have lookups : sorted.map m.items.lookup = all.map some := by
    rw [← allNonces]
    exact allSorted.map_lookup
  have allLength : all.length = m.items.size := by rw [← length, ← allNonces, List.length_map]
  have front : (all.take threshold).map Transaction.nonce = sorted.take threshold := by rw [List.map_take, allNonces]
  unfold TxSortedMap.cap
  by_cases under : (m.items.size : ℤ) ≤ threshold
  case pos =>
    -- within the limit nothing changes
    rw [if_pos under]
    have few : all.length ≤ threshold := by omega
    refine ⟨m, [], rfl, valid, ⟨all, allSorted, by simp [List.drop_eq_nil_of_le few], fun k => ?_⟩, by simp [len]; omega⟩
    rw [List.take_of_length_le few, allNonces, GoMap.lookup_filter]
    cases found : m.items.lookup k with
    | none => rfl
    | some tx => simp [Option.filter_some, perm.mem_iff, mem_keys_iff, found]
  case neg =>
    rw [if_neg under, if_neg (by omega)]
    simp only [Int.toNat_natCast, sortedEq]
    have inside : ∀ i ∈ (List.range' threshold (m.items.size - threshold)).reverse, i < sorted.length := by
      intro i mem
      simp only [List.mem_reverse, List.mem_range'] at mem
      omega
    rw [foldlM_takeOut sorted _ _ inside, List.map_reverse, ← length, map_range'_getD]
    obtain ⟨dropsEq, lookupEq⟩ := foldl_takeOut (sorted.drop threshold).reverse m.items []
      (List.nodup_reverse.mpr (nodup.sublist (List.drop_sublist _ _)))
    generalize (sorted.drop threshold).reverse.foldl takeOut (m.items, []) = r at dropsEq lookupEq ⊢
    obtain ⟨items', drops⟩ := r
    dsimp only at dropsEq lookupEq ⊢
    rw [List.nil_append] at dropsEq
    have dropsLength : drops.length = m.items.size - threshold := by simp [dropsEq, length]
    have dropsAll : drops = (all.drop threshold).reverse.map some := by
      rw [dropsEq, List.map_reverse, List.map_drop, lookups, ← List.map_drop, ← List.map_reverse]
    -- what is left is the map on the `threshold` lowest nonces
    have kept : items'.Equiv (m.items.filter fun n _ => n ∈ (all.take threshold).map Transaction.nonce) := by
      intro k
      rw [lookupEq, GoMap.lookup_filter, front]
      cases found : m.items.lookup k with
      | none => simp
      | some tx =>
        have inSorted : k ∈ sorted := perm.mem_iff.mpr (mem_keys_iff.mpr (by simp [found]))
        by_cases late : k ∈ sorted.drop threshold
        · simp [late, (mem_take_iff_of_nodup nodup threshold k).not.mpr (by simp [late]), Option.filter_some]
        · simp [late, (mem_take_iff_of_nodup nodup threshold k).mpr ⟨inSorted, late⟩, Option.filter_some]
    have indexed : Indexed (GoHeap.init nonceHeap (sorted.take threshold)) items' := by
      obtain ⟨heap, initPerm⟩ := GoHeap.init_heap (nonceKeyed (sorted.take threshold))
      refine ⟨initPerm.trans ?_, heap⟩
      rw [List.perm_ext_iff_of_nodup (nodup.sublist (List.take_sublist _ _)) (AList.keys_nodup _)]
      intro k
      rw [mem_keys_iff, kept k, GoMap.lookup_filter, front]
      constructor
      · intro early
        have present := mem_keys_iff.mp (perm.mem_iff.mp (List.mem_of_mem_take early))
        obtain ⟨tx, found⟩ := Option.ne_none_iff_exists'.mp present
        simp [found, early, Option.filter_some]
      · intro kept
        by_contra late
        apply kept
        cases m.items.lookup k <;> simp [late, Option.filter_some]
    -- the cache, all the map's transactions, loses its back
    have shifted : ∃ cache, shiftBack m.cache drops.length = some cache ∧
        ∀ c, cache = some c → NonceSorted items' c := by
      cases cached : m.cache with
      | none => exact ⟨none, rfl, fun c none => by cases none⟩
      | some c =>
        obtain rfl := (valid.cache c cached).unique allSorted
        refine ⟨some (c.take threshold), ?_, fun c' same => ?_⟩
        · simp only [shiftBack, dropsLength, allLength, if_pos (Nat.sub_le _ _)]
          rw [Nat.sub_sub_self (by omega)]
        · cases same
          exact (allSorted.take threshold).congr (GoMap.Equiv.symm kept)
    obtain ⟨cache, shiftedEq, cacheSorted⟩ := shifted
    simp only [Option.bind_eq_bind, Option.bind_some, shiftedEq]
    refine ⟨_, _, rfl, ⟨(valid.keyed.filter _).of_equiv kept, indexed, cacheSorted⟩, ⟨all, allSorted, dropsAll, kept⟩, ?_⟩
    rw [dropsLength, len]

end Spec

/-- The methods that change the map. -/
inductive Op
  | put (tx : Transaction)
  | forward (threshold : ℕ)
  | filter (f : Transaction → Bool)
  | cap (threshold : ℤ)
  | remove (nonce : ℕ)
  | ready (start : ℕ)
  | flatten

section Run
variable (sortNonces : GoSort ℕ nonceLess) (sortTxs : GoSort Transaction txByNonceLess)

/-- One method call; `none` is a panic. -/
def step (m : TxSortedMap) : Op → Option TxSortedMap
  | .put tx => some (m.put tx)
  | .forward threshold => (m.forward threshold).map Prod.fst
  | .filter f => some (m.filter f).1
  | .cap threshold => (m.cap sortNonces threshold).map Prod.fst
  | .remove nonce => some (m.remove nonce).1
  | .ready start => some (m.ready start).1
  | .flatten => some (m.flatten sortTxs).1

/-- A sequence of calls on a new map. -/
def run (ops : List Op) : Option TxSortedMap := ops.foldlM (step sortNonces sortTxs) newTxSortedMap

end Run

theorem nonceLess_strictWeak : StrictWeakLess nonceLess where
  asymm a b lt := by simp only [nonceLess, decide_eq_true_eq, decide_eq_false_iff_not] at *; omega
  negTrans a b c lt := by simp only [nonceLess, decide_eq_true_eq] at *; omega

theorem txByNonceLess_strictWeak : StrictWeakLess txByNonceLess where
  asymm a b lt := by simp only [txByNonceLess, decide_eq_true_eq, decide_eq_false_iff_not] at *; omega
  negTrans a b c lt := by simp only [txByNonceLess, decide_eq_true_eq] at *; omega

/-- A `sort.Sort` for `nonceHeap`. -/
def nonceSort : GoSort ℕ nonceLess := insertionGoSort nonceLess nonceLess_strictWeak

/-- A `sort.Sort` for `types.TxByNonce`. -/
def txSort : GoSort Transaction txByNonceLess := insertionGoSort txByNonceLess txByNonceLess_strictWeak

section Runs
variable (sortNonces : GoSort ℕ nonceLess) (sortTxs : GoSort Transaction txByNonceLess)

theorem newTxSortedMap_valid : newTxSortedMap.Valid where
  keyed _ _ found := by cases found
  indexed := ⟨by simp [newTxSortedMap], fun c _ lt => by simp [newTxSortedMap] at lt⟩
  cache _ none := by cases none

/-- From a valid map, every call but `Cap` below zero returns and leaves a valid map. -/
theorem Valid.step {m : TxSortedMap} (valid : m.Valid) (op : Op) (nonneg : ∀ t, op = .cap t → 0 ≤ t) :
    ∃ m', step sortNonces sortTxs m op = some m' ∧ m'.Valid := by
  cases op with
  | put tx => exact ⟨_, rfl, valid.put tx⟩
  | forward threshold =>
    obtain ⟨m', removed, forwarded, valid', -⟩ := forward_spec valid threshold
    exact ⟨m', by simp [TxSortedMap.step, forwarded], valid'⟩
  | filter f => exact ⟨_, rfl, valid.filter f⟩
  | cap threshold =>
    obtain ⟨n, rfl⟩ := Int.eq_ofNat_of_zero_le (nonneg threshold rfl)
    obtain ⟨m', drops, capped, valid', -⟩ := cap_spec sortNonces valid n
    exact ⟨m', by simp [TxSortedMap.step, capped], valid'⟩
  | remove nonce => exact ⟨_, rfl, valid.remove nonce⟩
  | ready start => exact ⟨_, rfl, (ready_spec valid start).1⟩
  | flatten => exact ⟨_, rfl, (flatten_spec sortTxs valid).1⟩

/-- Every sequence of calls without a negative `Cap` runs to a valid map. -/
theorem run_valid (ops : List Op) (nonneg : ∀ t, Op.cap t ∈ ops → 0 ≤ t) :
    ∃ m, run sortNonces sortTxs ops = some m ∧ m.Valid :=
  GoLoop.foldlM_option_invariant Valid (fun op => ∀ t, op = .cap t → 0 ≤ t) (step sortNonces sortTxs)
    (fun _ op nonneg valid => valid.step sortNonces sortTxs op nonneg) ops newTxSortedMap
    (fun _ mem t same => nonneg t (same ▸ mem)) newTxSortedMap_valid

/-- `Cap` with a negative threshold panics: its loop goes on to `size = 0` and reads
`(*m.index)[-1]`. -/
theorem cap_negative_panics (m : TxSortedMap) (n : ℕ) : m.cap sortNonces (Int.negSucc n) = none := by
  have negative := Int.negSucc_lt_zero n
  unfold TxSortedMap.cap
  rw [if_neg (by omega), if_pos negative]

/-- `Cap(-1)` on a new map panics, where a cap would remove `max(0, 0 - (-1)) = 1` transaction. -/
theorem cap_minus_one_panics_on_new_map : newTxSortedMap.cap nonceSort (-1) = none :=
  cap_negative_panics nonceSort newTxSortedMap 0

theorem txSortedMap_representation_invariant (ops : List Op) (nonneg : ∀ t, Op.cap t ∈ ops → 0 ≤ t) :
    ∃ m, run sortNonces sortTxs ops = some m ∧ m.Valid ∧
      NonceSorted m.items (m.flatten sortTxs).2 ∧
      (∀ threshold, ∃ m' removed, m.forward threshold = some (m', removed) ∧ ForwardSpec m threshold m' removed) ∧
      (∀ threshold : ℕ, ∃ m' drops, m.cap sortNonces threshold = some (m', drops) ∧
        CapSpec m threshold m' drops ∧ drops.length = m.len - threshold) ∧
      ∀ start, ReadySpec m start (m.ready start).1 (m.ready start).2 := by
  obtain ⟨m, ran, valid⟩ := run_valid sortNonces sortTxs ops nonneg
  refine ⟨m, ran, valid, (flatten_spec sortTxs valid).2, fun threshold => ?_, fun threshold => ?_,
    fun start => (ready_spec valid start).2⟩
  · obtain ⟨m', removed, forwarded, -, spec⟩ := forward_spec valid threshold
    exact ⟨m', removed, forwarded, spec⟩
  · obtain ⟨m', drops, capped, -, spec, count⟩ := cap_spec sortNonces valid threshold
    exact ⟨m', drops, capped, spec, count⟩

theorem txSortedMap_representation_invariant_after_cap :
    (∀ t, Op.cap t ∈ [.put ⟨3, 1, 21000, 0⟩, .put ⟨1, 1, 21000, 0⟩, .flatten, .cap 1, .forward 2] → 0 ≤ t) ∧
      ∃ m, run nonceSort txSort [.put ⟨3, 1, 21000, 0⟩, .put ⟨1, 1, 21000, 0⟩, .flatten, .cap 1, .forward 2] =
          some m ∧ m.Valid ∧
        NonceSorted m.items (m.flatten txSort).2 ∧
        (∀ threshold, ∃ m' removed, m.forward threshold = some (m', removed) ∧ ForwardSpec m threshold m' removed) ∧
        (∀ threshold : ℕ, ∃ m' drops, m.cap nonceSort threshold = some (m', drops) ∧
          CapSpec m threshold m' drops ∧ drops.length = m.len - threshold) ∧
        ∀ start, ReadySpec m start (m.ready start).1 (m.ready start).2 := by
  have nonneg : ∀ t, Op.cap t ∈ [.put ⟨3, 1, 21000, 0⟩, .put ⟨1, 1, 21000, 0⟩, .flatten, .cap 1, .forward 2] →
      0 ≤ t := by
    intro t mem
    simp at mem
    omega
  exact ⟨nonneg, txSortedMap_representation_invariant nonceSort txSort _ nonneg⟩

end Runs

end TxSortedMap

end SimpleChain.Core
