import Mathlib

/-! # The contract of Go's `sort.Sort`

`sort.Sort(data)` reorders `data` so that no element is `Less` than one before
it; it is not stable, so the order it leaves among elements neither of which is
`Less` than the other is not specified.  `GoSort α less` is any routine with
that contract: a function returning a permutation of its input that is sorted
for `less`.  Results proved for every `GoSort` hold for the library's routine
whatever its tie-breaking.

When `less` leaves no two distinct elements unordered, the contract fixes the
output completely: `GoSort.run_eq_of_perm`.  `insertionGoSort` shows the
contract can be met for every strict weak order. -/
set_option autoImplicit false

namespace SimpleChain

section Contract
variable {α : Type}

/-- A `Less` method of the kind `sort.Sort` requires: irreflexive, and
incomparability never hides an inversion. -/
structure StrictWeakLess (less : α → α → Bool) : Prop where
  asymm : ∀ a b, less a b = true → less b a = false
  negTrans : ∀ a b c, less a c = true → less a b = true ∨ less b c = true

/-- `b` does not have to come before `a`. -/
def NotAfter (less : α → α → Bool) (a b : α) : Prop := less b a = false

instance (less : α → α → Bool) : DecidableRel (NotAfter less) :=
  fun a b => inferInstanceAs (Decidable (less b a = false))

/-- A sort routine honouring the contract of `sort.Sort` for `less`. -/
structure GoSort (α : Type) (less : α → α → Bool) where
  run : List α → List α
  perm : ∀ l, (run l).Perm l
  sorted : ∀ l, (run l).Pairwise (NotAfter less)

theorem GoSort.mem_run {less : α → α → Bool} (srt : GoSort α less) (l : List α) (a : α) :
    a ∈ srt.run l ↔ a ∈ l :=
  (srt.perm l).mem_iff

theorem GoSort.length_run {less : α → α → Bool} (srt : GoSort α less) (l : List α) :
    (srt.run l).length = l.length :=
  (srt.perm l).length_eq

/-- A total `less` (no two distinct elements unordered) leaves `sort.Sort` no
choice: permuted inputs give the same output. -/
theorem GoSort.run_eq_of_perm {less : α → α → Bool} (srt : GoSort α less)
    (total : ∀ a b, less a b = false → less b a = false → a = b) {l₁ l₂ : List α}
    (permuted : l₁.Perm l₂) : srt.run l₁ = srt.run l₂ := by
  have outputsPermuted : (srt.run l₁).Perm (srt.run l₂) :=
    (srt.perm l₁).trans (permuted.trans (srt.perm l₂).symm)
  refine List.Perm.eq_of_pairwise ?_ (srt.sorted l₁) (srt.sorted l₂) outputsPermuted
  intro a b _ _ notAfter notBefore
  exact total a b notBefore notAfter

theorem StrictWeakLess.notAfter_total {less : α → α → Bool} (order : StrictWeakLess less)
    (a b : α) : NotAfter less a b ∨ NotAfter less b a := by
  unfold NotAfter
  cases hba : less b a
  · exact Or.inl rfl
  · exact Or.inr (order.asymm b a hba)

theorem StrictWeakLess.notAfter_trans {less : α → α → Bool} (order : StrictWeakLess less)
    {a b c : α} (hab : NotAfter less a b) (hbc : NotAfter less b c) : NotAfter less a c := by
  unfold NotAfter at *
  cases hca : less c a
  · rfl
  · rcases order.negTrans c b a hca with hcb | hba
    · rw [hbc] at hcb
      exact absurd hcb Bool.false_ne_true
    · rw [hab] at hba
      exact absurd hba Bool.false_ne_true

/-- Insertion sort meets the contract for every strict weak order. -/
def insertionGoSort (less : α → α → Bool) (order : StrictWeakLess less) : GoSort α less where
  run := List.insertionSort (NotAfter less)
  perm := List.perm_insertionSort _
  sorted := by
    have : Std.Total (NotAfter less) := ⟨order.notAfter_total⟩
    have : IsTrans α (NotAfter less) := ⟨fun _ _ _ => order.notAfter_trans⟩
    exact List.pairwise_insertionSort _

end Contract

end SimpleChain
