import Mathlib

/-! # The first element of a list that matches

A table scanned in insertion order answers a lookup with the first row that
matches (`List.find?`).  Rows are added at the end, and removed or replaced where
the first row matching some other test stands.  Each of these leaves a lookup
alone when the rows it touches do not match it. -/
set_option autoImplicit false

namespace FirstMatch

variable {α : Type}

/-- Replace the first element satisfying `q` by `y`. -/
def replaceFirst (q : α → Bool) (y : α) : List α → List α
  | [] => []
  | x :: rest => if q x then y :: rest else x :: replaceFirst q y rest

theorem find?_append_of_eq_some {p : α → Bool} {l : List α} {x : α} (r : List α)
    (found : l.find? p = some x) : (l ++ r).find? p = some x := by
  rw [List.find?_append, found]
  rfl

/-- The element `find?` returns stands where `eraseP` cuts the list. -/
theorem eraseP_of_find?_eq_some {p : α → Bool} {l : List α} {x : α} (found : l.find? p = some x) :
    ∃ l₁ l₂, l = l₁ ++ x :: l₂ ∧ l.eraseP p = l₁ ++ l₂ := by
  obtain ⟨px, l₁, l₂, rfl, before⟩ := List.find?_eq_some_iff_append.mp found
  refine ⟨l₁, l₂, rfl, ?_⟩
  rw [List.eraseP_append_right _ (fun y member => by simpa using before y member),
    List.eraseP_cons_of_pos px]

/-- Erasing the first `q`-element leaves a lookup by `p` that element fails. -/
theorem find?_eraseP {p q : α → Bool} (l : List α)
    (outside : ∀ x, l.find? q = some x → p x = false) : (l.eraseP q).find? p = l.find? p := by
  induction l with
  | nil => rfl
  | cons x rest ih =>
      by_cases hq : q x = true
      · -- `x` is the element erased
        have px : p x = false := outside x (by simp [hq])
        rw [List.eraseP_cons_of_pos hq, List.find?_cons_of_neg (by simp [px])]
      · have restOutside : ∀ y, rest.find? q = some y → p y = false := fun y found =>
          outside y (by rw [List.find?_cons_of_neg hq]; exact found)
        rw [List.eraseP_cons_of_neg hq]
        by_cases px : p x = true
        · rw [List.find?_cons_of_pos px, List.find?_cons_of_pos px]
        · rw [List.find?_cons_of_neg px, List.find?_cons_of_neg px, ih restOutside]

/-- Replacing the first `q`-element by `y` leaves a lookup by `p` that both fail. -/
theorem find?_replaceFirst {p q : α → Bool} {y : α} (l : List α)
    (outside : ∀ x, l.find? q = some x → p x = false) (py : p y = false) :
    (replaceFirst q y l).find? p = l.find? p := by
  induction l with
  | nil => rfl
  | cons x rest ih =>
      by_cases hq : q x = true
      · have px : p x = false := outside x (by simp [hq])
        rw [replaceFirst, if_pos hq, List.find?_cons_of_neg (by simp [py]),
          List.find?_cons_of_neg (by simp [px])]
      · have restOutside : ∀ z, rest.find? q = some z → p z = false := fun z found =>
          outside z (by rw [List.find?_cons_of_neg hq]; exact found)
        rw [replaceFirst, if_neg hq]
        by_cases px : p x = true
        · rw [List.find?_cons_of_pos px, List.find?_cons_of_pos px]
        · rw [List.find?_cons_of_neg px, List.find?_cons_of_neg px, ih restOutside]

/-- Replacing an element by one that agrees with every element it may replace
on `f` leaves the list's image under `f`. -/
theorem map_replaceFirst {β : Type} (f : α → β) {q : α → Bool} {y : α} (l : List α)
    (same : ∀ x, q x = true → f x = f y) : (replaceFirst q y l).map f = l.map f := by
  induction l with
  | nil => rfl
  | cons x rest ih =>
      by_cases hq : q x = true
      · rw [replaceFirst, if_pos hq, List.map_cons, List.map_cons, same x hq]
      · rw [replaceFirst, if_neg hq, List.map_cons, List.map_cons, ih]

/-- Among elements with distinct keys, erasing the first one with key `b` leaves
none with that key. -/
theorem key_ne_of_mem_eraseP {β : Type} [DecidableEq β] (f : α → β) (b : β) (l : List α)
    (distinct : (l.map f).Nodup) : ∀ x ∈ l.eraseP (fun y => f y == b), f x ≠ b := by
  induction l with
  | nil => intro x member; cases member
  | cons y rest ih =>
      rw [List.map_cons, List.nodup_cons] at distinct
      by_cases hy : (f y == b) = true
      · -- `y` is erased, and no key of the rest is `b`
        have erased : (y :: rest).eraseP (fun z => f z == b) = rest := List.eraseP_cons_of_pos hy
        rw [erased]
        intro x member same
        rw [beq_iff_eq] at hy
        exact distinct.1 (hy ▸ same ▸ List.mem_map_of_mem member)
      · have kept : (y :: rest).eraseP (fun z => f z == b) = y :: rest.eraseP (fun z => f z == b) :=
          List.eraseP_cons_of_neg hy
        rw [kept]
        intro x member
        rcases List.mem_cons.mp member with rfl | later
        · simpa using hy
        · exact ih distinct.2 x later

end FirstMatch
