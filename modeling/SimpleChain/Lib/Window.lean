import Mathlib

/-! # Sliding windows in a slice

A bounded history kept in a Go slice is trimmed before each append:
`if len(w) >= n { w = w[1:n] }; w = append(w, x)`.  Started on at most `n`
elements, it holds the last `n` elements of everything appended, Mathlib's
`List.rtake`: one trimmed append is one more element under `rtake`
(`trim_append_rtake`). -/
set_option autoImplicit false

namespace Window

variable {α : Type}

theorem length_rtake (l : List α) (n : Nat) : (l.rtake n).length = min n l.length := by
  rw [List.rtake, List.length_drop]
  omega

/-- A window of at least one element ends where the list ends. -/
theorem getLast?_rtake {n : Nat} (positive : 0 < n) (l : List α) :
    (l.rtake n).getLast? = l.getLast? := by
  rw [List.rtake, List.getLast?_drop]
  cases l with
  | nil => simp
  | cons a rest =>
      have inside : ¬ (a :: rest).length ≤ (a :: rest).length - n := by
        simp only [List.length_cons]
        omega
      rw [if_neg inside]

/-- The Go trim-and-append on the last `n` elements gives the last `n`
elements of the longer list. -/
theorem trim_append_rtake {n : Nat} (positive : 0 < n) (l : List α) (x : α) :
    (if (l.rtake n).length ≥ n then ((l.rtake n).take n).drop 1 else l.rtake n) ++ [x] =
      (l ++ [x]).rtake n := by
  obtain ⟨k, rfl⟩ : ∃ k, n = k + 1 := ⟨n - 1, by omega⟩
  rw [List.rtake_concat_succ, length_rtake]
  split_ifs with full
  · -- the window is full: dropping its oldest element leaves the last `k`
    have whole : (l.rtake (k + 1)).take (k + 1) = l.rtake (k + 1) :=
      List.take_of_length_le (by rw [length_rtake]; omega)
    rw [whole, List.rtake, List.rtake, List.drop_drop]
    congr 2
    omega
  · -- the window holds all of `l`, and so does the shorter one
    rw [List.rtake, List.rtake]
    congr 2
    omega

end Window
