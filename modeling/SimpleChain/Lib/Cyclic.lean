import Mathlib

/-! # Cyclic order of a list without repeats

A queue read round and round puts its elements in a cyclic order.  Reading `n`
entries round a nonempty queue (`queue[i % len(queue)]`) gives only its
elements, and reading exactly its length gives the queue itself.  The elements
that follow `a` are the queue rotated to start after `a`, and `b` stands
`(idx b + n - (idx a + 1)) % n` places after `a`, counting from 0 for the next
element: `n - 1` when `b = a`. -/
set_option autoImplicit false

namespace Cyclic

section RoundRobin
variable {α : Type}

theorem mem_of_mem_roundRobin {first x : α} {rest : List α} {n : Nat}
    (mem : x ∈ (List.range n).map fun i => (first :: rest).getD (i % (rest.length + 1)) first) :
    x ∈ first :: rest := by
  obtain ⟨i, -, rfl⟩ := List.mem_map.mp mem
  have lt : i % (rest.length + 1) < (first :: rest).length := Nat.mod_lt _ (by simp)
  rw [List.getD_eq_getElem?_getD, List.getElem?_eq_getElem lt, Option.getD_some]
  exact List.getElem_mem lt

/-- One round over the whole queue reads it as it is. -/
theorem roundRobin_length (first : α) (rest : List α) :
    ((List.range (rest.length + 1)).map fun i => (first :: rest).getD (i % (rest.length + 1)) first) =
      first :: rest := by
  apply List.ext_getElem (by simp)
  intro i inRange _
  simp only [List.length_map, List.length_range] at inRange
  simp only [List.getElem_map, List.getElem_range, Nat.mod_eq_of_lt inRange,
    List.getD_eq_getElem?_getD, List.getElem?_eq_getElem (show i < (first :: rest).length from inRange),
    Option.getD_some]

end RoundRobin

variable {α : Type} [DecidableEq α]

theorem takeWhile_bne (l : List α) (a : α) : l.takeWhile (· != a) = l.take (l.idxOf a) := by
  rw [List.takeWhile_eq_take_findIdx_not, List.idxOf]
  congr 2
  funext x
  simp only [bne, Bool.not_not]

/-- A `takeWhile` that stops inside the first list does not see the second. -/
theorem takeWhile_append_of_mem {l : List α} {a : α} (mem : a ∈ l) (r : List α) :
    (l ++ r).takeWhile (· != a) = l.takeWhile (· != a) := by
  rw [List.takeWhile_append, if_neg]
  rw [takeWhile_bne, List.length_take]
  have := List.idxOf_lt_length_iff.mpr mem
  omega

/-- The queue started after `a`. -/
theorem rotate_succ_idxOf {before after : List α} {a : α} (absent : a ∉ before) :
    (before ++ a :: after).rotate ((before ++ a :: after).idxOf a + 1) = after ++ (before ++ [a]) := by
  have idx : (before ++ a :: after).idxOf a = before.length := by
    rw [List.idxOf_append_of_notMem absent, List.idxOf_cons_self, Nat.add_zero]
  rw [idx, List.rotate_eq_drop_append_take (by simp)]
  have split : before ++ a :: after = (before ++ [a]) ++ after := by simp
  rw [split, List.drop_left' (by simp), List.take_left' (by simp)]

/-- Where `b` stands in the queue started after `a`. -/
theorem idxOf_rotate_succ {l : List α} (distinct : l.Nodup) {a b : α} (ha : a ∈ l) (hb : b ∈ l) :
    (l.rotate (l.idxOf a + 1)).idxOf b = (l.idxOf b + l.length - (l.idxOf a + 1)) % l.length := by
  obtain ⟨before, after, rfl⟩ := List.append_of_mem ha
  have parts := List.nodup_append.mp distinct
  have absent : a ∉ before := fun mem => parts.2.2 a mem a List.mem_cons_self rfl
  have notAfter : a ∉ after := (List.nodup_cons.mp parts.2.1).1
  have idxA : (before ++ a :: after).idxOf a = before.length := by
    rw [List.idxOf_append_of_notMem absent, List.idxOf_cons_self, Nat.add_zero]
  rw [rotate_succ_idxOf absent, idxA]
  simp only [List.length_append, List.length_cons]
  rcases List.mem_append.mp hb with inBefore | inRest
  · -- `b` comes round after the elements that follow `a`
    have notAfter' : b ∉ after := fun mem => parts.2.2 b inBefore b (List.mem_cons_of_mem a mem) rfl
    have lt := List.idxOf_lt_length_iff.mpr inBefore
    rw [List.idxOf_append_of_notMem notAfter', List.idxOf_append_of_mem inBefore,
      List.idxOf_append_of_mem inBefore, Nat.mod_eq_of_lt (by omega)]
    omega
  · have notBefore : b ∉ before := fun mem => parts.2.2 b mem b inRest rfl
    rcases List.mem_cons.mp inRest with rfl | inAfter
    · -- `b = a`: the whole queue but `a` comes first
      rw [List.idxOf_append_of_notMem notAfter, List.idxOf_append_of_notMem absent,
        List.idxOf_cons_self, idxA, Nat.mod_eq_of_lt (by omega)]
      omega
    · have ne : b ≠ a := fun eq => notAfter (eq ▸ inAfter)
      have lt := List.idxOf_lt_length_iff.mpr inAfter
      rw [List.idxOf_append_of_mem inAfter, List.idxOf_append_of_notMem notBefore,
        List.idxOf_cons_ne _ (Ne.symm ne)]
      rw [show before.length + (after.idxOf b + 1) + (before.length + (after.length + 1)) -
          (before.length + 1) = after.idxOf b + (before.length + (after.length + 1)) by omega,
        Nat.add_mod_right, Nat.mod_eq_of_lt (by omega)]

end Cyclic
