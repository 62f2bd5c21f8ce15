import Mathlib
import SimpleChain.Trie.Update

/-! # One canonical trie for each map

Two nodes in canonical form that hold the same value at every hex key are equal.
A short node's key is where all its keys agree: below it a full node parts them
at two different nibbles, or a value ends the only key it holds.  So the key of
a short node is fixed by the map, and so, slot by slot, are the children of a
full node.  The form `insert` and `delete` keep is therefore a function of the
map they have written, whatever the order of the writes. -/
set_option autoImplicit false
set_option linter.dupNamespace false

namespace SimpleChain.Trie

open Node

/-! ## Keys a node holds -/

/-- The byte that selects slot `i` of a full node. -/
theorem get_full_slot (cs : Fin 17 → Node) (i : Fin 17) (r : List UInt8) :
    (Node.full cs).get (i.val.toUInt8 :: r) = (cs i).get r :=
  get_full_cons (nibbleIndex_toUInt8 i) r

theorem byte_lt_of_ne_sixteen {i : Fin 17} (ne : i ≠ 16) : i.val.toUInt8 < 16 := by
  have small : i.val < 16 := by
    have : i.val ≠ 16 := fun eq => ne (Fin.ext eq)
    omega
  simp [UInt8.lt_iff_toNat_lt]
  omega

namespace Node

/-- A shaped node holds a value at some hex key. -/
theorem Shape.exists_key {n : Node} (shape : n.Shape) : ∃ q, HexKey q ∧ n.get q ≠ none := by
  induction n with
  | short k c ih =>
    rcases shape with ⟨ns, w, nib, rfl, rfl⟩ | ⟨-, nib, -, shaped⟩
    · exact ⟨ns ++ [16], ⟨ns, nib, rfl⟩, by simp [get_short]⟩
    · obtain ⟨q, hex, held⟩ := ih shaped
      exact ⟨k ++ q, (hexKey_append nib).mpr hex, by rwa [get_short_append]⟩
  | full cs ih =>
    obtain ⟨slots, two⟩ := shape_full_iff_slots.mp shape
    obtain ⟨j, -, occupied⟩ := exists_other_occupied two 0
    by_cases sixteen : j = 16
    · subst sixteen
      obtain ⟨w, held⟩ : ∃ w, cs 16 = .value w := by simpa [SlotFits, occupied] using slots 16
      exact ⟨[16], ⟨[], nibbles_nil, rfl⟩, by rw [get_full_cons nibbleIndex_sixteen, held]; simp⟩
    · have shaped : (cs j).Shape := by simpa [SlotFits, sixteen, occupied] using slots j
      obtain ⟨q, hex, held⟩ := ih j shaped
      refine ⟨j.val.toUInt8 :: q, hexKey_cons.mpr (.inr ⟨byte_lt_of_ne_sixteen sixteen, hex⟩), ?_⟩
      rwa [get_full_slot]
  | _ => exact shape.elim

/-- A slot that holds something holds a key behind its byte. -/
theorem SlotFits.exists_key {i : Fin 17} {c : Node} (fits : SlotFits i c) (occupied : c ≠ .nil) :
    ∃ r, HexKey (i.val.toUInt8 :: r) ∧ c.get r ≠ none := by
  by_cases sixteen : i = 16
  · subst sixteen
    obtain ⟨w, rfl⟩ : ∃ w, c = .value w := by simpa [SlotFits, occupied] using fits
    exact ⟨[], ⟨[], nibbles_nil, rfl⟩, by simp⟩
  · have shaped : c.Shape := by simpa [SlotFits, sixteen, occupied] using fits
    obtain ⟨r, hex, held⟩ := shaped.exists_key
    exact ⟨r, hexKey_cons.mpr (.inr ⟨byte_lt_of_ne_sixteen sixteen, hex⟩), held⟩

end Node

/-- A full node in canonical form holds two keys that part at their first byte. -/
theorem full_forks {cs : Fin 17 → Node} (shape : (Node.full cs).Shape) :
    ∃ a b r₁ r₂, a ≠ b ∧ HexKey (a :: r₁) ∧ HexKey (b :: r₂) ∧
      (Node.full cs).get (a :: r₁) ≠ none ∧ (Node.full cs).get (b :: r₂) ≠ none := by
  obtain ⟨slots, two⟩ := shape_full_iff_slots.mp shape
  obtain ⟨i, -, hi⟩ := exists_other_occupied two 0
  obtain ⟨j, ji, hj⟩ := exists_other_occupied two i
  obtain ⟨r₁, hex₁, held₁⟩ := SlotFits.exists_key (slots i) hi
  obtain ⟨r₂, hex₂, held₂⟩ := SlotFits.exists_key (slots j) hj
  refine ⟨i.val.toUInt8, j.val.toUInt8, r₁, r₂, fun same => ji ?_, hex₁, hex₂, by rwa [get_full_slot],
    by rwa [get_full_slot]⟩
  exact Option.some.inj ((nibbleIndex_toUInt8 j).symm.trans (same ▸ nibbleIndex_toUInt8 i))

/-- A leaf holds its key alone. -/
theorem leaf_held {k : List UInt8} (hex : HexKey k) {v q : List UInt8} (qHex : HexKey q)
    (held : (Node.short k (.value v)).get q ≠ none) : q = k := by
  by_cases pre : k <+: q
  · exact (HexKey.eq_of_prefix hex qHex pre).symm
  · exact absurd (get_short_of_mismatch _ pre) held

/-- A short node holds only keys behind its own. -/
theorem short_held {k : List UInt8} {c : Node} {q : List UInt8} (held : (Node.short k c).get q ≠ none) : k <+: q := by
  by_contra pre
  exact held (get_short_of_mismatch _ pre)

/-- A key that is a prefix of two keys parting after `k` is a prefix of `k`. -/
theorem prefix_of_forks {k k' r₁ r₂ : List UInt8} {a b : UInt8} (differ : a ≠ b)
    (pre₁ : k' <+: k ++ a :: r₁) (pre₂ : k' <+: k ++ b :: r₂) : k' <+: k := by
  by_cases within : k'.length ≤ k.length
  · exact List.prefix_of_prefix_length_le pre₁ (List.prefix_append k (a :: r₁)) within
  · -- otherwise `k'` fixes the byte after `k` in both keys
    have longer : (k ++ [a]).length ≤ k'.length := by simp; omega
    have first : k ++ [a] <+: k' :=
      List.prefix_of_prefix_length_le (by simp [List.prefix_append_right_inj]) pre₁ longer
    have second : k ++ [b] <+: k' :=
      List.prefix_of_prefix_length_le (by simp [List.prefix_append_right_inj]) pre₂ (by simpa using longer)
    have same := List.prefix_of_prefix_length_le first second (by simp)
    exact absurd (by simpa using same.eq_of_length (by simp)) differ

/-- The key of an extension node is fixed by what it holds. -/
theorem extension_key_eq {k k' : List UInt8} {c c' : Node} (full : c.IsFull) (shape : c.Shape)
    (holds : ∀ q, HexKey q → (Node.short k c).get q = (Node.short k' c').get q) (nib : Nibbles k) :
    k' <+: k := by
  obtain ⟨cs, rfl⟩ : ∃ cs, c = .full cs := by
    cases c with
    | full cs => exact ⟨cs, rfl⟩
    | _ => exact full.elim
  obtain ⟨a, b, r₁, r₂, differ, hex₁, hex₂, held₁, held₂⟩ := full_forks shape
  have through : ∀ x r, HexKey (x :: r) → (Node.full cs).get (x :: r) ≠ none → k' <+: k ++ x :: r := by
    intro x r hex held
    apply short_held (c := c')
    rw [← holds _ ((hexKey_append nib).mpr hex), get_short_append]
    exact held
  exact prefix_of_forks differ (through a r₁ hex₁ held₁) (through b r₂ hex₂ held₂)

/-- A short node and a full node in canonical form never hold the same keys: the full node's
keys part at their first byte, where all the short node's keys agree. -/
theorem short_ne_full_holds {k : List UInt8} (ne : k ≠ []) (c : Node) {cs : Fin 17 → Node}
    (shape : (Node.full cs).Shape) : ¬ ∀ q, HexKey q → (Node.short k c).get q = (Node.full cs).get q := by
  intro same
  obtain ⟨a, b, r₁, r₂, differ, hex₁, hex₂, held₁, held₂⟩ := full_forks shape
  obtain ⟨x, k', rfl⟩ := List.exists_cons_of_ne_nil ne
  have first : ∀ y r, HexKey (y :: r) → (Node.full cs).get (y :: r) ≠ none → x = y := by
    intro y r hex held
    rw [← same _ hex] at held
    exact (List.cons_prefix_cons.mp (short_held held)).1
  exact differ ((first a r₁ hex₁ held₁).symm.trans (first b r₂ hex₂ held₂))

theorem IsFull.exists {c : Node} (full : c.IsFull) : ∃ cs, c = .full cs := by
  cases c with
  | full cs => exact ⟨cs, rfl⟩
  | _ => exact full.elim

/-- A leaf and an extension never hold the same keys: the leaf holds one, the extension two. -/
theorem leaf_ne_extension_holds {k : List UInt8} (hex : HexKey k) (v : List UInt8) {k' : List UInt8} {c' : Node}
    (nib : Nibbles k') (full : c'.IsFull) (shape : c'.Shape) :
    ¬ ∀ q, HexKey q → (Node.short k (.value v)).get q = (Node.short k' c').get q := by
  intro same
  obtain ⟨cs, rfl⟩ := IsFull.exists full
  obtain ⟨a, b, r₁, r₂, differ, hex₁, hex₂, held₁, held₂⟩ := full_forks shape
  have only : ∀ x r, HexKey (x :: r) → (Node.full cs).get (x :: r) ≠ none → k' ++ x :: r = k := by
    intro x r hexR held
    have whole := (hexKey_append nib).mpr hexR
    refine leaf_held hex whole (v := v) ?_
    rwa [same _ whole, get_short_append]
  have both := (only a r₁ hex₁ held₁).trans (only b r₂ hex₂ held₂).symm
  exact differ (List.cons.inj (List.append_cancel_left both)).1

/-! ## Uniqueness -/

/-- Slot 16 is fixed by the value at the end of the key. -/
theorem eq_of_value_slot {c c' : Node} (fits : c = .nil ∨ ∃ w, c = .value w) (fits' : c' = .nil ∨ ∃ w, c' = .value w)
    (same : c.get [] = c'.get []) : c = c' := by
  rcases fits with rfl | ⟨w, rfl⟩ <;> rcases fits' with rfl | ⟨w', rfl⟩
  · rfl
  · simp at same
  · simp at same
  · simp at same
    rw [same]

/-- Two nodes in canonical form that hold the same value at every hex key are equal. -/
theorem eq_of_get (n : Node) :
    ∀ m, (n = .nil ∨ n.Shape) → (m = .nil ∨ m.Shape) → (∀ q, HexKey q → n.get q = m.get q) → n = m := by
  induction n with
  | nil =>
    intro m _ canonical same
    rcases canonical with rfl | shape
    · rfl
    · obtain ⟨q, hex, held⟩ := shape.exists_key
      exact absurd (same q hex).symm (by simpa using held)
  | value w =>
    intro _ canonical
    simp [Shape] at canonical
  | hash h =>
    intro _ canonical
    simp [Shape] at canonical
  | short k c ih =>
    intro m canonical canonical' same
    have shape : (Node.short k c).Shape := canonical.resolve_left short_ne_nil
    rcases canonical' with rfl | shape'
    · obtain ⟨q, hex, held⟩ := shape.exists_key
      exact absurd (same q hex) (by simpa using held)
    have keyNe : k ≠ [] := by
      rcases shape with ⟨ns, -, -, rfl, -⟩ | ⟨ne, -⟩
      · simp
      · exact ne
    cases m with
    | full cs' => exact absurd same (short_ne_full_holds keyNe c shape')
    | short k' c' =>
      rcases shape with ⟨ns, w, nibs, rfl, rfl⟩ | ⟨-, nib, full, shaped⟩ <;>
        rcases shape' with ⟨ns', w', nibs', rfl, rfl⟩ | ⟨-, nib', full', shaped'⟩
      · -- two leaves: each holds its key alone
        have held : (Node.short (ns' ++ [16]) (.value w')).get (ns ++ [16]) = some w := by
          rw [← same _ ⟨ns, nibs, rfl⟩]
          simp [get_short]
        have keys := leaf_held (v := w') ⟨ns', nibs', rfl⟩ ⟨ns, nibs, rfl⟩ (by rw [held]; simp)
        rw [← keys] at held
        simp [get_short] at held
        rw [keys, held]
      · exact absurd same (leaf_ne_extension_holds ⟨ns, nibs, rfl⟩ w nib' full' shaped')
      · exact absurd (fun q hex => (same q hex).symm) (leaf_ne_extension_holds ⟨ns', nibs', rfl⟩ w' nib full shaped)
      · have pre : k' <+: k := extension_key_eq full shaped same nib
        have pre' : k <+: k' := extension_key_eq full' shaped' (fun q hex => (same q hex).symm) nib'
        have keys : k = k' := (pre.eq_of_length (Nat.le_antisymm pre.length_le pre'.length_le)).symm
        subst keys
        have child : c = c' := ih c' (.inr shaped) (.inr shaped') fun r hex => by
          have := same (k ++ r) ((hexKey_append nib).mpr hex)
          rwa [get_short_append, get_short_append] at this
        rw [child]
    | _ => exact shape'.elim
  | full cs ih =>
    intro m canonical canonical' same
    have shape : (Node.full cs).Shape := canonical.resolve_left full_ne_nil
    obtain ⟨slots, -⟩ := shape_full_iff_slots.mp shape
    rcases canonical' with rfl | shape'
    · obtain ⟨q, hex, held⟩ := shape.exists_key
      exact absurd (same q hex) (by simpa using held)
    cases m with
    | short k' c' =>
      have keyNe : k' ≠ [] := by
        rcases shape' with ⟨ns, -, -, rfl, -⟩ | ⟨ne, -⟩
        · simp
        · exact ne
      exact absurd (fun q hex => (same q hex).symm) (short_ne_full_holds keyNe c' shape)
    | full cs' =>
      obtain ⟨slots', -⟩ := shape_full_iff_slots.mp shape'
      congr 1
      funext i
      by_cases sixteen : i = 16
      · -- the value slot: what the key ending here holds
        subst sixteen
        refine eq_of_value_slot (by simpa [SlotFits] using slots 16) (by simpa [SlotFits] using slots' 16) ?_
        have := same [16] ⟨[], nibbles_nil, rfl⟩
        rwa [get_full_cons nibbleIndex_sixteen, get_full_cons nibbleIndex_sixteen] at this
      · refine ih i (cs' i) (by simpa [SlotFits, sixteen] using slots i) (by simpa [SlotFits, sixteen] using slots' i)
          fun r hex => ?_
        have := same _ (hexKey_cons.mpr (.inr ⟨byte_lt_of_ne_sixteen sixteen, hex⟩))
        rwa [get_full_slot, get_full_slot] at this
    | _ => exact shape'.elim

end SimpleChain.Trie
