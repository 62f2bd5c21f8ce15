import Mathlib
import SimpleChain.Trie.Node

/-! # What a trie holds, and its canonical shape

`Node.get` reads a node as a finite map from the rest of a hex key to a value:
a short node strips its key, a full node selects the child of the next nibble,
a value node answers.  `Node.Shape` is the form every node of a trie built by
`TryUpdate` and `TryDelete` has, below a position where the rest of the key is a
non-empty hex key: a short node has a non-empty key and leads either to a value
through a key ending in the terminator or to a full node through nibbles; a full
node has at least two non-nil children, a shaped node under every nibble and a
value, if anything, under 16.  On shaped nodes `tryGet` resolves nothing and
computes `get`. -/
set_option autoImplicit false
set_option linter.dupNamespace false

namespace SimpleChain.Trie

theorem nibbleIndex_of_lt {x : UInt8} (lt : x < 16) :
    ∃ i : Fin 17, nibbleIndex x = some i ∧ i ≠ 16 := by
  have lt' : x.toNat < 16 := UInt8.lt_iff_toNat_lt.mp lt
  refine ⟨⟨x.toNat, by omega⟩, by simp [nibbleIndex, show x.toNat < 17 by omega], ?_⟩
  intro eq
  have := congrArg Fin.val eq
  simp at this
  omega

theorem nibbleIndex_sixteen : nibbleIndex 16 = some 16 := rfl

theorem nibbleIndex_inj {x y : UInt8} {i : Fin 17} (hx : nibbleIndex x = some i)
    (hy : nibbleIndex y = some i) : x = y := by
  unfold nibbleIndex at hx hy
  split at hx <;> split at hy <;> simp only [Option.some.injEq, reduceCtorEq] at hx hy
  rw [← UInt8.toNat_inj]
  have := congrArg Fin.val (hx.trans hy.symm)
  simpa using this

/-- A nibble of a hex key has a slot: 16 the value slot, any other a child slot. -/
theorem nibbleIndex_of_hexKey {x : UInt8} {r : List UInt8} (hex : HexKey (x :: r)) :
    (x = 16 ∧ r = [] ∧ nibbleIndex x = some 16) ∨
      (∃ i : Fin 17, nibbleIndex x = some i ∧ i ≠ 16 ∧ HexKey r) := by
  rcases hexKey_cons.mp hex with ⟨rfl, rfl⟩ | ⟨lt, hr⟩
  · exact .inl ⟨rfl, rfl, nibbleIndex_sixteen⟩
  · obtain ⟨i, hi, ne⟩ := nibbleIndex_of_lt lt
    exact .inr ⟨i, hi, ne, hr⟩

namespace Node

def get : Node → List UInt8 → Option (List UInt8)
  | .nil, _ => none
  | .value v, _ => some v
  | .short k c, q => if k <+: q then c.get (q.drop k.length) else none
  | .full _, [] => none
  | .full cs, x :: r =>
    match nibbleIndex x with
    | some i => (cs i).get r
    | none => none
  | .hash _, _ => none

@[simp] theorem get_nil (q : List UInt8) : Node.nil.get q = none := by
  cases q <;> rfl

@[simp] theorem get_value (v q : List UInt8) : (Node.value v).get q = some v := by
  cases q <;> rfl

theorem get_short (k : List UInt8) (c : Node) (q : List UInt8) :
    (short k c).get q = if k <+: q then c.get (q.drop k.length) else none := by
  cases q <;> rfl

@[simp] theorem get_short_append (k : List UInt8) (c : Node) (r : List UInt8) :
    (short k c).get (k ++ r) = c.get r := by
  simp [get_short]

theorem get_short_of_mismatch {k q : List UInt8} (c : Node) (h : ¬ k <+: q) :
    (short k c).get q = none := by
  simp [get_short, h]

theorem get_short_nil (c : Node) (q : List UInt8) : (short [] c).get q = c.get q := by
  simp [get_short]

/-- Merging two short nodes keeps what they hold. -/
theorem get_short_short (a b : List UInt8) (c : Node) (q : List UInt8) :
    (short (a ++ b) c).get q = (short a (short b c)).get q := by
  by_cases pre : a <+: q
  · obtain ⟨s, rfl⟩ := pre
    rw [get_short_append, get_short, get_short]
    simp only [List.prefix_append_right_inj]
    by_cases pre' : b <+: s
    · rw [if_pos pre', if_pos pre', List.length_append, ← List.drop_drop, List.drop_left]
    · rw [if_neg pre', if_neg pre']
  · rw [get_short_of_mismatch _ pre, get_short_of_mismatch]
    exact fun h => pre (List.prefix_append a b |>.trans h)

theorem get_full_cons {cs : Fin 17 → Node} {x : UInt8} {i : Fin 17} (hi : nibbleIndex x = some i)
    (r : List UInt8) : (full cs).get (x :: r) = (cs i).get r := by
  simp [get, hi]

def IsFull : Node → Prop
  | .full _ => True
  | _ => False

theorem not_isFull_nil : ¬ nil.IsFull := id

theorem not_isFull_short {k : List UInt8} {c : Node} : ¬ (short k c).IsFull := id

def occupiedSlots (cs : Fin 17 → Node) : List (Fin 17) :=
  (List.finRange 17).filter fun i => !(cs i).isNil

def Shape : Node → Prop
  | .short k c =>
    (∃ ns v, Nibbles ns ∧ k = ns ++ [16] ∧ c = .value v) ∨
      (k ≠ [] ∧ Nibbles k ∧ c.IsFull ∧ c.Shape)
  | .full cs =>
    (∀ i : Fin 17, i ≠ 16 → cs i = .nil ∨ (cs i).Shape) ∧
      (cs 16 = .nil ∨ ∃ v, cs 16 = .value v) ∧ 2 ≤ (occupiedSlots cs).length
  | _ => False

theorem shape_short {k : List UInt8} {c : Node} :
    (short k c).Shape ↔ (∃ ns v, Nibbles ns ∧ k = ns ++ [16] ∧ c = .value v) ∨
      (k ≠ [] ∧ Nibbles k ∧ c.IsFull ∧ c.Shape) := Iff.rfl

theorem shape_full {cs : Fin 17 → Node} :
    (full cs).Shape ↔ (∀ i : Fin 17, i ≠ 16 → cs i = .nil ∨ (cs i).Shape) ∧
      (cs 16 = .nil ∨ ∃ v, cs 16 = .value v) ∧ 2 ≤ (occupiedSlots cs).length := Iff.rfl

end Node

open Node

/-- The root of a trie in canonical form: empty, or shaped. -/
def Canonical (n : Node) : Prop :=
  n = .nil ∨ n.Shape

/-! ## `tryGet` on shaped nodes -/

/-- The comparison `tryGet` makes at a short node is the prefix test. -/
theorem short_mismatch_iff (k key : List UInt8) {pos : Nat} (le : pos ≤ key.length) :
    ((key.length : Int) - pos < k.length ∨ k ≠ (key.drop pos).take k.length) ↔
      ¬ k <+: key.drop pos := by
  rw [List.prefix_iff_eq_take]
  constructor
  · rintro (short | differ) same
    · have := congrArg List.length same
      simp only [List.length_take, List.length_drop] at this
      omega
    · exact differ same
  · exact .inr

namespace Trie

/-- On a shaped node, `tryGet` resolves nothing and answers what the node holds. -/
theorem tryGet_eq_get (t : Trie) (fuel : Nat) {n : Node} {key : List UInt8} {pos : Nat}
    (at_ : n = .nil ∨ (∃ v, n = .value v) ∨ (n.Shape ∧ HexKey (key.drop pos))) :
    t.tryGet fuel n key pos = .ok (n.get (key.drop pos), n, false) := by
  induction n generalizing pos with
  | nil => rw [tryGet]; simp
  | value v => rw [tryGet]; simp
  | hash h => simp [Shape] at at_
  | short k c ih =>
    obtain ⟨shape, hex⟩ : (short k c).Shape ∧ HexKey (key.drop pos) := by simpa using at_
    have le : pos ≤ key.length := by
      have := hex.ne_nil
      simp only [ne_eq, List.drop_eq_nil_iff, not_le] at this
      omega
    rw [tryGet, get_short]
    by_cases pre : k <+: key.drop pos
    · -- the child is a value, or a full node reached through nibbles
      have child : c = .nil ∨ (∃ v, c = .value v) ∨
          (c.Shape ∧ HexKey (key.drop (pos + k.length))) := by
        rcases shape with ⟨ns, v, -, -, rfl⟩ | ⟨-, nib, -, shaped⟩
        · exact .inr (.inl ⟨v, rfl⟩)
        · obtain ⟨rest, eq⟩ := pre
          rw [← eq, hexKey_append nib] at hex
          refine .inr (.inr ⟨shaped, ?_⟩)
          rwa [← List.drop_drop, ← eq, List.drop_left]
      rw [if_neg (by rw [short_mismatch_iff k key le]; exact not_not.mpr pre), ih child, if_pos pre,
        List.drop_drop]
      rfl
    · rw [if_pos ((short_mismatch_iff k key le).mpr pre), if_neg pre]
  | full cs ih =>
    obtain ⟨shape, hex⟩ : (full cs).Shape ∧ HexKey (key.drop pos) := by simpa using at_
    obtain ⟨slots, value, -⟩ := shape
    obtain ⟨x, r, eq⟩ := List.exists_cons_of_ne_nil hex.ne_nil
    have at_pos : key[pos]? = some x := by
      rw [← List.head?_drop, eq]; rfl
    have rest : key.drop (pos + 1) = r := by
      rw [← List.drop_drop, eq]; rfl
    rw [eq] at hex
    rw [tryGet, eq, at_pos]
    rcases nibbleIndex_of_hexKey hex with ⟨rfl, rfl, hi⟩ | ⟨i, hi, ne, hr⟩
    · have child : cs 16 = .nil ∨ (∃ v, cs 16 = .value v) ∨
          ((cs 16).Shape ∧ HexKey (key.drop (pos + 1))) := by
        rcases value with nil | isValue
        · exact .inl nil
        · exact .inr (.inl isValue)
      simp only [Option.bind_some, hi, ih 16 child, rest, get_full_cons hi]
      rfl
    · have child : cs i = .nil ∨ (∃ v, cs i = .value v) ∨
          ((cs i).Shape ∧ HexKey (key.drop (pos + 1))) := by
        rcases slots i ne with nil | shaped
        · exact .inl nil
        · exact .inr (.inr ⟨shaped, by rw [rest]; exact hr⟩)
      simp only [Option.bind_some, hi, ih i child, rest, get_full_cons hi]
      rfl

end Trie

end SimpleChain.Trie
