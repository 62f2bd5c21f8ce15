import Mathlib
import SimpleChain.Trie.Lookup
import SimpleChain.Lib.Loop

/-! # `insert` and `delete` write one key of the map

On a trie in canonical form, `insert` sets the value of one hex key and
`delete` removes it, and both leave the trie in canonical form: `insert` splits a
short node into a full node with exactly two children where the keys part, and
`delete` folds a full node left with one child into a short node and merges
short nodes that meet.  The map is read by `Node.get` on hex keys; `Overwrites`
says that one node holds what another holds except at one key. -/
set_option autoImplicit false
set_option linter.dupNamespace false

namespace SimpleChain.Trie

open Node

/-! ## Overwriting one key -/

/-- Below the path `pfx`, `n'` holds what `n` holds, except that `key` holds `o`. -/
def Overwrites (pfx : List UInt8) (n' n : Node) (key : List UInt8) (o : Option (List UInt8)) : Prop :=
  ∀ r, HexKey (pfx ++ r) → n'.get r = if r = key then o else n.get r

namespace Overwrites

variable {pfx : List UInt8} {o : Option (List UInt8)}

theorem of_get {n : Node} {key : List UInt8} (held : n.get key = o) : Overwrites pfx n n key o := by
  intro r _
  split
  · subst r
    exact held
  · rfl

/-- At the end of a hex key a node is the value slot. -/
theorem atEnd (hex : HexKey pfx) (n' n : Node) (held : ∀ r, n'.get r = o) : Overwrites pfx n' n [] o := by
  intro r whole
  obtain ⟨ns, nib, rfl⟩ := hex
  rw [List.append_assoc, List.singleton_append] at whole
  rw [HexKey.eq_of_append_cons whole nib, if_pos rfl, held]

theorem short {nk rest : List UInt8} {c' c : Node} (child : Overwrites (pfx ++ nk) c' c rest o) :
    Overwrites pfx (.short nk c') (.short nk c) (nk ++ rest) o := by
  intro r whole
  by_cases pre : nk <+: r
  · obtain ⟨r', rfl⟩ := pre
    rw [get_short_append, get_short_append, child r' (by rwa [← List.append_assoc] at whole)]
    simp
  · rw [get_short_of_mismatch _ pre, get_short_of_mismatch _ pre, if_neg]
    rintro rfl
    exact pre (List.prefix_append nk rest)

theorem full {cs : Fin 17 → Node} {x : UInt8} {i : Fin 17} (hi : nibbleIndex x = some i) {rest : List UInt8}
    {c' : Node} (child : Overwrites (pfx ++ [x]) c' (cs i) rest o) :
    Overwrites pfx (.full (Function.update cs i c')) (.full cs) (x :: rest) o := by
  intro r whole
  cases r with
  | nil => simp [Node.get]
  | cons y r =>
    cases hj : nibbleIndex y with
    | none =>
      have differ : y ≠ x := by
        rintro rfl
        rw [hi] at hj
        cases hj
      simp [Node.get, hj, differ]
    | some j =>
      rw [get_full_cons hj, get_full_cons hj, Function.update_apply]
      by_cases same : j = i
      · subst same
        have xy : y = x := nibbleIndex_inj hj hi
        subst xy
        rw [if_pos rfl, child r (by simpa using whole)]
        simp
      · rw [if_neg same, if_neg]
        rintro ⟨⟩
        exact same (Option.some.inj (hj.symm.trans hi))

theorem get_key {n' n : Node} {key : List UInt8} (overwrote : Overwrites pfx n' n key o) (hex : HexKey (pfx ++ key)) :
    n'.get key = o := by
  rw [overwrote key hex, if_pos rfl]

/-- Two nodes that hold the same keys overwrite alike. -/
theorem congr {n' m' n : Node} {key : List UInt8} (same : ∀ r, n'.get r = m'.get r)
    (overwrote : Overwrites pfx m' n key o) : Overwrites pfx n' n key o := by
  intro r whole
  rw [same r, overwrote r whole]

end Overwrites

/-! ## Slots and shapes -/

namespace Node

/-- What a slot of a full node in canonical form holds: nothing or a value in slot 16,
nothing or a shaped node in the others. -/
def SlotFits (i : Fin 17) (c : Node) : Prop :=
  if i = 16 then c = .nil ∨ ∃ w, c = .value w else c = .nil ∨ c.Shape

theorem isNil_eq_false {c : Node} : c.isNil = false ↔ c ≠ .nil := by
  cases c <;> simp [isNil]

theorem shape_full_iff_slots {cs : Fin 17 → Node} :
    (full cs).Shape ↔ (∀ i, SlotFits i (cs i)) ∧ 2 ≤ (occupiedSlots cs).length := by
  rw [shape_full]
  constructor
  · rintro ⟨slots, value, two⟩
    refine ⟨fun i => ?_, two⟩
    by_cases sixteen : i = 16
    · subst sixteen
      simpa [SlotFits] using value
    · simpa [SlotFits, sixteen] using slots i sixteen
  · rintro ⟨slots, two⟩
    refine ⟨fun i ne => by simpa [SlotFits, ne] using slots i, by simpa [SlotFits] using slots 16, two⟩

theorem mem_occupiedSlots {cs : Fin 17 → Node} {i : Fin 17} : i ∈ occupiedSlots cs ↔ cs i ≠ .nil := by
  simp [occupiedSlots, isNil_eq_false]

theorem two_le_occupiedSlots {cs : Fin 17 → Node} {i j : Fin 17} (differ : i ≠ j) (hi : cs i ≠ .nil)
    (hj : cs j ≠ .nil) : 2 ≤ (occupiedSlots cs).length := by
  have sub : [i, j].Subperm (occupiedSlots cs) := by
    refine List.subperm_of_subset (by simp [differ]) fun k member => ?_
    rcases List.mem_pair.mp member with rfl | rfl
    · exact mem_occupiedSlots.mpr hi
    · exact mem_occupiedSlots.mpr hj
  simpa using sub.length_le

theorem get_short_cons (a : UInt8) (k : List UInt8) (c : Node) (x : UInt8) (r : List UInt8) :
    (short (a :: k) c).get (x :: r) = if a = x then (short k c).get r else none := by
  by_cases same : a = x
  · subst same
    simp [get_short, List.cons_prefix_cons]
  · simp [get_short, List.cons_prefix_cons, same]

theorem Shape.ne_nil {c : Node} (shape : c.Shape) : c ≠ .nil := by
  rintro rfl
  exact shape

/-- A shaped short node keeps its shape when its key loses a prefix. -/
theorem Shape.short_drop {p k : List UInt8} {c : Node} (shape : (short (p ++ k) c).Shape) (ne : k ≠ []) :
    (short k c).Shape := by
  rcases shape with ⟨ns, w, nib, split, rfl⟩ | ⟨-, nib, full, shaped⟩
  · have within : p.length ≤ ns.length := by
      have := congrArg List.length split
      simp only [List.length_append, List.length_singleton] at this
      have : k.length ≠ 0 := by simpa using ne
      omega
    have rest : k = ns.drop p.length ++ [16] := by
      rw [← @List.drop_left _ p k, split, List.drop_append_of_le_length within]
    exact .inl ⟨ns.drop p.length, w, nib.drop _, rest, rfl⟩
  · exact .inr ⟨ne, (nibbles_append.mp nib).2, full, shaped⟩

/-- The node a shaped short node leaves under the slot of its first nibble. -/
theorem Shape.slot {x : UInt8} {r : List UInt8} {c : Node} (shape : (short (x :: r) c).Shape) {i : Fin 17}
    (hi : nibbleIndex x = some i) :
    SlotFits i (if r = [] then c else .short r c) ∧ (if r = [] then c else .short r c) ≠ .nil := by
  have tail : r ≠ [] → (short r c).Shape := fun ne => Shape.short_drop (p := [x]) shape ne
  rcases shape with ⟨ns, w, nib, split, rfl⟩ | ⟨-, nib, full, shaped⟩
  · cases r with
    | nil =>
      -- the terminator itself: the value goes to slot 16
      have last : x = 16 ∧ ns = [] := by
        cases ns with
        | nil => simpa using split
        | cons y ns => simp at split
      obtain ⟨rfl, -⟩ := last
      rw [nibbleIndex_sixteen, Option.some.injEq] at hi
      subst hi
      simp [SlotFits]
    | cons y r =>
      have lt : x < 16 := by
        cases ns with
        | nil => simp at split
        | cons z ns =>
          simp only [List.cons_append, List.cons.injEq] at split
          exact split.1 ▸ nib z List.mem_cons_self
      obtain ⟨j, hj, ne⟩ := nibbleIndex_of_lt lt
      have same : i = j := Option.some.inj (hi.symm.trans hj)
      subst same
      simp [SlotFits, ne, tail]
  · obtain ⟨j, hj, ne⟩ := nibbleIndex_of_lt (nib x List.mem_cons_self)
    have same : i = j := Option.some.inj (hi.symm.trans hj)
    subst same
    cases r with
    | nil =>
      rw [if_pos rfl]
      refine ⟨by simp [SlotFits, ne, shaped], ?_⟩
      rintro rfl
      exact full
    | cons y r => simp [SlotFits, ne, tail]

/-- What comes before a non-empty tail of a hex key is nibbles, and the tail a hex key. -/
theorem hexKey_append_iff {p r : List UInt8} (ne : r ≠ []) : HexKey (p ++ r) ↔ Nibbles p ∧ HexKey r := by
  constructor
  · rintro ⟨ns, nib, split⟩
    have within : p.length ≤ ns.length := by
      have := congrArg List.length split
      simp only [List.length_append, List.length_singleton] at this
      have : r.length ≠ 0 := by simpa using ne
      omega
    have front : p = ns.take p.length := by
      have := congrArg (List.take p.length) split
      rwa [List.take_left' rfl, List.take_append_of_le_length within] at this
    have rest : r = ns.drop p.length ++ [16] := by
      have := congrArg (List.drop p.length) split
      rwa [List.drop_left' rfl, List.drop_append_of_le_length within] at this
    have nibP : Nibbles (ns.take p.length) := nib.take _
    rw [← front] at nibP
    exact ⟨nibP, ns.drop p.length, nib.drop _, rest⟩
  · rintro ⟨nib, hex⟩
    exact (hexKey_append nib).mpr hex

/-- The first byte of a shaped short node's key has a slot. -/
theorem Shape.nibbleIndex_head {x : UInt8} {r : List UInt8} {c : Node} (shape : (short (x :: r) c).Shape) :
    ∃ i, nibbleIndex x = some i := by
  rcases shape with ⟨ns, w, nib, split, -⟩ | ⟨-, nib, -, -⟩
  · cases ns with
    | nil =>
      simp only [List.nil_append, List.cons.injEq] at split
      exact ⟨16, split.1 ▸ nibbleIndex_sixteen⟩
    | cons z ns =>
      simp only [List.cons_append, List.cons.injEq] at split
      obtain ⟨i, hi, -⟩ := nibbleIndex_of_lt (split.1 ▸ nib z List.mem_cons_self)
      exact ⟨i, hi⟩
  · obtain ⟨i, hi, -⟩ := nibbleIndex_of_lt (nib x List.mem_cons_self)
    exact ⟨i, hi⟩

end Node

/-! ## Insert -/

namespace Overwrites

variable {pfx : List UInt8} {o : Option (List UInt8)}

theorem congr_old {n' n m : Node} {key : List UInt8} (same : ∀ r, n.get r = m.get r)
    (overwrote : Overwrites pfx n' m key o) : Overwrites pfx n' n key o := by
  intro r whole
  rw [same r, overwrote r whole]

/-- A short node that ends a hex key in its value holds that key alone. -/
theorem leaf {key : List UInt8} (hex : HexKey (pfx ++ key)) (v : List UInt8) :
    Overwrites pfx (.short key (.value v)) .nil key (some v) := by
  intro r whole
  rw [get_short, get_nil]
  by_cases same : r = key
  · subst same
    simp
  · rw [if_neg same, if_neg]
    intro pre
    have := HexKey.eq_of_prefix hex whole ((List.prefix_append_right_inj pfx).mpr pre)
    exact same (List.append_cancel_left this).symm

end Overwrites

/-- The full node `insert` builds where two keys part, with `old` under the nibble `a` and
`new` under `b`. -/
theorem get_branch {a b : UInt8} {i j : Fin 17} (ha : nibbleIndex a = some i) (hb : nibbleIndex b = some j)
    (differ : i ≠ j) (old new : Node) (x : UInt8) (r : List UInt8) :
    (Node.full (Function.update (Function.update (fun _ => .nil) i old) j new)).get (x :: r) =
      if x = b then new.get r else if x = a then old.get r else none := by
  cases hx : nibbleIndex x with
  | none =>
    have xb : x ≠ b := by rintro rfl; rw [hb] at hx; cases hx
    have xa : x ≠ a := by rintro rfl; rw [ha] at hx; cases hx
    simp [Node.get, hx, xb, xa]
  | some k =>
    rw [get_full_cons hx]
    by_cases kj : k = j
    · subst kj
      rw [Function.update_self, if_pos (nibbleIndex_inj hx hb)]
    · have xb : x ≠ b := fun same => kj (Option.some.inj (hx.symm.trans (same ▸ hb)))
      rw [Function.update_of_ne kj, if_neg xb]
      by_cases ki : k = i
      · subst ki
        rw [Function.update_self, if_pos (nibbleIndex_inj hx ha)]
      · have xa : x ≠ a := fun same => ki (Option.some.inj (hx.symm.trans (same ▸ ha)))
        rw [Function.update_of_ne ki, if_neg xa, get_nil]

theorem occupiedSlots_length_le_update {cs : Fin 17 → Node} (i : Fin 17) {c : Node} (nonNil : c ≠ .nil) :
    (occupiedSlots cs).length ≤ (occupiedSlots (Function.update cs i c)).length := by
  have nodup : (occupiedSlots cs).Nodup := (List.nodup_finRange 17).filter _
  refine (List.subperm_of_subset nodup fun k member => ?_).length_le
  rw [mem_occupiedSlots] at member ⊢
  by_cases same : k = i
  · subst same
    simpa using nonNil
  · simpa [same] using member

/-- A full node in canonical form keeps its form when a slot gets a node that fits it. -/
theorem shape_full_update {cs : Fin 17 → Node} (shape : (Node.full cs).Shape) {i : Fin 17} {c : Node}
    (fits : SlotFits i c) (nonNil : c ≠ .nil) : (Node.full (Function.update cs i c)).Shape := by
  obtain ⟨slots, two⟩ := shape_full_iff_slots.mp shape
  refine shape_full_iff_slots.mpr ⟨fun k => ?_, two.trans (occupiedSlots_length_le_update i nonNil)⟩
  by_cases same : k = i
  · subst same
    simpa using fits
  · simpa [same] using slots k

namespace Trie

variable (t : Trie) (fuel : Nat)

/-- Into an empty slot `insert` puts a short node, or the value itself at the end of the key. -/
theorem insert_nil_node (pfx key : List UInt8) (value : Node) :
    t.insert fuel .nil pfx key value = .ok (true, if key = [] then value else .short key value) := by
  cases key with
  | nil => cases value <;> unfold Trie.insert <;> rfl
  | cons k0 rest => unfold Trie.insert; rfl

theorem get_ite_short (key : List UInt8) (value : Node) (q : List UInt8) :
    (if key = [] then value else .short key value).get q = (Node.short key value).get q := by
  split
  · subst key
    rw [get_short_nil]
  · rfl

/-- At the end of a key `insert` puts the value in place. -/
theorem insert_end {c : Node} (slot : c = .nil ∨ ∃ w, c = .value w) (pfx v : List UInt8) :
    ∃ dirty, t.insert fuel c pfx [] (.value v) = .ok (dirty, .value v) ∧ (dirty = false → .value v = c) := by
  rcases slot with rfl | ⟨w, rfl⟩
  · exact ⟨true, by rw [insert_nil_node, if_pos rfl], by simp⟩
  · refine ⟨w != v, by unfold Trie.insert; rfl, fun same => ?_⟩
    rw [show w = v by simpa using same]

/-- Where the key leaves a short node's key, `insert` puts a full node with the two
branches under their nibbles, behind the common part. -/
theorem insert_split {nk : List UInt8} {nval : Node} (shape : (Node.short nk nval).Shape)
    {pfx key : List UInt8} (nib : Nibbles pfx) (hex : HexKey key) (v : List UInt8)
    (differ : prefixLen key nk ≠ nk.length) :
    ∃ n', t.insert fuel (.short nk nval) pfx key (.value v) = .ok (true, n') ∧ n'.Shape ∧
      Overwrites pfx n' (.short nk nval) key (some v) := by
  obtain ⟨p, hkey, hnk, len, heads⟩ := prefixLen_split key nk
  have within : p.length < nk.length := by
    have := prefixLen_le_right key nk
    omega
  -- the key goes on past the common part: a hex key is a prefix of no other key here
  have keyOn : key.drop p.length ≠ [] := by
    intro empty
    rw [empty, List.append_nil] at hkey
    have pre : key <+: nk := by
      rw [hnk, ← hkey]
      exact List.prefix_append _ _
    rcases shape with ⟨ns, w, nibs, rfl, -⟩ | ⟨-, nibs, -, -⟩
    · have same := HexKey.eq_of_prefix hex ⟨ns, nibs, rfl⟩ pre
      rw [← same, ← hkey] at within
      omega
    · exact Nibbles.not_prefix nibs hex pre
  obtain ⟨a, nkr, hnkr⟩ := List.exists_cons_of_ne_nil (show nk.drop p.length ≠ [] by simp; omega)
  obtain ⟨b, kr, hkr⟩ := List.exists_cons_of_ne_nil keyOn
  have nkEq : nk = p ++ a :: nkr := hnkr ▸ hnk
  have keyEq : key = p ++ b :: kr := hkr ▸ hkey
  have ba : b ≠ a := heads b a (by rw [hkr]; rfl) (by rw [hnkr]; rfl)
  have nibP : Nibbles p := ((hexKey_append_iff (List.cons_ne_nil b kr)).mp (keyEq ▸ hex)).1
  have hexB : HexKey (b :: kr) := ((hexKey_append_iff (List.cons_ne_nil b kr)).mp (keyEq ▸ hex)).2
  -- the two branches and their slots
  have oldShape : (Node.short (a :: nkr) nval).Shape := Shape.short_drop (nkEq ▸ shape) (List.cons_ne_nil a nkr)
  have newShape : (Node.short (b :: kr) (.value v)).Shape := by
    obtain ⟨ns, nibs, eq⟩ := hexB
    exact .inl ⟨ns, v, nibs, eq, rfl⟩
  obtain ⟨i, hi⟩ := Shape.nibbleIndex_head oldShape
  obtain ⟨j, hj⟩ := Shape.nibbleIndex_head newShape
  have ij : i ≠ j := fun same => ba (nibbleIndex_inj hj (same ▸ hi))
  obtain ⟨oldFits, oldNonNil⟩ := Shape.slot oldShape hi
  obtain ⟨newFits, newNonNil⟩ := Shape.slot newShape hj
  let old : Node := if nkr = [] then nval else .short nkr nval
  let new : Node := if kr = [] then .value v else .short kr (.value v)
  let branch : Node := .full (Function.update (Function.update (fun _ => .nil) i old) j new)
  have branchShape : branch.Shape := by
    refine shape_full_iff_slots.mpr ⟨fun k => ?_, two_le_occupiedSlots ij (by simpa [ij] using oldNonNil)
      (by simpa using newNonNil)⟩
    by_cases kj : k = j
    · subst kj
      simpa using newFits
    · by_cases ki : k = i
      · subst ki
        simpa [kj] using oldFits
      · simp only [Function.update_of_ne kj, Function.update_of_ne ki, SlotFits]
        split <;> simp
  -- what the branch holds below the common part
  have branchHolds : Overwrites (pfx ++ p) branch (.short (a :: nkr) nval) (b :: kr) (some v) := by
    intro r whole
    have hexR : HexKey r := (hexKey_append (nibbles_append.mpr ⟨nib, nibP⟩)).mp whole
    obtain ⟨y, r', rfl⟩ := List.exists_cons_of_ne_nil hexR.ne_nil
    rw [get_branch hi hj ij, get_short_cons]
    by_cases yb : y = b
    · subst yb
      rw [if_pos rfl, get_ite_short, get_short, if_neg (Ne.symm ba)]
      by_cases pre : kr <+: r'
      · -- two hex keys through the same nibble: one extends the other only if they are equal
        have same := HexKey.eq_of_prefix hexB hexR (List.cons_prefix_cons.mpr ⟨rfl, pre⟩)
        rw [if_pos pre, if_pos same.symm, get_value]
      · have differ : y :: r' ≠ y :: kr := fun same => pre ((List.cons.inj same).2 ▸ List.prefix_refl r')
        rw [if_neg pre, if_neg differ]
    · have differ : y :: r' ≠ b :: kr := fun same => yb (List.cons.inj same).1
      rw [if_neg yb, if_neg differ]
      by_cases ya : y = a
      · subst ya
        rw [if_pos rfl, if_pos rfl, get_ite_short]
      · rw [if_neg ya, if_neg (Ne.symm ya)]
  -- the result: the branch, behind the common part when there is one
  refine ⟨if p.length = 0 then branch else .short p branch, ?_, ?_, ?_⟩
  · cases key with
    | nil => exact absurd rfl hex.ne_nil
    | cons k0 rest =>
      have na : nk[p.length]? = some a := by rw [← List.head?_drop, hnkr]; rfl
      have kb : (k0 :: rest)[p.length]? = some b := by rw [← List.head?_drop, hkr]; rfl
      have nkDrop : nk.drop (p.length + 1) = nkr := by rw [← List.drop_drop, hnkr]; rfl
      have keyDrop : (k0 :: rest).drop (p.length + 1) = kr := by rw [← List.drop_drop, hkr]; rfl
      have keyTake : (k0 :: rest).take p.length = p := by rw [keyEq, List.take_left' rfl]
      unfold Trie.insert
      dsimp only
      rw [if_neg differ, len]
      simp only [na, kb, Option.bind_some, hi, hj]
      rw [nkDrop, keyDrop, insert_nil_node, GoLoop.ok_bind, insert_nil_node, GoLoop.ok_bind, keyTake]
      split <;> rfl
  · split
    · exact branchShape
    · rename_i nonEmpty
      exact .inr ⟨fun empty => nonEmpty (by simp [empty]), nibP, trivial, branchShape⟩
  · have front : ∀ r, (if p.length = 0 then branch else .short p branch).get r = (Node.short p branch).get r := by
      intro r
      split
      · rename_i empty
        rw [List.eq_nil_of_length_eq_zero empty, get_short_nil]
      · rfl
    have split : ∀ r, (Node.short nk nval).get r = (Node.short p (.short (a :: nkr) nval)).get r := by
      intro r
      rw [nkEq, get_short_short]
    rw [keyEq]
    exact ((Overwrites.short branchHolds).congr front).congr_old split

/-- Below a short node whose key the key extends, `insert` goes on into the child. -/
theorem insert_short_descend {nk : List UInt8} (ne : nk ≠ []) {nval : Node} {pfx r : List UInt8} {value : Node}
    {dirty : Bool} {c' : Node} (call : t.insert fuel nval (pfx ++ nk) r value = .ok (dirty, c')) :
    t.insert fuel (.short nk nval) pfx (nk ++ r) value =
      .ok (if dirty then (true, .short nk c') else (false, .short nk nval)) := by
  obtain ⟨k0, rest, hk⟩ := List.exists_cons_of_ne_nil (List.append_ne_nil_of_left_ne_nil ne r)
  have whole : prefixLen (nk ++ r) nk = nk.length := prefixLen_eq_length_iff.mpr (List.prefix_append nk r)
  rw [hk]
  unfold Trie.insert
  dsimp only
  rw [← hk, if_pos whole, whole, List.take_left' rfl, List.drop_left' rfl, call, GoLoop.ok_bind]
  cases dirty <;> rfl

/-- Below a full node, `insert` goes on into the slot of the first nibble. -/
theorem insert_full_descend {cs : Fin 17 → Node} {k0 : UInt8} {i : Fin 17} (hi : nibbleIndex k0 = some i)
    {pfx rest : List UInt8} {value : Node} {dirty : Bool} {c' : Node}
    (call : t.insert fuel (cs i) (pfx ++ [k0]) rest value = .ok (dirty, c')) :
    t.insert fuel (.full cs) pfx (k0 :: rest) value =
      .ok (if dirty then (true, .full (Function.update cs i c')) else (false, .full cs)) := by
  unfold Trie.insert
  simp only [hi]
  rw [call, GoLoop.ok_bind]
  cases dirty <;> rfl

/-- What `insert` of `v` at `key` below the path `pfx` makes of a node in canonical form. -/
structure Inserted (pfx : List UInt8) (n : Node) (key v : List UInt8) (dirty : Bool) (n' : Node) : Prop where
  shape : n'.Shape
  full : n.IsFull → n'.IsFull
  clean : dirty = false → n' = n
  overwrites : Overwrites pfx n' n key (some v)

theorem Inserted.unchanged {pfx key v : List UInt8} {n : Node} (shape : n.Shape) (held : n.get key = some v) :
    Inserted pfx n key v false n :=
  ⟨shape, id, fun _ => rfl, Overwrites.of_get held⟩

/-- On a node in canonical form, `insert` sets the value of one hex key and keeps the form. -/
theorem insert_inserted (v : List UInt8) (n : Node) :
    ∀ pfx key, Nibbles pfx → HexKey key → (n = .nil ∨ n.Shape) →
      ∃ dirty n', t.insert fuel n pfx key (.value v) = .ok (dirty, n') ∧ Inserted pfx n key v dirty n' := by
  induction n with
  | nil =>
    intro pfx key nib hex _
    refine ⟨true, .short key (.value v), by rw [insert_nil_node, if_neg hex.ne_nil], ?_⟩
    obtain ⟨ns, nibs, eq⟩ := hex
    exact ⟨.inl ⟨ns, v, nibs, eq, rfl⟩, not_isFull_nil.elim, by simp,
      Overwrites.leaf ((hexKey_append nib).mpr ⟨ns, nibs, eq⟩) v⟩
  | value w =>
    intro _ _ _ _ canonical
    simp [Shape] at canonical
  | hash h =>
    intro _ _ _ _ canonical
    simp [Shape] at canonical
  | short nk nval ih =>
    intro pfx key nib hex canonical
    have shape : (Node.short nk nval).Shape := canonical.resolve_left short_ne_nil
    by_cases whole : prefixLen key nk = nk.length
    · obtain ⟨r, rfl⟩ := prefixLen_eq_length_iff.mp whole
      -- the child takes the rest of the key: the value itself below a leaf
      have child : ∃ dirty c', t.insert fuel nval (pfx ++ nk) r (.value v) = .ok (dirty, c') ∧
          (Node.short nk c').Shape ∧ (dirty = false → c' = nval) ∧ Overwrites (pfx ++ nk) c' nval r (some v) := by
        rcases shape with ⟨ns, w, nibs, rfl, rfl⟩ | ⟨ne, nibs, full, shaped⟩
        · have hexLeaf : HexKey (pfx ++ (ns ++ [16])) := (hexKey_append nib).mpr ⟨ns, nibs, rfl⟩
          have ends : r = [] := by
            rw [List.append_assoc, List.singleton_append] at hex
            exact HexKey.eq_of_append_cons hex nibs
          subst ends
          obtain ⟨dirty, call, clean⟩ := insert_end t fuel (.inr ⟨w, rfl⟩) (pfx ++ (ns ++ [16])) v
          exact ⟨dirty, _, call, .inl ⟨ns, v, nibs, rfl, rfl⟩, clean,
            Overwrites.atEnd hexLeaf _ _ fun r => get_value v r⟩
        · obtain ⟨dirty, c', call, inserted⟩ := ih (pfx ++ nk) r (nibbles_append.mpr ⟨nib, nibs⟩)
            ((hexKey_append nibs).mp hex) (.inr shaped)
          exact ⟨dirty, c', call, .inr ⟨ne, nibs, inserted.full full, inserted.shape⟩, inserted.clean,
            inserted.overwrites⟩
      obtain ⟨dirty, c', call, shape', clean, overwrote⟩ := child
      have ne : nk ≠ [] := by
        rcases shape with ⟨ns, -, -, rfl, -⟩ | ⟨ne, -⟩
        · simp
        · exact ne
      rw [insert_short_descend t fuel ne call]
      cases dirty
      · refine ⟨false, _, rfl, Inserted.unchanged shape ?_⟩
        rw [get_short_append, ← clean rfl,
          overwrote.get_key (by rw [List.append_assoc]; exact (hexKey_append nib).mpr hex)]
      · exact ⟨true, _, rfl, ⟨shape', not_isFull_short.elim, by simp, Overwrites.short overwrote⟩⟩
    · obtain ⟨n', call, shape', overwrote⟩ := insert_split t fuel shape nib hex v whole
      exact ⟨true, n', call, ⟨shape', not_isFull_short.elim, by simp, overwrote⟩⟩
  | full cs ih =>
    intro pfx key nib hex canonical
    have shape : (Node.full cs).Shape := canonical.resolve_left full_ne_nil
    obtain ⟨slots, -⟩ := shape_full_iff_slots.mp shape
    obtain ⟨k0, rest, rfl⟩ := List.exists_cons_of_ne_nil hex.ne_nil
    -- the slot of the first nibble takes the rest of the key
    have child : ∃ i, nibbleIndex k0 = some i ∧ ∃ dirty c', t.insert fuel (cs i) (pfx ++ [k0]) rest (.value v) =
        .ok (dirty, c') ∧ SlotFits i c' ∧ c' ≠ .nil ∧ (dirty = false → c' = cs i) ∧
          Overwrites (pfx ++ [k0]) c' (cs i) rest (some v) := by
      rcases hexKey_cons.mp hex with ⟨rfl, rfl⟩ | ⟨lt, hr⟩
      · have slot : cs 16 = .nil ∨ ∃ w, cs 16 = .value w := by simpa [SlotFits] using slots 16
        obtain ⟨dirty, call, clean⟩ := insert_end t fuel slot (pfx ++ [16]) v
        exact ⟨16, nibbleIndex_sixteen, dirty, _, call, by simp [SlotFits], by simp, clean,
          Overwrites.atEnd ((hexKey_append nib).mpr ⟨[], nibbles_nil, rfl⟩) _ _ fun r => get_value v r⟩
      · obtain ⟨i, hi, ne⟩ := nibbleIndex_of_lt lt
        have slot : cs i = .nil ∨ (cs i).Shape := by simpa [SlotFits, ne] using slots i
        obtain ⟨dirty, c', call, inserted⟩ := ih i (pfx ++ [k0]) rest
          (nibbles_append.mpr ⟨nib, nibbles_cons.mpr ⟨lt, nibbles_nil⟩⟩) hr slot
        exact ⟨i, hi, dirty, c', call, by simp [SlotFits, ne, inserted.shape], inserted.shape.ne_nil,
          inserted.clean, inserted.overwrites⟩
    obtain ⟨i, hi, dirty, c', call, fits, nonNil, clean, overwrote⟩ := child
    rw [insert_full_descend t fuel hi call]
    cases dirty
    · refine ⟨false, _, rfl, Inserted.unchanged shape ?_⟩
      rw [get_full_cons hi, ← clean rfl, overwrote.get_key (by rw [List.append_assoc]; exact (hexKey_append nib).mpr hex)]
    · exact ⟨true, _, rfl, ⟨shape_full_update shape fits nonNil, fun _ => trivial, by simp, Overwrites.full hi overwrote⟩⟩

end Trie

/-! ## Delete -/

/-- A full node in canonical form has a child outside any one slot. -/
theorem exists_other_occupied {cs : Fin 17 → Node} (two : 2 ≤ (occupiedSlots cs).length) (i : Fin 17) :
    ∃ j, j ≠ i ∧ cs j ≠ .nil := by
  have nodup : (occupiedSlots cs).Nodup := (List.nodup_finRange 17).filter _
  match h : occupiedSlots cs, two, nodup with
  | a :: b :: _, _, nodup =>
    have ab : a ≠ b := fun same => (List.nodup_cons.mp nodup).1 (by simp [same])
    have ha : cs a ≠ .nil := mem_occupiedSlots.mp (by rw [h]; simp)
    have hb : cs b ≠ .nil := mem_occupiedSlots.mp (by rw [h]; simp)
    by_cases ai : a = i
    · exact ⟨b, fun bi => ab (ai.trans bi.symm), hb⟩
    · exact ⟨a, ai, ha⟩

/-- What `remainingPos` has found after some slots: -1 for none, the slot for one, -2 for more. -/
def slotsCode : List (Fin 17) → Int
  | [] => -1
  | [p] => p.val
  | _ :: _ :: _ => -2

theorem foldl_remainingPos (cs : Fin 17 → Node) : ∀ l acc : List (Fin 17),
    l.foldl (fun pos i => if (cs i).isNil then pos else if pos = -1 then (i.val : Int) else -2) (slotsCode acc) =
      slotsCode (acc ++ l.filter fun i => !(cs i).isNil)
  | [], acc => by simp
  | i :: l, acc => by
    have step : (if (cs i).isNil then slotsCode acc else if slotsCode acc = -1 then (i.val : Int) else -2) =
        slotsCode (acc ++ if (cs i).isNil then [] else [i]) := by
      split
      · simp
      · match acc with
        | [] => rfl
        | [p] => simp [slotsCode]
        | _ :: _ :: _ => rfl
    rw [List.foldl_cons, step, foldl_remainingPos cs l, List.filter_cons]
    split <;> simp_all

theorem remainingPos_eq (cs : Fin 17 → Node) : Trie.remainingPos cs = slotsCode (occupiedSlots cs) :=
  foldl_remainingPos cs _ []

theorem nibbleIndex_toUInt8 (p : Fin 17) : nibbleIndex p.val.toUInt8 = some p := by
  have small : p.val.toUInt8.toNat = p.val := by simp; omega
  simp [nibbleIndex, small]

/-- A full node with one child holds what a short node of its slot's byte holds. -/
theorem get_full_single {cs : Fin 17 → Node} {p : Fin 17} (single : occupiedSlots cs = [p]) (q : List UInt8) :
    (Node.full cs).get q = (Node.short [p.val.toUInt8] (cs p)).get q := by
  cases q with
  | nil => simp [Node.get]
  | cons x r =>
    rw [get_short_cons, get_short_nil]
    have others : ∀ k, k ≠ p → cs k = .nil := by
      intro k ne
      by_contra occupied
      have := mem_occupiedSlots.mpr occupied
      rw [single, List.mem_singleton] at this
      exact ne this
    cases hx : nibbleIndex x with
    | none =>
      have differ : p.val.toUInt8 ≠ x := by rintro rfl; rw [nibbleIndex_toUInt8] at hx; cases hx
      simp [Node.get, hx, differ]
    | some k =>
      rw [get_full_cons hx]
      by_cases same : k = p
      · subst same
        rw [if_pos (nibbleIndex_inj (nibbleIndex_toUInt8 k) hx)]
      · have differ : p.val.toUInt8 ≠ x := fun eq => same (Option.some.inj (hx.symm.trans (eq ▸ nibbleIndex_toUInt8 p)))
        rw [if_neg differ, others k same, get_nil]

/-- The node `delete` leaves for a short node of key `nk` whose child became `child`: a short
child is merged into it. -/
def shortOver (nk : List UInt8) : Node → Node
  | .short ck cv => .short (nk ++ ck) cv
  | child => .short nk child

theorem get_shortOver (nk : List UInt8) (child : Node) (q : List UInt8) :
    (shortOver nk child).get q = (Node.short nk child).get q := by
  cases child with
  | short ck cv => exact get_short_short nk ck cv q
  | _ => rfl

/-- A short node over a shaped child, merged or not, is shaped. -/
theorem shape_shortOver {nk : List UInt8} (ne : nk ≠ []) (nib : Nibbles nk) {child : Node} (shape : child.Shape) :
    (shortOver nk child).Shape := by
  cases child with
  | short ck cv =>
    rcases shape with ⟨ns, w, nibs, rfl, rfl⟩ | ⟨-, nibs, full, shaped⟩
    · exact .inl ⟨nk ++ ns, w, nibbles_append.mpr ⟨nib, nibs⟩, by simp, rfl⟩
    · exact .inr ⟨by simp [ne], nibbles_append.mpr ⟨nib, nibs⟩, full, shaped⟩
  | full cs => exact .inr ⟨ne, nib, trivial, shape⟩
  | _ => exact shape.elim

namespace Trie

variable (t : Trie) (fuel : Nat)

theorem delete_nil_node (pfx key : List UInt8) : t.delete fuel .nil pfx key = .ok (false, .nil) := by
  unfold Trie.delete
  rfl

/-- At the end of a key `delete` clears the value slot. -/
theorem delete_end {c : Node} (slot : c = .nil ∨ ∃ w, c = .value w) (pfx key : List UInt8) :
    ∃ dirty, t.delete fuel c pfx key = .ok (dirty, .nil) ∧ (dirty = false → .nil = c) := by
  rcases slot with rfl | ⟨w, rfl⟩
  · exact ⟨false, delete_nil_node t fuel pfx key, fun _ => rfl⟩
  · exact ⟨true, by unfold Trie.delete; rfl, by simp⟩

theorem delete_short_mismatch {nk : List UInt8} {nval : Node} {pfx key : List UInt8}
    (differ : prefixLen key nk < nk.length) :
    t.delete fuel (.short nk nval) pfx key = .ok (false, .short nk nval) := by
  unfold Trie.delete
  dsimp only
  rw [if_pos differ]

theorem delete_short_whole {key : List UInt8} {nval : Node} {pfx : List UInt8} :
    t.delete fuel (.short key nval) pfx key = .ok (true, .nil) := by
  have whole : prefixLen key key = key.length := prefixLen_eq_length_iff.mpr (List.prefix_refl key)
  unfold Trie.delete
  dsimp only
  rw [whole, if_neg (Nat.lt_irrefl _), if_pos rfl]

/-- Below a short node whose key the key extends, `delete` goes on into the child and
merges a short node it returns into this one. -/
theorem delete_short_descend {nk r : List UInt8} (rne : r ≠ []) {nval : Node} {pfx : List UInt8} {dirty : Bool}
    {child : Node} (call : t.delete fuel nval (pfx ++ nk) r = .ok (dirty, child)) :
    t.delete fuel (.short nk nval) pfx (nk ++ r) =
      .ok (if dirty then (true, shortOver nk child) else (false, .short nk nval)) := by
  have whole : prefixLen (nk ++ r) nk = nk.length := prefixLen_eq_length_iff.mpr (List.prefix_append nk r)
  have longer : nk.length ≠ (nk ++ r).length := by simpa using rne
  unfold Trie.delete
  dsimp only
  rw [whole, if_neg (Nat.lt_irrefl _), if_neg longer, List.take_left' rfl, List.drop_left' rfl, call,
    GoLoop.ok_bind]
  cases dirty <;> cases child <;> rfl

theorem resolve_shape {n : Node} (shape : n.Shape) (pfx : List UInt8) : t.resolve n pfx = .ok n := by
  cases n with
  | hash h => exact shape.elim
  | _ => rfl

/-- Below a full node, `delete` goes on into the slot of the first nibble; when nothing
changed there, the node stays. -/
theorem delete_full_clean {cs : Fin 17 → Node} {k0 : UInt8} {i : Fin 17} (hi : nibbleIndex k0 = some i)
    {pfx rest : List UInt8} {nn : Node} (call : t.delete fuel (cs i) (pfx ++ [k0]) rest = .ok (false, nn)) :
    t.delete fuel (.full cs) pfx (k0 :: rest) = .ok (false, .full cs) := by
  unfold Trie.delete
  simp only [List.getElem?_cons_zero, Option.bind_some, hi, List.take_succ_cons, List.take_zero,
    List.drop_succ_cons, List.drop_zero]
  rw [call, GoLoop.ok_bind]
  rfl

theorem slotsCode_of_two_le {l : List (Fin 17)} (two : 2 ≤ l.length) : slotsCode l = -2 := by
  match l, two with
  | _ :: _ :: _, _ => rfl

/-- A full node left with two children or more stays a full node. -/
theorem delete_full_many {cs : Fin 17 → Node} {k0 : UInt8} {i : Fin 17} (hi : nibbleIndex k0 = some i)
    {pfx rest : List UInt8} {nn : Node} (call : t.delete fuel (cs i) (pfx ++ [k0]) rest = .ok (true, nn))
    (many : 2 ≤ (occupiedSlots (Function.update cs i nn)).length) :
    t.delete fuel (.full cs) pfx (k0 :: rest) = .ok (true, .full (Function.update cs i nn)) := by
  unfold Trie.delete
  simp only [List.getElem?_cons_zero, Option.bind_some, hi, List.take_succ_cons, List.take_zero,
    List.drop_succ_cons, List.drop_zero]
  rw [call, GoLoop.ok_bind]
  dsimp only
  have none : ¬ 0 ≤ remainingPos (Function.update cs i nn) := by
    rw [remainingPos_eq, slotsCode_of_two_le many]
    decide
  rw [if_neg none]
  rfl

/-- A full node left with one child becomes a short node over it, which absorbs a short child:
it holds what the full node holds. -/
theorem delete_full_single {cs : Fin 17 → Node} {k0 : UInt8} {i : Fin 17} (hi : nibbleIndex k0 = some i)
    {pfx rest : List UInt8} {nn : Node} (call : t.delete fuel (cs i) (pfx ++ [k0]) rest = .ok (true, nn))
    {p : Fin 17} (single : occupiedSlots (Function.update cs i nn) = [p])
    (fits : SlotFits p (Function.update cs i nn p)) :
    ∃ R, t.delete fuel (.full cs) pfx (k0 :: rest) = .ok (true, R) ∧ R.Shape ∧
      ∀ q, R.get q = (Node.full (Function.update cs i nn)).get q := by
  have occupied : Function.update cs i nn p ≠ .nil := mem_occupiedSlots.mp (by simp [single])
  have slot : (⟨(p.val : Int).toNat % 17, Nat.mod_lt _ (by decide)⟩ : Fin 17) = p := Fin.ext (by simp)
  have byte : (p.val : Int).toNat.toUInt8 = p.val.toUInt8 := by simp
  unfold Trie.delete
  simp only [List.getElem?_cons_zero, Option.bind_some, hi, List.take_succ_cons, List.take_zero,
    List.drop_succ_cons, List.drop_zero]
  rw [call, GoLoop.ok_bind]
  dsimp only
  have position : remainingPos (Function.update cs i nn) = p.val := by
    rw [remainingPos_eq, single]
    rfl
  simp only [position, slot, byte, Bool.not_true, Bool.false_eq_true, ↓reduceIte]
  rw [if_pos (Int.natCast_nonneg _)]
  by_cases sixteen : p = 16
  · -- the value slot: a short node to the value behind the terminator
    subst sixteen
    rw [if_neg (by simp)]
    obtain ⟨w, held⟩ : ∃ w, Function.update cs i nn 16 = .value w := by
      simpa [SlotFits, occupied] using fits
    refine ⟨_, rfl, ?_, fun q => (get_full_single single q).symm⟩
    rw [held]
    exact .inl ⟨[], w, nibbles_nil, rfl, rfl⟩
  · have shaped : (Function.update cs i nn p).Shape := by simpa [SlotFits, sixteen, occupied] using fits
    have notSixteen : (p.val : Int) ≠ 16 := by
      have : p.val ≠ 16 := fun eq => sixteen (Fin.ext eq)
      omega
    rw [if_pos notSixteen, resolve_shape t shaped, GoLoop.ok_bind]
    have nib : Nibbles [p.val.toUInt8] := by
      refine nibbles_cons.mpr ⟨?_, nibbles_nil⟩
      have : p.val < 16 := by
        have := p.isLt
        have : p.val ≠ 16 := fun eq => sixteen (Fin.ext eq)
        omega
      simp [UInt8.lt_iff_toNat_lt]
      omega
    refine ⟨shortOver [p.val.toUInt8] (Function.update cs i nn p), ?_,
      shape_shortOver (by simp) nib shaped, fun q => ?_⟩
    · cases Function.update cs i nn p <;> rfl
    · rw [get_shortOver, get_full_single single]

/-- What `delete` of `key` below the path `pfx` makes of a node in canonical form. -/
structure Deleted (pfx : List UInt8) (n : Node) (key : List UInt8) (dirty : Bool) (n' : Node) : Prop where
  canonical : n' = .nil ∨ n'.Shape
  full : n.IsFull → n'.Shape
  clean : dirty = false → n' = n
  overwrites : Overwrites pfx n' n key none

theorem Deleted.unchanged {pfx key : List UInt8} {n : Node} (canonical : n = .nil ∨ n.Shape)
    (held : n.get key = none) : Deleted pfx n key false n := by
  refine ⟨canonical, fun full => ?_, fun _ => rfl, Overwrites.of_get held⟩
  rcases canonical with rfl | shape
  · exact full.elim
  · exact shape

/-- On a node in canonical form, `delete` removes one hex key and keeps the form. -/
theorem delete_deleted (n : Node) :
    ∀ pfx key, Nibbles pfx → HexKey key → (n = .nil ∨ n.Shape) →
      ∃ dirty n', t.delete fuel n pfx key = .ok (dirty, n') ∧ Deleted pfx n key dirty n' := by
  induction n with
  | nil =>
    intro pfx key _ _ canonical
    exact ⟨false, .nil, delete_nil_node t fuel pfx key, Deleted.unchanged canonical (get_nil key)⟩
  | value w =>
    intro _ _ _ _ canonical
    simp [Shape] at canonical
  | hash h =>
    intro _ _ _ _ canonical
    simp [Shape] at canonical
  | short nk nval ih =>
    intro pfx key nib hex canonical
    have shape : (Node.short nk nval).Shape := canonical.resolve_left short_ne_nil
    by_cases differ : prefixLen key nk < nk.length
    · -- the key leaves the node's key: nothing to delete
      refine ⟨false, _, delete_short_mismatch t fuel differ, Deleted.unchanged canonical ?_⟩
      exact get_short_of_mismatch _ fun pre => absurd (prefixLen_eq_length_iff.mpr pre) (Nat.ne_of_lt differ)
    obtain ⟨r, rfl⟩ := prefixLen_eq_length_iff.mp (Nat.le_antisymm (prefixLen_le_right _ _) (Nat.not_lt.mp differ))
    by_cases ended : r = []
    · -- the node's key is the key: a leaf, removed whole
      subst ended
      rw [List.append_nil] at hex ⊢
      refine ⟨true, .nil, delete_short_whole t fuel, ⟨.inl rfl, not_isFull_short.elim, by simp, fun r whole => ?_⟩⟩
      rw [get_nil]
      split
      · rfl
      · rename_i other
        refine (get_short_of_mismatch _ fun pre => other ?_).symm
        exact (List.append_cancel_left (HexKey.eq_of_prefix ((hexKey_append nib).mpr hex) whole
          ((List.prefix_append_right_inj pfx).mpr pre))).symm
    rcases shape with ⟨ns, w, nibs, rfl, rfl⟩ | ⟨ne, nibs, full, shaped⟩
    · -- a leaf's key ends every key it is a prefix of
      rw [List.append_assoc, List.singleton_append] at hex
      exact absurd (HexKey.eq_of_append_cons hex nibs) ended
    obtain ⟨dirty, child, call, deleted⟩ := ih (pfx ++ nk) r (nibbles_append.mpr ⟨nib, nibs⟩)
      ((hexKey_append nibs).mp hex) (.inr shaped)
    rw [delete_short_descend t fuel ended call]
    cases dirty
    · refine ⟨false, _, rfl, Deleted.unchanged canonical ?_⟩
      rw [get_short_append, ← deleted.clean rfl,
        deleted.overwrites.get_key (by rw [List.append_assoc]; exact (hexKey_append nib).mpr hex)]
    · exact ⟨true, _, rfl, ⟨.inr (shape_shortOver ne nibs (deleted.full full)), not_isFull_short.elim, by simp,
        (Overwrites.short deleted.overwrites).congr (get_shortOver nk child)⟩⟩
  | full cs ih =>
    intro pfx key nib hex canonical
    have shape : (Node.full cs).Shape := canonical.resolve_left full_ne_nil
    obtain ⟨slots, two⟩ := shape_full_iff_slots.mp shape
    obtain ⟨k0, rest, rfl⟩ := List.exists_cons_of_ne_nil hex.ne_nil
    -- the slot of the first nibble loses the rest of the key
    have child : ∃ i, nibbleIndex k0 = some i ∧ ∃ dirty c', t.delete fuel (cs i) (pfx ++ [k0]) rest =
        .ok (dirty, c') ∧ SlotFits i c' ∧ (dirty = false → c' = cs i) ∧
          Overwrites (pfx ++ [k0]) c' (cs i) rest none := by
      rcases hexKey_cons.mp hex with ⟨rfl, rfl⟩ | ⟨lt, hr⟩
      · have slot : cs 16 = .nil ∨ ∃ w, cs 16 = .value w := by simpa [SlotFits] using slots 16
        obtain ⟨dirty, call, clean⟩ := delete_end t fuel slot (pfx ++ [16]) []
        exact ⟨16, nibbleIndex_sixteen, dirty, _, call, by simp [SlotFits], clean,
          Overwrites.atEnd ((hexKey_append nib).mpr ⟨[], nibbles_nil, rfl⟩) _ _ get_nil⟩
      · obtain ⟨i, hi, ne⟩ := nibbleIndex_of_lt lt
        have slot : cs i = .nil ∨ (cs i).Shape := by simpa [SlotFits, ne] using slots i
        obtain ⟨dirty, c', call, deleted⟩ := ih i (pfx ++ [k0]) rest
          (nibbles_append.mpr ⟨nib, nibbles_cons.mpr ⟨lt, nibbles_nil⟩⟩) hr slot
        exact ⟨i, hi, dirty, c', call, by simpa [SlotFits, ne] using deleted.canonical, deleted.clean,
          deleted.overwrites⟩
    obtain ⟨i, hi, dirty, c', call, fits, clean, overwrote⟩ := child
    cases dirty
    · refine ⟨false, _, delete_full_clean t fuel hi call, Deleted.unchanged canonical ?_⟩
      rw [get_full_cons hi, ← clean rfl, overwrote.get_key (by rw [List.append_assoc]; exact (hexKey_append nib).mpr hex)]
    -- what the other slots keep decides what the node becomes
    have slotsFit : ∀ k, SlotFits k (Function.update cs i c' k) := by
      intro k
      by_cases same : k = i
      · subst same
        simpa using fits
      · simpa [same] using slots k
    have overFull := Overwrites.full hi overwrote
    obtain ⟨j, ji, other⟩ := exists_other_occupied two i
    -- the slots left occupied: none is impossible, one collapses the node, more keep it
    rcases h : occupiedSlots (Function.update cs i c') with _ | ⟨p, _ | ⟨b, l⟩⟩
    · have := mem_occupiedSlots.mpr (show Function.update cs i c' j ≠ .nil by simpa [ji] using other)
      simp [h] at this
    · obtain ⟨R, run, shapeR, getR⟩ := delete_full_single t fuel hi call h (slotsFit p)
      exact ⟨true, R, run, ⟨.inr shapeR, fun _ => shapeR, by simp, overFull.congr getR⟩⟩
    · have many : 2 ≤ (occupiedSlots (Function.update cs i c')).length := by simp [h]
      have shapeFull := shape_full_iff_slots.mpr ⟨slotsFit, many⟩
      exact ⟨true, _, delete_full_many t fuel hi call many, ⟨.inr shapeFull, fun _ => shapeFull, by simp, overFull⟩⟩

end Trie

end SimpleChain.Trie
