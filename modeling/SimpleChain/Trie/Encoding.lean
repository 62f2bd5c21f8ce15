import Mathlib

/-! # Key encodings (`trie/encoding.go`)

A key reaches the trie as bytes (KEYBYTES), lives in memory as one nibble per
byte closed by the terminator 16 (HEX), and is stored on disk two nibbles to a
byte behind a flag byte (COMPACT).  The hex key of a byte string is a run of
nibbles followed by the terminator, and 16 occurs nowhere else: `HexKey` names
that shape, the only one the paths of an in-memory trie have.  Two hex keys one
of which extends the other are equal, which is what keeps the value of one key
from shadowing another's. -/
set_option autoImplicit false

namespace SimpleChain.Trie

def hasTerm (s : List UInt8) : Bool :=
  s.getLast? == some 16

def keybytesToHex (str : List UInt8) : List UInt8 :=
  str.flatMap (fun b => [b / 16, b % 16]) ++ [16]

/-- Pairs of nibbles into bytes; the callers hand it an even number of them. -/
def decodeNibbles : List UInt8 → List UInt8
  | hi :: lo :: rest => (hi <<< 4 ||| lo) :: decodeNibbles rest
  | _ => []

/-- Go panics on an odd number of nibbles; the panic is the error here. -/
def hexToKeybytes (hex : List UInt8) : Except String (List UInt8) :=
  let hex := if hasTerm hex then hex.dropLast else hex
  if hex.length % 2 ≠ 0 then .error "can't convert hex key of odd length"
  else .ok (decodeNibbles hex)

def hexToCompact (hex : List UInt8) : List UInt8 :=
  let terminator : UInt8 := if hasTerm hex then 1 else 0
  let hex := if hasTerm hex then hex.dropLast else hex
  let flag : UInt8 := terminator <<< 5
  match hex with
  | first :: rest =>
    if hex.length % 2 = 1 then (flag ||| (1 : UInt8) <<< 4 ||| first) :: decodeNibbles rest
    else flag :: decodeNibbles hex
  | [] => [flag]

def compactToHex (compact : List UInt8) : List UInt8 :=
  if compact.isEmpty then compact
  else
    let base := keybytesToHex compact
    -- flag nibbles 0 and 1 carry no terminator: drop the one keybytesToHex appended
    let base := if base.headD 0 < 2 then base.dropLast else base
    base.drop (2 - (base.headD 0 &&& 1)).toNat

def prefixLen : List UInt8 → List UInt8 → Nat
  | a :: as, b :: bs => if a = b then prefixLen as bs + 1 else 0
  | _, _ => 0

/-! ## Nibbles and hex keys -/

def Nibbles (ns : List UInt8) : Prop :=
  ∀ x ∈ ns, x < 16

instance (ns : List UInt8) : Decidable (Nibbles ns) :=
  inferInstanceAs (Decidable (∀ x ∈ ns, x < 16))

def HexKey (q : List UInt8) : Prop :=
  ∃ ns, Nibbles ns ∧ q = ns ++ [16]

/-- The keys `hexToCompact` takes: nibbles, closed by the terminator when `term`. -/
def withTerm (ns : List UInt8) (term : Bool) : List UInt8 :=
  if term then ns ++ [16] else ns

theorem nibbles_nil : Nibbles [] := nofun

theorem nibbles_cons {x : UInt8} {ns : List UInt8} : Nibbles (x :: ns) ↔ x < 16 ∧ Nibbles ns :=
  List.forall_mem_cons

theorem nibbles_append {ns ms : List UInt8} : Nibbles (ns ++ ms) ↔ Nibbles ns ∧ Nibbles ms :=
  List.forall_mem_append

theorem Nibbles.take {ns : List UInt8} (nib : Nibbles ns) (i : Nat) : Nibbles (ns.take i) :=
  fun x mem => nib x (List.mem_of_mem_take mem)

theorem Nibbles.drop {ns : List UInt8} (nib : Nibbles ns) (i : Nat) : Nibbles (ns.drop i) :=
  fun x mem => nib x (List.mem_of_mem_drop mem)

theorem HexKey.ne_nil {q : List UInt8} (hex : HexKey q) : q ≠ [] := by
  obtain ⟨ns, -, rfl⟩ := hex
  simp

theorem hexKey_cons {x : UInt8} {r : List UInt8} :
    HexKey (x :: r) ↔ (x = 16 ∧ r = []) ∨ (x < 16 ∧ HexKey r) := by
  constructor
  · rintro ⟨ns, nib, eq⟩
    cases ns with
    | nil =>
      simp only [List.nil_append, List.cons.injEq] at eq
      exact .inl eq
    | cons y ns =>
      simp only [List.cons_append, List.cons.injEq] at eq
      obtain ⟨rfl, rfl⟩ := eq
      exact .inr ⟨(nibbles_cons.mp nib).1, ns, (nibbles_cons.mp nib).2, rfl⟩
  · rintro (⟨rfl, rfl⟩ | ⟨lt, ns, nib, rfl⟩)
    · exact ⟨[], nibbles_nil, rfl⟩
    · exact ⟨x :: ns, nibbles_cons.mpr ⟨lt, nib⟩, rfl⟩

theorem hexKey_append {p q : List UInt8} (nib : Nibbles p) : HexKey (p ++ q) ↔ HexKey q := by
  induction p with
  | nil => rfl
  | cons x p ih =>
    obtain ⟨lt, nib⟩ := nibbles_cons.mp nib
    rw [List.cons_append, hexKey_cons, ih nib]
    have : x ≠ 16 := fun eq => absurd (eq ▸ lt) (by decide)
    simp [this, lt]

/-- A hex key is not a proper prefix of another: the terminator ends both. -/
theorem HexKey.eq_of_prefix {p q : List UInt8} (hp : HexKey p) (hq : HexKey q) (pre : p <+: q) :
    p = q := by
  obtain ⟨ns, nib, rfl⟩ := hp
  obtain ⟨rest, rfl⟩ := pre
  rw [List.append_assoc, hexKey_append nib, List.singleton_append, hexKey_cons] at hq
  rcases hq with ⟨-, rfl⟩ | ⟨lt, -⟩
  · simp
  · exact absurd lt (by decide)

/-- A run of nibbles has no hex key as a prefix. -/
theorem Nibbles.not_prefix {p q : List UInt8} (nib : Nibbles p) (hq : HexKey q) : ¬ q <+: p := by
  rintro ⟨rest, rfl⟩
  obtain ⟨ns, -, rfl⟩ := hq
  have := nib 16 (by simp)
  exact absurd this (by decide)

theorem HexKey.drop {q : List UInt8} (hq : HexKey q) {i : Nat} (lt : i < q.length) :
    HexKey (q.drop i) := by
  obtain ⟨ns, nib, rfl⟩ := hq
  have le : i ≤ ns.length := by simp at lt; omega
  rw [List.drop_append_of_le_length le]
  exact ⟨ns.drop i, nib.drop i, rfl⟩

/-- What follows the terminator in a hex key is empty. -/
theorem HexKey.eq_of_append_cons {p r : List UInt8} (hq : HexKey (p ++ 16 :: r)) (nib : Nibbles p) :
    r = [] := by
  rw [hexKey_append nib, hexKey_cons] at hq
  rcases hq with ⟨-, rfl⟩ | ⟨lt, -⟩
  · rfl
  · exact absurd lt (by decide)

theorem nibbles_div_mod (b : UInt8) : b / 16 < 16 ∧ b % 16 < 16 := by
  constructor <;> simp only [UInt8.lt_iff_toNat_lt, UInt8.toNat_div, UInt8.toNat_mod] <;>
    have := b.toNat_lt <;> simp <;> omega

theorem nibbles_flatMap (str : List UInt8) : Nibbles (str.flatMap fun b => [b / 16, b % 16]) := by
  intro x mem
  obtain ⟨b, -, mem⟩ := List.mem_flatMap.mp mem
  rcases List.mem_pair.mp mem with rfl | rfl
  · exact (nibbles_div_mod b).1
  · exact (nibbles_div_mod b).2

theorem hexKey_keybytesToHex (str : List UInt8) : HexKey (keybytesToHex str) :=
  ⟨_, nibbles_flatMap str, rfl⟩

theorem eq_of_div_mod {a b : UInt8} (div : a / 16 = b / 16) (mod : a % 16 = b % 16) : a = b := by
  rw [← UInt8.toNat_inj] at div mod ⊢
  simp only [UInt8.toNat_div, UInt8.toNat_mod] at div mod
  simp only [UInt8.reduceToNat] at div mod
  omega

theorem keybytesToHex_injective : Function.Injective keybytesToHex := by
  intro a b eq
  simp only [keybytesToHex, List.append_cancel_right_eq] at eq
  induction a generalizing b with
  | nil => cases b <;> simp_all
  | cons x a ih =>
    cases b with
    | nil => simp at eq
    | cons y b =>
      simp only [List.flatMap_cons, List.cons_append, List.nil_append, List.cons.injEq] at eq
      obtain ⟨div, mod, rest⟩ := eq
      rw [eq_of_div_mod div mod, ih rest]

/-! ## Compact and keybytes round trips -/

theorem join_nibbles_fin : ∀ i j : Fin 16, (UInt8.ofNat i <<< 4 ||| UInt8.ofNat j) / 16 = UInt8.ofNat i ∧
    (UInt8.ofNat i <<< 4 ||| UInt8.ofNat j) % 16 = UInt8.ofNat j := by
  decide

theorem join_nibbles {hi lo : UInt8} (hhi : hi < 16) (hlo : lo < 16) :
    (hi <<< 4 ||| lo) / 16 = hi ∧ (hi <<< 4 ||| lo) % 16 = lo := by
  have join := join_nibbles_fin ⟨hi.toNat, UInt8.lt_iff_toNat_lt.mp hhi⟩ ⟨lo.toNat, UInt8.lt_iff_toNat_lt.mp hlo⟩
  simpa only [UInt8.ofNat_toNat] using join

theorem join_split (b : UInt8) : (b / 16) <<< 4 ||| b % 16 = b :=
  have join := join_nibbles (nibbles_div_mod b).1 (nibbles_div_mod b).2
  eq_of_div_mod join.1 join.2

theorem decodeNibbles_flatMap (str : List UInt8) :
    decodeNibbles (str.flatMap fun b => [b / 16, b % 16]) = str := by
  induction str with
  | nil => rfl
  | cons b str ih => simp [decodeNibbles, join_split, ih]

theorem length_decodeNibbles (ns : List UInt8) : (decodeNibbles ns).length = ns.length / 2 := by
  fun_induction decodeNibbles ns with
  | case1 hi lo rest ih => simp [ih]; omega
  | case2 ns short =>
    rcases ns with _ | ⟨x, _ | ⟨y, rest⟩⟩
    · rfl
    · simp
    · exact absurd rfl (short x y rest)

theorem flatMap_decodeNibbles {ns : List UInt8} (nib : Nibbles ns) (even : ns.length % 2 = 0) :
    (decodeNibbles ns).flatMap (fun b => [b / 16, b % 16]) = ns := by
  fun_induction decodeNibbles ns with
  | case1 hi lo rest ih =>
    obtain ⟨hhi, hlo, nib⟩ : hi < 16 ∧ lo < 16 ∧ Nibbles rest := by simpa [nibbles_cons] using nib
    have join := join_nibbles hhi hlo
    simp only [List.length_cons] at even
    simp [join.1, join.2, ih nib (by omega)]
  | case2 ns short =>
    rcases ns with _ | ⟨x, _ | ⟨y, rest⟩⟩
    · rfl
    · simp at even
    · exact absurd rfl (short x y rest)

theorem keybytesToHex_decodeNibbles {ns : List UInt8} (nib : Nibbles ns) (even : ns.length % 2 = 0) :
    keybytesToHex (decodeNibbles ns) = ns ++ [16] := by
  rw [keybytesToHex, flatMap_decodeNibbles nib even]

theorem keybytesToHex_cons_join {hi lo : UInt8} (hhi : hi < 16) (hlo : lo < 16) (bytes : List UInt8) :
    keybytesToHex ((hi <<< 4 ||| lo) :: bytes) = hi :: lo :: keybytesToHex bytes := by
  have join := join_nibbles hhi hlo
  simp [keybytesToHex, join.1, join.2]

theorem hasTerm_withTerm {ns : List UInt8} (nib : Nibbles ns) (term : Bool) :
    hasTerm (withTerm ns term) = term := by
  cases term with
  | true => simp [hasTerm, withTerm]
  | false =>
    -- no nibble is the terminator
    have last : ns.getLast? ≠ some 16 := fun eq => absurd (nib 16 (List.mem_of_getLast? eq)) (by decide)
    simpa [hasTerm, withTerm] using last

theorem stripTerm_withTerm {ns : List UInt8} (nib : Nibbles ns) (term : Bool) :
    (if hasTerm (withTerm ns term) then (withTerm ns term).dropLast else withTerm ns term) = ns := by
  rw [hasTerm_withTerm nib]
  cases term <;> simp [withTerm]

theorem hexToCompact_even {ns : List UInt8} (nib : Nibbles ns) (term : Bool) (even : ns.length % 2 = 0) :
    hexToCompact (withTerm ns term) = ((if term then 2 else 0 : UInt8) <<< 4 ||| 0) :: decodeNibbles ns := by
  have flag : (if hasTerm (withTerm ns term) then (1 : UInt8) else 0) <<< 5 =
      (if term then 2 else 0 : UInt8) <<< 4 ||| 0 := by
    rw [hasTerm_withTerm nib]; cases term <;> decide
  simp only [hexToCompact, stripTerm_withTerm nib, flag]
  split
  · simp_all
  · rfl

theorem hexToCompact_odd {first : UInt8} {rest : List UInt8} (nib : Nibbles (first :: rest)) (term : Bool)
    (even : rest.length % 2 = 0) :
    hexToCompact (withTerm (first :: rest) term) =
      ((if term then 3 else 1 : UInt8) <<< 4 ||| first) :: decodeNibbles rest := by
  have flag : (if hasTerm (withTerm (first :: rest) term) then (1 : UInt8) else 0) <<< 5 ||| (1 : UInt8) <<< 4 |||
      first = (if term then 3 else 1 : UInt8) <<< 4 ||| first := by
    rw [hasTerm_withTerm nib]
    cases term <;> exact congrArg (· ||| first) (by decide)
  have odd : (rest.length + 1) % 2 = 1 := by omega
  simp only [hexToCompact, stripTerm_withTerm nib, List.length_cons, odd, ↓reduceIte, flag]

/-- The two shapes of a compact key: the flag byte's high nibble is twice the terminator plus
the parity, its low nibble the first nibble of an odd key. -/
theorem hexToCompact_withTerm {ns : List UInt8} (nib : Nibbles ns) (term : Bool) :
    (ns.length % 2 = 0 ∧
      hexToCompact (withTerm ns term) = ((if term then 2 else 0 : UInt8) <<< 4 ||| 0) :: decodeNibbles ns) ∨
    (∃ first rest, ns = first :: rest ∧ first < 16 ∧ Nibbles rest ∧ rest.length % 2 = 0 ∧
      hexToCompact (withTerm ns term) = ((if term then 3 else 1 : UInt8) <<< 4 ||| first) :: decodeNibbles rest) := by
  rcases Nat.mod_two_eq_zero_or_one ns.length with even | odd
  · exact .inl ⟨even, hexToCompact_even nib term even⟩
  · cases ns with
    | nil => simp at odd
    | cons first rest =>
      have even : rest.length % 2 = 0 := by simp at odd; omega
      obtain ⟨lt, nibRest⟩ := nibbles_cons.mp nib
      exact .inr ⟨first, rest, rfl, lt, nibRest, even, hexToCompact_odd nib term even⟩

/-- The chop of `compactToHex`, `2 - base[0]&1`, as a number. -/
theorem chop_toNat (hi : UInt8) : (2 - (hi &&& 1)).toNat = 2 - hi.toNat % 2 := by
  have mod : (hi &&& 1).toNat = hi.toNat % 2 := by simp [UInt8.toNat_and, Nat.and_one_is_mod]
  have le : hi &&& 1 ≤ 2 := by
    rw [UInt8.le_iff_toNat_le, mod]
    have := Nat.mod_lt hi.toNat (show 2 > 0 by omega)
    simp only [UInt8.reduceToNat]
    omega
  rw [UInt8.toNat_sub_of_le _ _ le, mod]
  rfl

theorem compactToHex_join {hi lo : UInt8} (hhi : hi < 16) (hlo : lo < 16) (bytes : List UInt8) :
    compactToHex ((hi <<< 4 ||| lo) :: bytes) =
      (if hi < 2 then (hi :: lo :: keybytesToHex bytes).dropLast else hi :: lo :: keybytesToHex bytes).drop
        (2 - hi.toNat % 2) := by
  simp only [compactToHex, List.isEmpty_cons, Bool.false_eq_true, ↓reduceIte, keybytesToHex_cons_join hhi hlo,
    List.headD_cons]
  split <;> simp only [List.dropLast_cons_cons, List.headD_cons, chop_toNat]

theorem compactToHex_hexToCompact {ns : List UInt8} (nib : Nibbles ns) (term : Bool) :
    compactToHex (hexToCompact (withTerm ns term)) = withTerm ns term := by
  rcases hexToCompact_withTerm nib term with ⟨even, eq⟩ | ⟨first, rest, rfl, lt, nibRest, even, eq⟩
  · rw [eq, compactToHex_join (by cases term <;> decide) (by decide), keybytesToHex_decodeNibbles nib even]
    cases term <;> simp [withTerm, List.dropLast_cons_of_ne_nil]
  · rw [eq, compactToHex_join (by cases term <;> decide) lt, keybytesToHex_decodeNibbles nibRest even]
    cases term <;> simp [withTerm, List.dropLast_cons_of_ne_nil]

theorem length_hexToCompact {ns : List UInt8} (nib : Nibbles ns) (term : Bool) :
    (hexToCompact (withTerm ns term)).length = ns.length / 2 + 1 := by
  rcases hexToCompact_withTerm nib term with ⟨-, eq⟩ | ⟨first, rest, rfl, -, -, even, eq⟩
  · simp [eq, length_decodeNibbles]
  · simp only [eq, List.length_cons, length_decodeNibbles]
    omega

theorem flag_hexToCompact {ns : List UInt8} (nib : Nibbles ns) (term : Bool) :
    ((hexToCompact (withTerm ns term)).headD 0 / 16).toNat = 2 * term.toNat + ns.length % 2 := by
  rcases hexToCompact_withTerm nib term with ⟨even, eq⟩ | ⟨first, rest, rfl, lt, -, even, eq⟩
  · rw [eq, List.headD_cons, (join_nibbles (by cases term <;> decide) (by decide)).1, even]
    cases term <;> rfl
  · rw [eq, List.headD_cons, (join_nibbles (by cases term <;> decide) lt).1, List.length_cons]
    cases term <;> simp <;> omega

theorem hexToKeybytes_keybytesToHex (str : List UInt8) : hexToKeybytes (keybytesToHex str) = .ok str := by
  have hex : keybytesToHex str = withTerm (str.flatMap fun b => [b / 16, b % 16]) true := rfl
  simp [hexToKeybytes, hex, stripTerm_withTerm (nibbles_flatMap str), decodeNibbles_flatMap]

theorem trie_key_encodings_roundTrip :
    (∀ ns term, Nibbles ns → compactToHex (hexToCompact (withTerm ns term)) = withTerm ns term) ∧
    (∀ str, hexToKeybytes (keybytesToHex str) = .ok str) ∧
    (∀ ns term, Nibbles ns → (hexToCompact (withTerm ns term)).length = ns.length / 2 + 1 ∧
      ((hexToCompact (withTerm ns term)).headD 0 / 16).toNat = 2 * term.toNat + ns.length % 2) :=
  ⟨fun _ term nib => compactToHex_hexToCompact nib term, hexToKeybytes_keybytesToHex,
    fun _ term nib => ⟨length_hexToCompact nib term, flag_hexToCompact nib term⟩⟩

theorem trie_key_encodings_roundTrip_on_odd_leaf :
    Nibbles [1, 2, 3] ∧ compactToHex (hexToCompact [1, 2, 3, 16]) = [1, 2, 3, 16] ∧
      (hexToCompact [1, 2, 3, 16]).length = 2 :=
  have nib : Nibbles [1, 2, 3] := by simp [Nibbles]
  ⟨nib, trie_key_encodings_roundTrip.1 [1, 2, 3] true nib, (trie_key_encodings_roundTrip.2.2 [1, 2, 3] true nib).1⟩

/-! ## `prefixLen` -/

theorem prefixLen_le_right (a b : List UInt8) : prefixLen a b ≤ b.length := by
  induction a generalizing b with
  | nil => simp [prefixLen]
  | cons x a ih =>
    cases b with
    | nil => simp [prefixLen]
    | cons y b => simp only [prefixLen]; split <;> simp [ih b]

/-- `prefixLen a b` splits both keys at their common prefix: either one runs out there, or the
next nibbles differ. -/
theorem prefixLen_split (a b : List UInt8) :
    ∃ p, a = p ++ a.drop p.length ∧ b = p ++ b.drop p.length ∧ prefixLen a b = p.length ∧
      ∀ x y, (a.drop p.length).head? = some x → (b.drop p.length).head? = some y → x ≠ y := by
  induction a generalizing b with
  | nil => exact ⟨[], rfl, rfl, by simp [prefixLen], by simp⟩
  | cons x a ih =>
    cases b with
    | nil => exact ⟨[], rfl, rfl, by simp [prefixLen], by simp⟩
    | cons y b =>
      by_cases same : x = y
      · subst same
        obtain ⟨p, ha, hb, len, differ⟩ := ih b
        refine ⟨x :: p, by simp [← ha], by simp [← hb], by simp [prefixLen, len], ?_⟩
        simpa using differ
      · exact ⟨[], rfl, rfl, by simp [prefixLen, same], by simp [same]⟩

theorem prefixLen_eq_length_iff {a b : List UInt8} : prefixLen a b = b.length ↔ b <+: a := by
  induction b generalizing a with
  | nil => simpa using Nat.le_zero.mp (prefixLen_le_right a [])
  | cons y b ih =>
    cases a with
    | nil => simp [prefixLen]
    | cons x a =>
      by_cases same : x = y
      · subst same
        simp [prefixLen, ih]
      · simp [prefixLen, same, Ne.symm same]

end SimpleChain.Trie
