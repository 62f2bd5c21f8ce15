import Mathlib
import SimpleChain.Trie.Decode

/-! # Merkle proofs (`trie/proof.go`)

`Prove` walks from the root along a key and collects the nodes it passes; of those, the root
and every node whose collapsed encoding is 32 bytes or more, and so stored under its hash, go
into the proof database under their hashes.  A node under 32 bytes is embedded in its parent's
encoding and is not written: the verifier meets it again inside its parent.  `VerifyProof`
starts from the root hash, decodes the node stored under it, follows the key through the node
and the nodes embedded in it with `get`, and goes on with the hash it reaches, until it reaches
a value or finds nothing.

The proof database is a map from hashes to encodings, which the last write of a key sets.
`VerifyProof` runs as long as it keeps finding hashes; here it reads at most `fuel` nodes.

For every non-empty trie that `TryUpdate` and `TryDelete` build and every key, the proof that
`Prove` writes makes `VerifyProof` return the value the trie holds at the key, reading as many
nodes as the proof has, provided the encodings it writes have distinct hashes and the keys and
values are short enough to be encoded.  The empty trie is the exception: its proof is empty,
and `VerifyProof` reports its root node missing. -/
set_option autoImplicit false
set_option linter.dupNamespace false

namespace SimpleChain.Trie

open Node Hasher Rlp

def Node.isHash : Node → Bool
  | .hash _ => true
  | _ => false

namespace Trie

/-- The loop of `Prove` that collects the nodes from `tn` on the path to the hex key `key`; a
hash node is resolved from the database, at most `fuel` times. -/
def provePath (t : Trie) (fuel : Nat) (tn : Node) (key : List UInt8) : Except TrieError (List Node) :=
  match key, tn with
  | [], _ => .ok []
  | _, .nil => .ok []
  | key, .short k val =>
    -- the trie doesn't contain the key: the short node ends the proof
    if key.length < k.length ∨ k ≠ key.take k.length then .ok [.short k val]
    else (.short k val :: ·) <$> t.provePath fuel val (key.drop k.length)
  | x :: key, .full cs =>
    match nibbleIndex x with
    | some i => (.full cs :: ·) <$> t.provePath fuel (cs i) key
    | none => .error (.panic "index out of range")
  | key, .hash h =>
    match fuel with
    | 0 => .error .resolveLimit
    | fuel + 1 => do
      let child ← t.resolveHash h []
      t.provePath fuel child key
  | _, .value _ => .error (.panic "invalid node")
termination_by (fuel, tn.height)
decreasing_by
  · exact Prod.Lex.right _ (Node.height_val_lt k val)
  · exact Prod.Lex.right _ (Node.height_child_lt cs i)
  · exact Prod.Lex.left _ _ (Nat.lt_succ_self fuel)

end Trie

variable (keccak256 : List UInt8 → List UInt8)

/-- The loop of `Prove` over the collected nodes: the first one and every one whose collapsed
form is stored as a hash become proof elements, put under their hashes once the first
`fromLevel` of them are skipped. -/
def proofWrites : List Node → Bool → Nat → List (List UInt8 × List UInt8)
  | [], _, _ => []
  | n :: nodes, first, fromLevel =>
    let collapsed := hashChildren keccak256 n
    if (store keccak256 collapsed false).isHash || first then
      if 0 < fromLevel then proofWrites nodes false (fromLevel - 1)
      else (keccak256 collapsed.item.encode, collapsed.item.encode) :: proofWrites nodes false fromLevel
    else proofWrites nodes false fromLevel

/-- `Trie.Prove`: the writes it makes to the proof database, in order. -/
def Trie.prove (t : Trie) (fuel : Nat) (key : List UInt8) (fromLevel : Nat) :
    Except TrieError (List (List UInt8 × List UInt8)) := do
  let nodes ← t.provePath fuel t.root (keybytesToHex key)
  pure (proofWrites keccak256 nodes true fromLevel)

/-- A key/value store after the writes, from empty: the last write of a key holds. -/
def writeAll (writes : List (List UInt8 × List UInt8)) : List UInt8 → Option (List UInt8) :=
  writes.foldl (fun db w => Function.update db w.1 (some w.2)) fun _ => none

namespace Proof

inductive VerifyError where
  /-- "proof node %d (hash %064x) missing" -/
  | missing (index : Nat) (hash : List UInt8)
  /-- "bad proof node %d: %v" -/
  | badNode (index : Nat) (err : DecodeError)
  /-- a panic of `get` -/
  | panic (message : String)

/-- `get`: the walk through a decoded node and the nodes embedded in it, to the rest of the key
and the child it stops at; `none` is a panic on a full node at the end of the key. -/
def get : Node → List UInt8 → Option (List UInt8 × Node)
  | .short k c, key =>
    if key.length < k.length ∨ k ≠ key.take k.length then some ([], .nil) else get c (key.drop k.length)
  | .full cs, key =>
    match key with
    | [] => none
    | x :: rest =>
      match nibbleIndex x with
      | some i => get (cs i) rest
      | none => none
  | .hash h, key => some (key, .hash h)
  | .nil, key => some (key, .nil)
  | .value v, _ => some ([], .value v)

/-- The loop of `VerifyProof` from proof node `i`, which is looked up under `wantHash` with `key`
left to walk; at most `fuel` more nodes are read.  A hash node that `decodeRef` reads has 32
bytes, so copying it into `wantHash` makes it the new `wantHash`. -/
def verifyLoop (proofDb : List UInt8 → Option (List UInt8)) :
    Nat → Nat → List UInt8 → List UInt8 → Option (Except VerifyError (Option (List UInt8) × Nat))
  | 0, _, _, _ => none
  | fuel + 1, i, wantHash, key =>
    match proofDb wantHash with
    | none => some (.error (.missing i wantHash))
    | some buf =>
      match decodeNode buf with
      | .error err => some (.error (.badNode i err))
      | .ok n =>
        match get n key with
        | none => some (.error (.panic "index out of range"))
        | some (_, .nil) => some (.ok (none, i))
        | some (keyrest, .hash h) => verifyLoop proofDb fuel (i + 1) h keyrest
        | some (_, .value v) => some (.ok (some v, i + 1))
        -- no case of the type switch matches: the loop goes on as it was
        | some _ => verifyLoop proofDb fuel (i + 1) wantHash key

/-- `VerifyProof`: the value at `key` and the number of proof nodes it took. -/
def verifyProof (rootHash key : List UInt8) (proofDb : List UInt8 → Option (List UInt8)) (fuel : Nat) :
    Option (Except VerifyError (Option (List UInt8) × Nat)) :=
  verifyLoop proofDb fuel 0 rootHash (keybytesToHex key)

end Proof

/-- A store that holds the writes, from empty, answers each of them when no two of them put
different encodings under one hash. -/
theorem writeAll_answers {writes : List (List UInt8 × List UInt8)}
    (consistent : ∀ e ∈ writes, ∀ e' ∈ writes, e.1 = e'.1 → e.2 = e'.2) :
    ∀ e ∈ writes, writeAll writes e.1 = some e.2 := by
  -- a key is last written by the last write to it, or keeps what it had
  have last : ∀ (ws : List (List UInt8 × List UInt8)) (db : List UInt8 → Option (List UInt8)) (key : List UInt8),
      ws.foldl (fun (db : List UInt8 → Option (List UInt8)) w => Function.update db w.1 (some w.2)) db key =
        ((ws.reverse.find? fun w => w.1 = key).map Prod.snd).or (db key) := by
    intro ws
    induction ws with
    | nil => simp
    | cons w ws others =>
        intro db key
        rw [List.foldl_cons, others, List.reverse_cons, List.find?_append]
        by_cases same : w.1 = key
        · subst same
          cases ws.reverse.find? fun w' => w'.1 = w.1 <;> simp
        · cases ws.reverse.find? fun w' => w'.1 = key <;> simp [same, Function.update_of_ne (Ne.symm same)]
  intro e member
  rw [writeAll, last]
  obtain ⟨e', found⟩ : ∃ e', writes.reverse.find? (fun w => w.1 = e.1) = some e' := by
    refine Option.ne_none_iff_exists'.mp fun missing => ?_
    exact (List.find?_eq_none.mp missing) e (List.mem_reverse.mpr member) (by simp)
  have sameKey : e'.1 = e.1 := by simpa using List.find?_some found
  have written : e' ∈ writes := List.mem_reverse.mp (List.mem_of_find?_eq_some found)
  rw [found, Option.map_some, Option.some_or, consistent e' written e member sameKey]

/-! ## What the walks read -/

/-- The collapsed encoding of the node is 32 bytes or more: it is stored under its hash. -/
def Stored (n : Node) : Prop := 32 ≤ (hashChildren keccak256 n).item.encode.length

instance (n : Node) : Decidable (Stored keccak256 n) := inferInstanceAs (Decidable (_ ≤ _))

/-- What `get` stops at where a node holds `v`. -/
def valueNode : Option (List UInt8) → Node
  | none => .nil
  | some v => .value v

/-- Where `get` through the decoded form of the shaped node `n` stops with the hex key `r` left:
at what `n` holds there, or at the hash of a stored node `m` below `n` that holds there what
`n` does.  `Prove` collects `n`, the embedded nodes `mid` on the way, and then what it collects
from `m`. -/
inductive Reaches (t : Trie) (fuel : Nat) (n : Node) (r : List UInt8) : Prop where
  | held (mid : List Node) (rest : List UInt8) (embedded : ∀ x ∈ mid, x.Shape ∧ ¬ Stored keccak256 x)
      (got : Proof.get (expandNode (hashChildren keccak256 n)) r = some (rest, valueNode (n.get r)))
      (path : t.provePath fuel n r = .ok (n :: mid))
  | next (mid : List Node) (m : Node) (r' : List UInt8) (embedded : ∀ x ∈ mid, x.Shape ∧ ¬ Stored keccak256 x)
      (shape : m.Shape) (sized : m.Sized) (stored : Stored keccak256 m) (hex : HexKey r') (lower : m.height < n.height)
      (same : m.get r' = n.get r)
      (got : Proof.get (expandNode (hashChildren keccak256 n)) r =
        some (r', .hash (keccak256 (hashChildren keccak256 m).item.encode)))
      (path : t.provePath fuel n r = (fun P => n :: mid ++ P) <$> t.provePath fuel m r')

section Walk

variable {keccak256}

theorem hash_of_stored {c : Node} (shape : c.Shape) (stored : Stored keccak256 c) :
    hash keccak256 c false = .hash (keccak256 (hashChildren keccak256 c).item.encode) := by
  obtain ⟨items, isList, ⟨small, -⟩ | ⟨-, hashed⟩⟩ := @hash_cases keccak256 _ shape
  · exact absurd stored (by rw [Stored, isList]; omega)
  · rw [hashed, isList]

theorem hash_of_embedded {c : Node} (shape : c.Shape) (embedded : ¬ Stored keccak256 c) :
    hash keccak256 c false = hashChildren keccak256 c := by
  obtain ⟨items, isList, ⟨-, inPlace⟩ | ⟨large, -⟩⟩ := @hash_cases keccak256 _ shape
  · exact inPlace
  · exact absurd (by rw [Stored, isList]; exact large) embedded

theorem isHash_store {n : Node} (shape : n.Shape) :
    (store keccak256 (hashChildren keccak256 n) false).isHash = decide (Stored keccak256 n) := by
  rw [← hash_eq_store]
  by_cases stored : Stored keccak256 n
  · rw [hash_of_stored shape stored, decide_eq_true stored]
    rfl
  · rw [hash_of_embedded shape stored, decide_eq_false stored]
    obtain ⟨-, -, notNil, notHash⟩ := @hashChildren_list keccak256 _ shape
    cases collapsed : hashChildren keccak256 n with
    | hash h => exact absurd collapsed (notHash h)
    | _ => rfl

/-- The test of `Prove` and `get` at a short node is the prefix test. -/
theorem mismatch_iff (k key : List UInt8) : (key.length < k.length ∨ k ≠ key.take k.length) ↔ ¬ k <+: key := by
  rw [List.prefix_iff_eq_take]
  constructor
  · rintro (short | differ) same
    · have := congrArg List.length same
      simp only [List.length_take] at this
      omega
    · exact differ same
  · exact .inr

namespace Proof

theorem get_short_of_mismatch {k key : List UInt8} (c : Node) (differ : ¬ k <+: key) :
    get (.short k c) key = some ([], .nil) := by
  rw [get, if_pos ((mismatch_iff k key).mpr differ)]

theorem get_short_append (k r : List UInt8) (c : Node) : get (.short k c) (k ++ r) = get c r := by
  rw [get, if_neg fun differ => (mismatch_iff k (k ++ r)).mp differ (List.prefix_append k r), List.drop_left]

theorem get_full_cons {cs : Fin 17 → Node} {x : UInt8} {i : Fin 17} (hi : nibbleIndex x = some i) (r : List UInt8) :
    get (.full cs) (x :: r) = get (cs i) r := by
  simp [get, hi]

end Proof

namespace Trie

variable (t : Trie) (fuel : Nat)

@[simp] theorem provePath_nil_key (tn : Node) : t.provePath fuel tn [] = .ok [] := by
  rw [provePath]

theorem provePath_nil {key : List UInt8} (ne : key ≠ []) : t.provePath fuel .nil key = .ok [] := by
  obtain ⟨x, r, rfl⟩ := List.exists_cons_of_ne_nil ne
  rw [provePath]
  exact List.cons_ne_nil x r

theorem provePath_short_of_mismatch {k key : List UInt8} (c : Node) (ne : key ≠ []) (differ : ¬ k <+: key) :
    t.provePath fuel (.short k c) key = .ok [.short k c] := by
  obtain ⟨x, r, rfl⟩ := List.exists_cons_of_ne_nil ne
  rw [provePath, if_pos ((mismatch_iff k _).mpr differ)]
  exact List.cons_ne_nil x r

theorem provePath_short_append {k r : List UInt8} (c : Node) (ne : k ++ r ≠ []) :
    t.provePath fuel (.short k c) (k ++ r) = (.short k c :: ·) <$> t.provePath fuel c r := by
  obtain ⟨x, q, eq⟩ := List.exists_cons_of_ne_nil ne
  have same : ¬ (((k ++ r).length < k.length ∨ k ≠ (k ++ r).take k.length)) :=
    fun differ => (mismatch_iff k (k ++ r)).mp differ (List.prefix_append k r)
  rw [eq] at same ⊢
  rw [provePath, if_neg same, ← eq, List.drop_left]
  exact List.cons_ne_nil x q

theorem provePath_full_cons {cs : Fin 17 → Node} {x : UInt8} {i : Fin 17} (hi : nibbleIndex x = some i)
    (r : List UInt8) : t.provePath fuel (.full cs) (x :: r) = (.full cs :: ·) <$> t.provePath fuel (cs i) r := by
  rw [provePath]
  simp only [hi]

end Trie

theorem compactKey_of_shape {k : List UInt8} {c : Node} (shape : (short k c).Shape) :
    compactToHex (hexToCompact k) = k := by
  rcases shape_short.mp shape with ⟨ns, v, nib, rfl, -⟩ | ⟨-, nib, -, -⟩
  · exact compactToHex_hexToCompact nib true
  · exact compactToHex_hexToCompact nib false

variable {t : Trie} {fuel : Nat}

/-- A node reaches through a child reference what the child reaches: the child's hash if it is
stored, and otherwise whatever the walk through the child, embedded in the node, reaches. -/
theorem Reaches.lift {n c : Node} {r r' : List UInt8} (shape : c.Shape) (sized : c.Sized) (hex : HexKey r')
    (lower : c.height < n.height) (same : c.get r' = n.get r)
    (got : Proof.get (expandNode (hashChildren keccak256 n)) r = Proof.get (expandNode (hash keccak256 c false)) r')
    (path : t.provePath fuel n r = (n :: ·) <$> t.provePath fuel c r')
    (below : Reaches keccak256 t fuel c r') : Reaches keccak256 t fuel n r := by
  by_cases stored : Stored keccak256 c
  · rw [hash_of_stored shape stored] at got
    refine .next [] c r' (by simp) shape sized stored hex lower same got ?_
    rw [path]
    rfl
  · rw [hash_of_embedded shape stored] at got
    cases below with
    | held mid rest embedded got' path' =>
        refine .held (c :: mid) rest ?_ (by rw [got, got', same]) (by rw [path, path']; rfl)
        simpa [stored, shape] using embedded
    | next mid m r'' embedded shape' sized' stored' hex' lower' same' got' path' =>
        refine .next (c :: mid) m r'' ?_ shape' sized' stored' hex' (by omega) (same'.trans same) (by rw [got, got'])
          (by rw [path, path', Functor.map_map]; rfl)
        simpa [stored, shape] using embedded

/-- Every walk along a hex key through a shaped node reaches what the node holds there or a
stored node below it. -/
theorem reaches {n : Node} (shape : n.Shape) (sized : n.Sized) {r : List UInt8} (hex : HexKey r) :
    Reaches keccak256 t fuel n r := by
  induction n generalizing r with
  | short k c ih =>
      have key := compactKey_of_shape shape
      by_cases pre : k <+: r
      · obtain ⟨r', rfl⟩ := pre
        have ne : k ++ r' ≠ [] := hex.ne_nil
        rcases shape_short.mp shape with ⟨ns, v, nib, rfl, rfl⟩ | ⟨-, nib, isFull, cShape⟩
        · -- a leaf: the key ends with its key, at its value
          have rest : r' = [] := by
            have whole := HexKey.eq_of_prefix ⟨ns, nib, rfl⟩ hex (List.prefix_append _ _)
            simpa using whole
          subst rest
          refine .held [] [] (by simp) ?_ ?_
          · simp only [hashChildren, expandNode, key, Proof.get_short_append, get_short_append]
            rfl
          · rw [Trie.provePath_short_append _ _ _ ne, Trie.provePath_nil_key]
            rfl
        · -- an extension: the walk goes on through the full node below
          obtain ⟨cs, rfl⟩ := IsFull.exists isFull
          have hex' : HexKey r' := (hexKey_append nib).mp hex
          refine Reaches.lift cShape sized.2 hex' (height_val_lt _ _) (by rw [get_short_append]) ?_
            (Trie.provePath_short_append _ _ _ ne) (ih cShape sized.2 hex')
          simp only [hashChildren, expandNode, key, Proof.get_short_append]
      · refine .held [] [] (by simp) ?_ (Trie.provePath_short_of_mismatch _ _ _ hex.ne_nil pre)
        simp only [hashChildren, expandNode, key]
        rw [Proof.get_short_of_mismatch _ pre, get_short_of_mismatch _ pre]
        rfl
  | full cs ih =>
      obtain ⟨slots, value, -⟩ := shape_full.mp shape
      obtain ⟨x, r', rfl⟩ := List.exists_cons_of_ne_nil hex.ne_nil
      rcases nibbleIndex_of_hexKey hex with ⟨rfl, rfl, hi⟩ | ⟨i, hi, ne, hr⟩
      · -- the value slot, at the end of the key
        refine .held [] [] (by simp) ?_ (by rw [Trie.provePath_full_cons _ _ hi, Trie.provePath_nil_key]; rfl)
        simp only [hashChildren, expandNode]
        rw [Proof.get_full_cons hi, get_full_cons hi]
        rcases value with empty | ⟨v, isValue⟩
        · simp [empty, Proof.get, valueNode, expandNode]
        · simp [isValue, Proof.get, valueNode, expandNode]
      · rcases slots i ne with empty | cShape
        · refine .held [] r' (by simp) ?_ ?_
          · simp only [hashChildren, expandNode]
            rw [Proof.get_full_cons hi, get_full_cons hi]
            simp [empty, Proof.get, valueNode, expandNode, isNil]
          · rw [Trie.provePath_full_cons _ _ hi, empty, Trie.provePath_nil _ _ hr.ne_nil]
            rfl
        · refine Reaches.lift cShape (sized i) hr (height_child_lt cs i) (by rw [get_full_cons hi]) ?_
            (Trie.provePath_full_cons _ _ hi r') (ih i cShape (sized i) hr)
          simp only [hashChildren, expandNode]
          rw [Proof.get_full_cons hi]
          simp [ne, isNil_eq_false.mpr cShape.ne_nil]
  | _ => exact shape.elim

theorem proofWrites_head {n : Node} (shape : n.Shape) {first : Bool} (written : first = true ∨ Stored keccak256 n)
    (rest : List Node) :
    proofWrites keccak256 (n :: rest) first 0 =
      (keccak256 (hashChildren keccak256 n).item.encode, (hashChildren keccak256 n).item.encode) ::
        proofWrites keccak256 rest false 0 := by
  have keep : ((store keccak256 (hashChildren keccak256 n) false).isHash || first) = true := by
    rw [isHash_store shape]
    rcases written with rfl | stored <;> simp [*]
  simp only [proofWrites, keep, if_true, lt_irrefl, if_false]

/-- The embedded nodes on the path are not proof elements. -/
theorem proofWrites_embedded {mid : List Node} (embedded : ∀ x ∈ mid, x.Shape ∧ ¬ Stored keccak256 x)
    (rest : List Node) : proofWrites keccak256 (mid ++ rest) false 0 = proofWrites keccak256 rest false 0 := by
  induction mid with
  | nil => rfl
  | cons x mid others =>
      obtain ⟨shape, small⟩ := embedded x List.mem_cons_self
      have skip : ((store keccak256 (hashChildren keccak256 x) false).isHash || false) = false := by
        rw [isHash_store shape]
        simp [small]
      rw [List.cons_append, proofWrites]
      simp only [skip, Bool.false_eq_true, if_false]
      exact others fun y member => embedded y (List.mem_cons_of_mem x member)

variable (digest : ∀ b, (keccak256 b).length = 32)

include digest in
/-- From a shaped node on the path, `Prove` collects a path that starts with it, and the loop of
`VerifyProof`, given the node's hash and a store that answers the writes `Prove` makes from it,
returns what the node holds at the key, with one node read per write. -/
theorem verifyLoop_of_provePath {n : Node} (shape : n.Shape) (sized : n.Sized) {r : List UInt8} (hex : HexKey r) :
    ∃ tail, t.provePath fuel n r = .ok (n :: tail) ∧
      ∀ proofDb fuel' i, (∀ e ∈ proofWrites keccak256 (n :: tail) true 0, proofDb e.1 = some e.2) →
        (proofWrites keccak256 (n :: tail) true 0).length ≤ fuel' →
        Proof.verifyLoop proofDb fuel' i (keccak256 (hashChildren keccak256 n).item.encode) r =
          some (.ok (n.get r, i + (proofWrites keccak256 (n :: tail) true 0).length -
            (if (n.get r).isSome then 0 else 1))) := by
  have decoded : decodeNode (hashChildren keccak256 n).item.encode = .ok (expandNode (hashChildren keccak256 n)) := by
    simpa using decodeNode_hashChildren digest shape sized []
  cases @reaches keccak256 t fuel _ shape sized _ hex with
  | held mid rest embedded got path =>
      refine ⟨mid, path, fun proofDb fuel' i answers enough => ?_⟩
      have writes : proofWrites keccak256 (n :: mid) true 0 =
          [(keccak256 (hashChildren keccak256 n).item.encode, (hashChildren keccak256 n).item.encode)] := by
        rw [proofWrites_head shape (.inl rfl), ← List.append_nil mid, proofWrites_embedded embedded]
        rfl
      rw [writes] at answers enough ⊢
      obtain ⟨f, rfl⟩ : ∃ f, fuel' = f + 1 := ⟨fuel' - 1, by simp at enough; omega⟩
      have stored := answers _ List.mem_cons_self
      cases held : n.get r with
      | none => simp [Proof.verifyLoop, stored, decoded, got, held, valueNode]
      | some v => simp [Proof.verifyLoop, stored, decoded, got, held, valueNode]
  | next mid m r' embedded mShape mSized stored hex' lower same got path =>
      obtain ⟨tail, path', loop⟩ := verifyLoop_of_provePath mShape mSized hex'
      refine ⟨mid ++ m :: tail, by rw [path, path']; rfl, fun proofDb fuel' i answers enough => ?_⟩
      have writes : proofWrites keccak256 (n :: (mid ++ m :: tail)) true 0 =
          (keccak256 (hashChildren keccak256 n).item.encode, (hashChildren keccak256 n).item.encode) ::
            proofWrites keccak256 (m :: tail) true 0 := by
        rw [proofWrites_head shape (.inl rfl), proofWrites_embedded embedded, proofWrites_head mShape (.inr stored),
          proofWrites_head mShape (.inl rfl)]
      rw [writes] at answers enough ⊢
      obtain ⟨f, rfl⟩ : ∃ f, fuel' = f + 1 := ⟨fuel' - 1, by simp at enough; omega⟩
      have first := answers _ List.mem_cons_self
      have later := loop proofDb f (i + 1) (fun e member => answers e (List.mem_cons_of_mem _ member))
        (by simp at enough; omega)
      simp only [Proof.verifyLoop, first, decoded, got, later, same, List.length_cons]
      congr 3
      omega
termination_by n.height

end Walk

/-! ## Short keys and values -/

theorem length_keybytesToHex (key : List UInt8) : (keybytesToHex key).length = 2 * key.length + 1 := by
  induction key with
  | nil => rfl
  | cons b key ih =>
      simp [keybytesToHex] at ih ⊢
      omega

/-- A shaped node is sized when the keys it holds values at, behind a prefix `p`, and the values
are short, and the values are set. -/
theorem sized_of_get {n : Node} (shape : n.Shape) (p : List UInt8)
    (short : ∀ q v, HexKey q → n.get q = some v → (p ++ q).length < 2 ^ 32 ∧ 0 < v.length ∧ v.length < 2 ^ 32) :
    n.Sized := by
  induction n generalizing p with
  | short k c ih =>
      rcases shape_short.mp shape with ⟨ns, v, nib, rfl, rfl⟩ | ⟨-, nib, -, cShape⟩
      · obtain ⟨keyShort, valueSet, valueShort⟩ := short _ v ⟨ns, nib, rfl⟩
          (by rw [get_short, if_pos (List.prefix_refl _)]; rfl)
        exact ⟨by simp only [List.length_append] at keyShort ⊢; omega, valueSet, valueShort⟩
      · obtain ⟨q, hq, held⟩ := cShape.exists_key
        obtain ⟨v, got⟩ := Option.ne_none_iff_exists'.mp held
        obtain ⟨keyShort, -⟩ := short (k ++ q) v ((hexKey_append nib).mpr hq) (by rw [get_short_append]; exact got)
        refine ⟨by simp only [List.length_append] at keyShort; omega, ih cShape (p ++ k) fun q' v' hq' got' => ?_⟩
        rw [List.append_assoc]
        exact short (k ++ q') v' ((hexKey_append nib).mpr hq') (by rw [get_short_append]; exact got')
  | full cs ih =>
      obtain ⟨slots, value, -⟩ := shape_full.mp shape
      intro i
      by_cases sixteen : i = 16
      · subst sixteen
        rcases value with empty | ⟨v, isValue⟩
        · rw [empty]
          trivial
        · obtain ⟨-, valueSet, valueShort⟩ := short [16] v ⟨[], nibbles_nil, rfl⟩
            (by rw [get_full_cons nibbleIndex_sixteen, isValue]; rfl)
          rw [isValue]
          exact ⟨valueSet, valueShort⟩
      · rcases slots i sixteen with empty | cShape
        · rw [empty]
          trivial
        · refine ih i cShape (p ++ [i.val.toUInt8]) fun q v hq got => ?_
          rw [List.append_assoc, List.singleton_append]
          exact short _ v (hexKey_cons.mpr (.inr ⟨byte_lt_of_ne_sixteen sixteen, hq⟩)) (by rw [get_full_slot]; exact got)
  | _ => exact shape.elim

/-- The root of a trie that holds a map of short keys and short set values is sized. -/
theorem sized_of_holds {t : Trie} {m : List UInt8 → Option (List UInt8)} (held : Trie.Holds t m) (shape : t.root.Shape)
    (short : ∀ key v, m key = some v → key.length < 2 ^ 31 ∧ 0 < v.length ∧ v.length < 2 ^ 32) : t.root.Sized := by
  refine sized_of_get shape [] fun q v hq got => ?_
  by_cases byteKey : ∃ key, keybytesToHex key = q
  · obtain ⟨key, rfl⟩ := byteKey
    rw [held.get] at got
    obtain ⟨keyShort, valueSet, valueShort⟩ := short key v got
    refine ⟨?_, valueSet, valueShort⟩
    rw [List.nil_append, length_keybytesToHex]
    omega
  · rw [held.outside q hq fun key same => byteKey ⟨key, same⟩] at got
    cases got

/-- A run of writes leaves no key set to the empty value. -/
theorem lastWrites_set {ops : List TrieOp} {key v : List UInt8} (got : lastWrites ops key = some v) : 0 < v.length := by
  have step : ∀ (ops : List TrieOp) (m : List UInt8 → Option (List UInt8)),
      (∀ key v, m key = some v → 0 < v.length) → ∀ key v, ops.foldl TrieOp.write m key = some v → 0 < v.length := by
    intro ops
    induction ops with
    | nil => exact fun m set => set
    | cons op ops others =>
        refine fun m set => others _ fun key v got => ?_
        cases op with
        | update k w =>
            simp only [TrieOp.write] at got
            split at got
            · split at got
              · cases got
                omega
              · cases got
            · exact set key v got
        | delete k =>
            simp only [TrieOp.write] at got
            split at got
            · cases got
            · exact set key v got
  exact step ops _ (fun _ _ none => by cases none) key v got

/-! ## Completeness -/

section Complete

variable {keccak256} (digest : ∀ b, (keccak256 b).length = 32)

include digest in
/-- The hash of a non-empty canonical trie is the hash of its root's collapsed encoding. -/
theorem hash_of_shape {t : Trie} (shape : t.root.Shape) :
    t.Hash keccak256 = .ok (keccak256 (hashChildren keccak256 t.root).item.encode) := by
  obtain ⟨-, -, notNil, notHash⟩ := @hashChildren_list keccak256 _ shape
  have forced : store keccak256 (hashChildren keccak256 t.root) true =
      .hash (keccak256 (hashChildren keccak256 t.root).item.encode) := by
    unfold store
    split
    next same => exact absurd same notNil
    next h same => exact absurd same (notHash h)
    next => simp
  have rooted : t.hashRoot keccak256 = .hash (keccak256 (hashChildren keccak256 t.root).item.encode) := by
    rw [Trie.hashRoot]
    split
    next empty => exact absurd empty shape.ne_nil
    next => rw [hash_eq_store, forced]
  rw [Trie.Hash, rooted]
  simp [bytesToHash, digest]

include digest in
theorem prove_then_verifyProof_returns_value (db : Database) (fuel : Nat) (ops : List TrieOp)
    (short : ∀ key v, lastWrites ops key = some v → key.length < 2 ^ 31 ∧ v.length < 2 ^ 32)
    (t : Trie) (built : Trie.applyOps fuel ⟨db, .nil⟩ ops = .ok t) (nonempty : t.root ≠ .nil) (key : List UInt8) :
    ∃ proof rootHash, t.prove keccak256 fuel key 0 = .ok proof ∧ t.Hash keccak256 = .ok rootHash ∧
      ((∀ e ∈ proof, ∀ e' ∈ proof, e.1 = e'.1 → e.2 = e'.2) →
        ∃ value, t.TryGet fuel key = .ok (value, t) ∧
          ∀ fuel', proof.length ≤ fuel' →
            Proof.verifyProof rootHash key (writeAll proof) fuel' =
              some (.ok (value, proof.length - (if value.isSome then 0 else 1)))) := by
  obtain ⟨t', run, held⟩ := Trie.holds_applyOps fuel ops (Trie.holds_empty db)
  rw [built] at run
  cases run
  have shape : t.root.Shape := held.canonical.resolve_left nonempty
  have sized := sized_of_holds held shape fun key v got =>
    ⟨(short key v got).1, lastWrites_set got, (short key v got).2⟩
  obtain ⟨tail, path, loop⟩ :=
    @verifyLoop_of_provePath keccak256 t fuel digest _ shape sized _ (hexKey_keybytesToHex key)
  refine ⟨_, _, by rw [Trie.prove, path]; rfl, hash_of_shape digest shape, fun consistent =>
    ⟨lastWrites ops key, Trie.tryGet_of_holds fuel held key, fun fuel' enough => ?_⟩⟩
  have answered := loop (writeAll _) fuel' 0 (writeAll_answers consistent) enough
  rw [Proof.verifyProof, answered, held.get key, Nat.zero_add]
  rfl

end Complete

/-- The empty trie, built by no writes: `Prove` writes nothing, and `VerifyProof` finds no node
under the root hash. -/
theorem empty_trie_proof_misses_root (db : Database) (fuel : Nat) (key : List UInt8) (fuel' : Nat) :
    Trie.applyOps fuel ⟨db, .nil⟩ [] = .ok ⟨db, .nil⟩ ∧ Trie.prove keccak256 ⟨db, .nil⟩ fuel key 0 = .ok [] ∧
      Trie.Hash keccak256 ⟨db, .nil⟩ = .ok emptyRoot ∧
      Proof.verifyProof emptyRoot key (writeAll []) (fuel' + 1) = some (.error (.missing 0 emptyRoot)) := by
  refine ⟨rfl, ?_, ?_, rfl⟩
  · rw [Trie.prove, Trie.provePath_nil _ _ (hexKey_keybytesToHex key).ne_nil]
    rfl
  · have padded : bytesToHash emptyRoot = emptyRoot := by decide
    rw [Trie.Hash, Trie.hashRoot]
    exact congrArg Except.ok padded

theorem prove_then_verifyProof_misses_empty_trie :
    Trie.applyOps 0 ⟨⟨[]⟩, .nil⟩ [] = .ok ⟨⟨[]⟩, .nil⟩ ∧
      Trie.prove (fun _ => List.replicate 32 0) ⟨⟨[]⟩, .nil⟩ 0 [1] 0 = .ok [] ∧
      Trie.Hash (fun _ => List.replicate 32 0) ⟨⟨[]⟩, .nil⟩ = .ok emptyRoot ∧
      Proof.verifyProof emptyRoot [1] (writeAll []) 1 = some (.error (.missing 0 emptyRoot)) :=
  empty_trie_proof_misses_root (fun _ => List.replicate 32 0) ⟨[]⟩ 0 [1] 0

end SimpleChain.Trie
