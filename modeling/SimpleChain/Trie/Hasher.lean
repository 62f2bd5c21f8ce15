import Mathlib
import SimpleChain.Trie.Map
import SimpleChain.Trie.Unique
import SimpleChain.Rlp.Item

/-! # The root hash (`trie/hasher.go`, `Trie.Hash`)

The hasher collapses a node bottom-up: a short node's key goes to its compact
form, and every child but the values is replaced by its own hash, or kept in
place when its encoding is under 32 bytes.  The root is always hashed.  A node
is encoded as RLP: a short node as the list of its key and child, a full node
as the list of its seventeen slots with the empty ones as empty strings.
Keccak-256 is a parameter.

The hash is a function of the root.  Two runs of writes that leave the same map
leave the same root, since a map has one canonical trie, and so the same hash,
whatever the order of the writes. -/
set_option autoImplicit false
set_option linter.dupNamespace false

namespace SimpleChain.Trie

open Node Rlp

/-- The RLP item of a collapsed node; an unset slot of a full node is `nilValueNode`, an
empty string, and a nil interface elsewhere is an empty list. -/
def Node.item : Node → Item
  | .nil => .list []
  | .value v => .str v
  | .hash h => .str h
  | .short k c => .list [.str k, c.item]
  | .full cs => .list ((List.finRange 17).map fun i => if (cs i).isNil then .str [] else (cs i).item)

namespace Hasher

variable (keccak256 : List UInt8 → List UInt8)

/-- `hasher.store`: a node whose encoding is under 32 bytes stays in its parent unless forced. -/
def store (n : Node) (force : Bool) : Node :=
  match n with
  | .nil => n
  | .hash _ => n
  | n => if n.item.encode.length < 32 ∧ !force then n else .hash (keccak256 n.item.encode)

/-- `hasher.hash` with `hashChildren`: the children of a short node other than values, and the
sixteen nibble slots of a full node, are hashed first. -/
def hash : Node → Bool → Node
  | .short k c, force =>
    store keccak256
      (.short (hexToCompact k) (match c with
        | .value v => .value v
        | c => hash c false)) force
  | .full cs, force =>
    store keccak256 (.full fun i => if i ≠ 16 ∧ !(cs i).isNil then hash (cs i) false else cs i) force
  | n, force => store keccak256 n force

end Hasher

/-- The hash of the empty trie, Keccak-256 of the empty string's encoding. -/
def emptyRoot : List UInt8 :=
  [0x56, 0xe8, 0x1f, 0x17, 0x1b, 0xcc, 0x55, 0xa6, 0xff, 0x83, 0x45, 0xe6, 0x92, 0xc0, 0xf8, 0x6e,
    0x5b, 0x48, 0xe0, 0x1b, 0x99, 0x6c, 0xad, 0xc0, 0x01, 0x62, 0x2f, 0xb5, 0xe3, 0x63, 0xb4, 0x21]

/-- `common.BytesToHash`: the last 32 bytes, padded with zeros in front. -/
def bytesToHash (b : List UInt8) : List UInt8 :=
  if 32 < b.length then b.drop (b.length - 32) else List.replicate (32 - b.length) 0 ++ b

namespace Trie

variable (keccak256 : List UInt8 → List UInt8)

def hashRoot (t : Trie) : Node :=
  match t.root with
  | .nil => .hash emptyRoot
  | root => Hasher.hash keccak256 root true

/-- `Trie.Hash`: the root hash; the hasher's result is asserted to be a hash node. -/
def Hash (t : Trie) : Except TrieError (List UInt8) :=
  match t.hashRoot keccak256 with
  | .hash h => .ok (bytesToHash h)
  | _ => .error (.panic "interface conversion: trie.node is not trie.hashNode")

/-- A forced store hashes every node but nil. -/
theorem store_force {n : Node} (ne : n ≠ .nil) : ∃ h, Hasher.store keccak256 n true = .hash h := by
  unfold Hasher.store
  split
  · exact absurd rfl ne
  · exact ⟨_, rfl⟩
  · exact ⟨keccak256 _, if_neg (by simp)⟩

/-- The root of a trie in canonical form hashes to a hash node. -/
theorem hash_ok {t : Trie} (canonical : Canonical t.root) : ∃ h, t.Hash keccak256 = .ok h := by
  rcases canonical with nil | shape
  · exact ⟨bytesToHash emptyRoot, by rw [Hash, hashRoot, nil]⟩
  · obtain ⟨h, hashed⟩ : ∃ h, t.hashRoot keccak256 = .hash h := by
      cases root : t.root with
      | nil => exact absurd root shape.ne_nil
      | short k c =>
        rw [hashRoot, root]
        unfold Hasher.hash
        exact store_force keccak256 short_ne_nil
      | full cs =>
        rw [hashRoot, root]
        unfold Hasher.hash
        exact store_force keccak256 full_ne_nil
      | value v => rw [root] at shape; exact shape.elim
      | hash h => rw [root] at shape; exact shape.elim
    exact ⟨bytesToHash h, by rw [Hash, hashed]⟩

/-- Two tries that hold the same map have the same root. -/
theorem root_eq_of_holds {t₁ t₂ : Trie} {m : List UInt8 → Option (List UInt8)} (held₁ : Holds t₁ m)
    (held₂ : Holds t₂ m) : t₁.root = t₂.root := by
  refine eq_of_get _ _ held₁.canonical held₂.canonical fun q hex => ?_
  by_cases byteKey : ∃ key, keybytesToHex key = q
  · obtain ⟨key, rfl⟩ := byteKey
    rw [held₁.get, held₂.get]
  · have other : ∀ key, keybytesToHex key ≠ q := fun key same => byteKey ⟨key, same⟩
    rw [held₁.outside q hex other, held₂.outside q hex other]

theorem hash_history_independent (db₁ db₂ : Database) (fuel : Nat) (ops₁ ops₂ : List TrieOp)
    (same : lastWrites ops₁ = lastWrites ops₂) :
    ∃ t₁ t₂, applyOps fuel ⟨db₁, .nil⟩ ops₁ = .ok t₁ ∧ applyOps fuel ⟨db₂, .nil⟩ ops₂ = .ok t₂ ∧
      t₁.root = t₂.root ∧ ∃ h, t₁.Hash keccak256 = .ok h ∧ t₂.Hash keccak256 = .ok h := by
  obtain ⟨t₁, run₁, held₁⟩ := holds_applyOps fuel ops₁ (holds_empty db₁)
  obtain ⟨t₂, run₂, held₂⟩ := holds_applyOps fuel ops₂ (holds_empty db₂)
  have roots := root_eq_of_holds held₁ (show Holds t₂ (lastWrites ops₁) from same ▸ held₂)
  obtain ⟨h, hashed⟩ := hash_ok keccak256 held₁.canonical
  refine ⟨t₁, t₂, run₁, run₂, roots, h, hashed, ?_⟩
  rw [← hashed, Hash, Hash, hashRoot, hashRoot, roots]

/-- Two writes of different keys in either order. -/
theorem swapped_writes :
    lastWrites [.update [1] [2], .update [3] [4]] = lastWrites [.update [3] [4], .update [1] [2]] := by
  funext key
  simp only [lastWrites, List.foldl, TrieOp.write]
  by_cases one : key = [1] <;> by_cases three : key = [3] <;> simp_all

/-- A 32-byte stand-in for Keccak-256 that reads every byte it is given. -/
def mixHash (bytes : List UInt8) : List UInt8 :=
  (List.range 32).map fun i => UInt8.ofNat (bytes.foldl (fun acc b => 31 * acc + b.toNat) (i + 1))

theorem hash_history_independent_of_swapped_writes :
    lastWrites [.update [1] [2], .update [3] [4]] = lastWrites [.update [3] [4], .update [1] [2]] ∧
      ∃ t₁ t₂, applyOps 0 ⟨⟨[]⟩, .nil⟩ [.update [1] [2], .update [3] [4]] = .ok t₁ ∧
        applyOps 0 ⟨⟨[]⟩, .nil⟩ [.update [3] [4], .update [1] [2]] = .ok t₂ ∧ t₁.root = t₂.root ∧
        ∃ h, t₁.Hash mixHash = .ok h ∧ t₂.Hash mixHash = .ok h :=
  ⟨swapped_writes, hash_history_independent mixHash ⟨[]⟩ ⟨[]⟩ 0 _ _ swapped_writes⟩

end Trie

end SimpleChain.Trie
