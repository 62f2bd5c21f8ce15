import Mathlib
import SimpleChain.Trie.Update

/-! # The trie is a finite map

A trie in memory answers `TryGet` with the last value written to the key by
`TryUpdate` with a non-empty value, and with nothing when there is none or when
a later `TryDelete`, or `TryUpdate` with an empty value, removed it.  `Holds t m`
says that the root of `t` is in canonical form and holds the map `m` on the hex
keys of byte keys; every write keeps it, with `m` written the same way. -/
set_option autoImplicit false
set_option linter.dupNamespace false

namespace SimpleChain.Trie

open Node

/-- A call that writes the trie. -/
inductive TrieOp where
  | update (key value : List UInt8)
  | delete (key : List UInt8)

/-- The map after one write: an empty value deletes. -/
def TrieOp.write (m : List UInt8 → Option (List UInt8)) : TrieOp → List UInt8 → Option (List UInt8)
  | .update k v, key => if key = k then (if v.length ≠ 0 then some v else none) else m key
  | .delete k, key => if key = k then none else m key

/-- What a run of writes leaves at each key, from an empty map. -/
def lastWrites (ops : List TrieOp) : List UInt8 → Option (List UInt8) :=
  ops.foldl TrieOp.write fun _ => none

namespace Trie

def applyOp (fuel : Nat) (t : Trie) : TrieOp → Except TrieError Trie
  | .update k v => t.TryUpdate fuel k v
  | .delete k => t.TryDelete fuel k

def applyOps (fuel : Nat) (t : Trie) (ops : List TrieOp) : Except TrieError Trie :=
  ops.foldlM (applyOp fuel) t

/-- The root of `t` is in canonical form, holds `m` at the hex key of each byte key, and
nothing at the hex keys of no byte key. -/
structure Holds (t : Trie) (m : List UInt8 → Option (List UInt8)) : Prop where
  canonical : Canonical t.root
  get : ∀ key, t.root.get (keybytesToHex key) = m key
  outside : ∀ q, HexKey q → (∀ key, keybytesToHex key ≠ q) → t.root.get q = none

theorem holds_empty (db : Database) : Holds ⟨db, .nil⟩ fun _ => none :=
  ⟨.inl rfl, fun _ => get_nil _, fun q _ _ => get_nil q⟩

/-- Overwriting the hex key of `k` in the root writes `k` in the map. -/
theorem holds_of_overwrites {t : Trie} {m : List UInt8 → Option (List UInt8)} (held : Holds t m) {n' : Node}
    (canonical : Canonical n') {k : List UInt8} {o : Option (List UInt8)}
    (overwrote : Overwrites [] n' t.root (keybytesToHex k) o) :
    Holds { t with root := n' } fun key => if key = k then o else m key := by
  refine ⟨canonical, fun key => ?_, fun q hex other => ?_⟩
  · have written := overwrote (keybytesToHex key) (by simpa using hexKey_keybytesToHex key)
    show n'.get (keybytesToHex key) = _
    rw [written, held.get key]
    simp only [keybytesToHex_injective.eq_iff]
  · show n'.get q = none
    rw [overwrote q (by simpa using hex), if_neg (Ne.symm (other k)), held.outside q hex other]

variable (fuel : Nat)

theorem holds_tryDelete {t : Trie} {m : List UInt8 → Option (List UInt8)} (held : Holds t m) (k : List UInt8) :
    ∃ t', t.TryDelete fuel k = .ok t' ∧ Holds t' fun key => if key = k then none else m key := by
  obtain ⟨dirty, n', call, deleted⟩ :=
    t.delete_deleted fuel t.root [] (keybytesToHex k) nibbles_nil (hexKey_keybytesToHex k) held.canonical
  refine ⟨_, ?_, holds_of_overwrites held deleted.canonical deleted.overwrites⟩
  rw [TryDelete, call]
  rfl

theorem holds_tryUpdate {t : Trie} {m : List UInt8 → Option (List UInt8)} (held : Holds t m) (k v : List UInt8) :
    ∃ t', t.TryUpdate fuel k v = .ok t' ∧
      Holds t' fun key => if key = k then (if v.length ≠ 0 then some v else none) else m key := by
  by_cases empty : v.length ≠ 0
  · obtain ⟨dirty, n', call, inserted⟩ :=
      t.insert_inserted fuel v t.root [] (keybytesToHex k) nibbles_nil (hexKey_keybytesToHex k) held.canonical
    refine ⟨_, ?_, by simpa [empty] using holds_of_overwrites held (.inr inserted.shape) inserted.overwrites⟩
    rw [TryUpdate]
    dsimp only
    rw [if_pos empty, call]
    rfl
  · -- an empty value deletes the key
    obtain ⟨dirty, n', call, deleted⟩ :=
      t.delete_deleted fuel t.root [] (keybytesToHex k) nibbles_nil (hexKey_keybytesToHex k) held.canonical
    refine ⟨_, ?_, by simpa [empty] using holds_of_overwrites held deleted.canonical deleted.overwrites⟩
    rw [TryUpdate]
    dsimp only
    rw [if_neg empty, call]
    rfl

/-- One write keeps the root canonical and writes the map the same way. -/
theorem holds_applyOp {t : Trie} {m : List UInt8 → Option (List UInt8)} (held : Holds t m) (op : TrieOp) :
    ∃ t', applyOp fuel t op = .ok t' ∧ Holds t' (op.write m) := by
  cases op with
  | update k v => exact holds_tryUpdate fuel held k v
  | delete k => exact holds_tryDelete fuel held k

/-- A run of writes succeeds and leaves the map written by each in turn. -/
theorem holds_applyOps : ∀ (ops : List TrieOp) {t : Trie} {m : List UInt8 → Option (List UInt8)}, Holds t m →
    ∃ t', applyOps fuel t ops = .ok t' ∧ Holds t' (ops.foldl TrieOp.write m)
  | [], t, _, held => ⟨t, rfl, held⟩
  | op :: ops, _, m, held => by
    obtain ⟨t₁, first, held₁⟩ := holds_applyOp fuel held op
    obtain ⟨t', rest, held'⟩ := holds_applyOps ops held₁
    refine ⟨t', ?_, held'⟩
    rw [applyOps, List.foldlM_cons, first, GoLoop.ok_bind]
    exact rest

/-- On a canonical root `TryGet` resolves nothing and reads the map. -/
theorem tryGet_of_holds {t : Trie} {m : List UInt8 → Option (List UInt8)} (held : Holds t m) (key : List UInt8) :
    t.TryGet fuel key = .ok (m key, t) := by
  have at_ : t.root = .nil ∨ (∃ v, t.root = .value v) ∨
      (t.root.Shape ∧ HexKey ((keybytesToHex key).drop 0)) := by
    rcases held.canonical with nil | shape
    · exact .inl nil
    · exact .inr (.inr ⟨shape, hexKey_keybytesToHex key⟩)
  rw [TryGet, tryGet_eq_get t fuel at_, GoLoop.ok_bind, List.drop_zero, held.get key]
  rfl

theorem trie_holds_last_writes (db : Database) (fuel : Nat) (ops : List TrieOp) :
    ∃ t, applyOps fuel ⟨db, .nil⟩ ops = .ok t ∧ ∀ key, t.TryGet fuel key = .ok (lastWrites ops key, t) := by
  obtain ⟨t, run, held⟩ := holds_applyOps fuel ops (holds_empty db)
  exact ⟨t, run, tryGet_of_holds fuel held⟩

end Trie

end SimpleChain.Trie
