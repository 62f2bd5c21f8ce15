import Mathlib
import SimpleChain.Trie.Encoding

/-! # Trie nodes and the operations on them (`trie/node.go`, `trie/trie.go`)

A node is Go's `node` interface: nil, a `fullNode` with seventeen children (the
sixteen nibbles and the value slot 16), a `shortNode` with a key and one child,
a `hashNode` standing for a node stored in the database, or a `valueNode`.
`tryGet`, `insert` and `delete` are the source's recursions: they walk the key
from the root, `insert` splits a short node into a full one where the keys part,
and `delete` re-normalises on the way up.  Resolving a `hashNode` loads a node of
any size from the database, so the walk is bounded by `fuel`, the number of
resolutions it may still make; without hash nodes it is never consulted.

The node flags (cached hash and dirty bit) are not modelled: only `Hash` and
`Commit` set them, and the hasher recomputes what they cache. -/
set_option autoImplicit false
set_option linter.dupNamespace false

namespace SimpleChain.Trie

/-- A full node has seventeen slots; one named instance serves every slot literal. -/
instance slotCount : NeZero 17 := Nat.instNeZeroSucc

inductive Node where
  | nil
  | full (children : Fin 17 → Node)
  | short (key : List UInt8) (val : Node)
  | hash (hash : List UInt8)
  | value (value : List UInt8)

instance : Inhabited Node := ⟨.nil⟩

namespace Node

def isNil : Node → Bool
  | .nil => true
  | _ => false

def height : Node → Nat
  | .full cs => (Finset.univ.sup fun i => (cs i).height) + 1
  | .short _ c => c.height + 1
  | _ => 0

theorem height_child_lt (cs : Fin 17 → Node) (i : Fin 17) : (cs i).height < (full cs).height := by
  rw [height]
  exact Nat.lt_succ_of_le (Finset.le_sup (f := fun i => (cs i).height) (Finset.mem_univ i))

theorem height_val_lt (k : List UInt8) (c : Node) : c.height < (short k c).height := by
  rw [height]
  omega

theorem short_ne_nil {k : List UInt8} {c : Node} : short k c ≠ nil := fun same => Node.noConfusion same

theorem full_ne_nil {cs : Fin 17 → Node} : full cs ≠ nil := fun same => Node.noConfusion same

end Node

/-- The in-memory form of a node stored collapsed: compact keys become hex keys again. -/
def expandNode : Node → Node
  | .short k v => .short (compactToHex k) (expandNode v)
  | .full cs => .full fun i => expandNode (cs i)
  | n => n

/-- The dirty cache of `trie.Database`: collapsed nodes under their hashes. -/
structure Database where
  dirties : List (List UInt8 × Node)

def Database.node (db : Database) (hash : List UInt8) : Option Node :=
  (db.dirties.lookup hash).map expandNode

inductive TrieError where
  | missingNode (nodeHash : List UInt8) (path : List UInt8)
  | panic (message : String)
  | resolveLimit

structure Trie where
  db : Database
  root : Node

def nibbleIndex (x : UInt8) : Option (Fin 17) :=
  if h : x.toNat < 17 then some ⟨x.toNat, h⟩ else none

namespace Trie

def resolveHash (t : Trie) (n pfx : List UInt8) : Except TrieError Node :=
  match t.db.node n with
  | some node => .ok node
  | none => .error (.missingNode n pfx)

def resolve (t : Trie) (n : Node) (pfx : List UInt8) : Except TrieError Node :=
  match n with
  | .hash h => t.resolveHash h pfx
  | n => .ok n

def tryGet (t : Trie) (fuel : Nat) (origNode : Node) (key : List UInt8) (pos : Nat) :
    Except TrieError (Option (List UInt8) × Node × Bool) :=
  match origNode with
  | .nil => .ok (none, .nil, false)
  | .value v => .ok (some v, .value v, false)
  | .short k val =>
    if (key.length : Int) - pos < k.length ∨ k ≠ (key.drop pos).take k.length then
      .ok (none, origNode, false)
    else do
      let (value, newnode, didResolve) ← t.tryGet fuel val key (pos + k.length)
      return (value, if didResolve then .short k newnode else origNode, didResolve)
  | .full cs =>
    match key[pos]?.bind nibbleIndex with
    | none => .error (.panic "index out of range")
    | some i => do
      let (value, newnode, didResolve) ← t.tryGet fuel (cs i) key (pos + 1)
      return (value, if didResolve then .full (Function.update cs i newnode) else origNode,
        didResolve)
  | .hash h =>
    match fuel with
    | 0 => .error .resolveLimit
    | fuel + 1 => do
      let child ← t.resolveHash h (key.take pos)
      let (value, newnode, _) ← t.tryGet fuel child key pos
      return (value, newnode, true)
termination_by (fuel, origNode.height)
decreasing_by
  · exact Prod.Lex.right _ (Node.height_val_lt k val)
  · exact Prod.Lex.right _ (Node.height_child_lt cs i)
  · exact Prod.Lex.left _ _ (Nat.lt_succ_self fuel)

def insert (t : Trie) (fuel : Nat) (n : Node) (pfx key : List UInt8) (value : Node) :
    Except TrieError (Bool × Node) :=
  match key with
  | [] =>
    match n, value with
    | .value v, .value w => .ok (v != w, value)
    | .value _, _ => .error (.panic "interface conversion: node is not valueNode")
    | _, _ => .ok (true, value)
  | k0 :: rest =>
    match n with
    | .short nk nval =>
      let matchlen := prefixLen key nk
      -- If the whole key matches, keep this short node as is and only update the value.
      if matchlen = nk.length then do
        let (dirty, nn) ← t.insert fuel nval (pfx ++ key.take matchlen) (key.drop matchlen) value
        if !dirty then return (false, n)
        return (true, .short nk nn)
      else
        -- Otherwise branch out at the index where they differ.
        match nk[matchlen]?.bind nibbleIndex, key[matchlen]?.bind nibbleIndex with
        | some i, some j => do
          let (_, old) ← t.insert fuel .nil (pfx ++ nk.take (matchlen + 1)) (nk.drop (matchlen + 1))
            nval
          let (_, new) ← t.insert fuel .nil (pfx ++ key.take (matchlen + 1))
            (key.drop (matchlen + 1)) value
          let branch := Node.full (Function.update (Function.update (fun _ => .nil) i old) j new)
          if matchlen = 0 then return (true, branch)
          return (true, .short (key.take matchlen) branch)
        | _, _ => .error (.panic "index out of range")
    | .full cs =>
      match nibbleIndex k0 with
      | some i => do
        let (dirty, nn) ← t.insert fuel (cs i) (pfx ++ [k0]) rest value
        if !dirty then return (false, n)
        return (true, .full (Function.update cs i nn))
      | none => .error (.panic "index out of range")
    | .nil => .ok (true, .short key value)
    | .hash h =>
      match fuel with
      | 0 => .error .resolveLimit
      | fuel + 1 => do
        -- Load the node and insert into it, leaving the loaded nodes on the path in the trie.
        let rn ← t.resolveHash h pfx
        let (dirty, nn) ← t.insert fuel rn pfx key value
        if !dirty then return (false, rn)
        return (true, nn)
    | .value _ => .error (.panic "invalid node")
termination_by (fuel, n.height)
decreasing_by
  · exact Prod.Lex.right _ (Node.height_val_lt nk nval)
  · exact Prod.Lex.right _ (by simp [Node.height])
  · exact Prod.Lex.right _ (by simp [Node.height])
  · exact Prod.Lex.right _ (Node.height_child_lt cs i)
  · exact Prod.Lex.left _ _ (Nat.lt_succ_self fuel)

/-- The index of the only non-nil child, -1 if there is none, -2 if there are several: the
source's loop, whose `break` at -2 only skips steps that keep -2. -/
def remainingPos (children : Fin 17 → Node) : Int :=
  (List.finRange 17).foldl
    (fun pos i => if (children i).isNil then pos else if pos = -1 then (i.val : Int) else -2) (-1)

def delete (t : Trie) (fuel : Nat) (n : Node) (pfx key : List UInt8) :
    Except TrieError (Bool × Node) :=
  match n with
  | .short nk nval =>
    let matchlen := prefixLen key nk
    if matchlen < nk.length then .ok (false, n)
    else if matchlen = key.length then .ok (true, .nil)
    else do
      -- The key is longer than nk: remove the remaining suffix from the subtrie.
      let (dirty, child) ← t.delete fuel nval (pfx ++ key.take nk.length) (key.drop nk.length)
      if !dirty then return (false, n)
      match child with
      | .short ck cv => return (true, .short (nk ++ ck) cv)
      | _ => return (true, .short nk child)
  | .full cs =>
    match key[0]?.bind nibbleIndex with
    | none => .error (.panic "index out of range")
    | some i => do
      let (dirty, nn) ← t.delete fuel (cs i) (pfx ++ key.take 1) (key.drop 1)
      if !dirty then return (false, n)
      let cs := Function.update cs i nn
      let pos := remainingPos cs
      if 0 ≤ pos then
        -- pos is a slot below 17 here
        let p : Fin 17 := ⟨pos.toNat % 17, Nat.mod_lt _ (by decide)⟩
        if pos ≠ 16 then
          -- A remaining short node absorbs the nibble of its slot.
          let cnode ← t.resolve (cs p) pfx
          if let .short ck cv := cnode then
            return (true, .short (pos.toNat.toUInt8 :: ck) cv)
        return (true, .short [pos.toNat.toUInt8] (cs p))
      return (true, .full cs)
  | .value _ => .ok (true, .nil)
  | .nil => .ok (false, .nil)
  | .hash h =>
    match fuel with
    | 0 => .error .resolveLimit
    | fuel + 1 => do
      let rn ← t.resolveHash h pfx
      let (dirty, nn) ← t.delete fuel rn pfx key
      if !dirty then return (false, rn)
      return (true, nn)
termination_by (fuel, n.height)
decreasing_by
  · exact Prod.Lex.right _ (Node.height_val_lt nk nval)
  · exact Prod.Lex.right _ (Node.height_child_lt cs i)
  · exact Prod.Lex.left _ _ (Nat.lt_succ_self fuel)

/-- `TryGet`: on success the trie keeps the nodes the lookup resolved. -/
def TryGet (t : Trie) (fuel : Nat) (key : List UInt8) :
    Except TrieError (Option (List UInt8) × Trie) := do
  let (value, newroot, didResolve) ← t.tryGet fuel t.root (keybytesToHex key) 0
  return (value, if didResolve then { t with root := newroot } else t)

/-- `TryUpdate`: an empty value deletes the key. -/
def TryUpdate (t : Trie) (fuel : Nat) (key value : List UInt8) : Except TrieError Trie := do
  let k := keybytesToHex key
  if value.length ≠ 0 then
    let (_, n) ← t.insert fuel t.root [] k (.value value)
    return { t with root := n }
  else
    let (_, n) ← t.delete fuel t.root [] k
    return { t with root := n }

def TryDelete (t : Trie) (fuel : Nat) (key : List UInt8) : Except TrieError Trie := do
  let (_, n) ← t.delete fuel t.root [] (keybytesToHex key)
  return { t with root := n }

end Trie

end SimpleChain.Trie
