import Mathlib
import SimpleChain.Trie.Hasher
import SimpleChain.Rlp.Raw
import SimpleChain.Rlp.Typed

/-! # Decoding stored nodes (`trie/node.go`)

`decodeNode` reads a collapsed node back from its RLP encoding: a list of two values is a
short node, whose compact key says by its terminator whether the second value is a value or a
reference, and a list of seventeen is a full node, sixteen references and a value.  A
reference is an empty string (no child), a 32-byte string (a hash node) or a list of at most
32 bytes, an embedded node decoded in place.  Each function reads a strictly shorter slice
than its caller, which is the termination measure; `decodeRef` returns the slice after the
reference together with that fact.

What the hasher writes, `decodeNode` reads back: for a node of a canonical trie whose keys and
values are short enough to be encoded, decoding the encoding of its collapsed form gives that
form with the keys expanded again. -/
set_option autoImplicit false
set_option linter.dupNamespace false

namespace SimpleChain.Rlp.Raw

open GoLoop

theorem split_rest_lt {b content rest : List UInt8} {k : Kind} (ok : split b = .ok (k, content, rest)) :
    rest.length < b.length := by
  rcases kindRun : readKind b with err | ⟨k', ts, cs⟩ <;> simp only [split, kindRun] at ok
  · cases ok
  obtain ⟨rfl, rfl, rfl⟩ := ok
  have consumes := readKind_consumes kindRun
  simp only [List.length_drop]
  omega

theorem split_content_lt {b content rest : List UInt8} (ok : split b = .ok (.list, content, rest)) :
    content.length < b.length := by
  obtain ⟨hdr, more, bv, size, hd, rfl, -, rfl, -⟩ := split_ok ok
  cases hd with
  | @tagged k small large size tags fits =>
      have pos : 0 < (header small large size).length := by
        rw [length_header, headsize]
        split <;> omega
      simp only [reduceCtorEq, if_false, List.length_append, List.length_take]
      omega

theorem splitList_eq_ok {b content rest : List UInt8} :
    splitList b = .ok (content, rest) ↔ split b = .ok (.list, content, rest) := by
  rcases splitRun : split b with err | ⟨k, c, r⟩
  · simp [splitList, splitRun, bind, Except.bind]
  · by_cases list : k = .list
    · subst list
      simp [splitList, splitRun]
    · simp [splitList, splitRun, list]

theorem splitString_eq_ok {b content rest : List UInt8} :
    splitString b = .ok (content, rest) ↔ ∃ k, k ≠ .list ∧ split b = .ok (k, content, rest) := by
  rcases splitRun : split b with err | ⟨k, c, r⟩
  · simp [splitString, splitRun, bind, Except.bind]
  · by_cases list : k = .list
    · subst list
      simp [splitString, splitRun]
    · simp [splitString, splitRun, list]

theorem splitList_content_lt {b content rest : List UInt8} (ok : splitList b = .ok (content, rest)) :
    content.length < b.length :=
  split_content_lt (splitList_eq_ok.mp ok)

theorem splitString_rest_lt {b content rest : List UInt8} (ok : splitString b = .ok (content, rest)) :
    rest.length < b.length := by
  obtain ⟨k, -, splitRun⟩ := splitString_eq_ok.mp ok
  exact split_rest_lt splitRun

theorem countValues_encodeItems {items : List Item} (fits : (encodeItems items).length < 2 ^ 64) :
    countValues (encodeItems items) = .ok items.length := by
  simpa [countValues] using (splitsInto_encodeItems items fits).countFrom 0

theorem splitString_encode_str (bytes rest : List UInt8) (fits : bytes.length < 2 ^ 64) :
    splitString ((Item.str bytes).encode ++ rest) = .ok (bytes, rest) := by
  refine splitString_eq_ok.mpr ⟨_, ?_, split_encode (.str bytes) rest fits⟩
  show (if singleByte bytes then Kind.byte else Kind.string) ≠ .list
  split <;> simp

theorem splitString_encodeItems_str (bytes : List UInt8) (items : List Item) (fits : bytes.length < 2 ^ 64) :
    splitString (encodeItems (.str bytes :: items)) = .ok (bytes, encodeItems items) := by
  rw [encodeItems_cons]
  exact splitString_encode_str bytes _ fits

end SimpleChain.Rlp.Raw

namespace SimpleChain.Trie

open Rlp

/-- What went wrong, with what the source formats into the message. -/
inductive DecodeFailure where
  /-- `io.ErrUnexpectedEOF` -/
  | unexpectedEOF
  /-- "decode error: %v" -/
  | decode (err : RlpError)
  /-- "invalid number of list elements: %v" -/
  | elementCount (count : Nat)
  /-- an error of the rlp package passed on as it is -/
  | rlp (err : RlpError)
  /-- "invalid value node: %v" -/
  | invalidValue (err : RlpError)
  /-- "oversized embedded node (size is %d bytes, want size < 32)" -/
  | oversized (size : Nat)
  /-- "invalid RLP string size %d (want 0 or 32)" -/
  | stringSize (size : Nat)

/-- `decodeError`: a failure and the path to the child it was met in, innermost first.  A
failure no `wrapError` has seen has an empty path and prints as the failure alone. -/
structure DecodeError where
  what : DecodeFailure
  stack : List String

def DecodeError.plain (what : DecodeFailure) : DecodeError := ⟨what, []⟩

def wrapError (ctx : String) (err : DecodeError) : DecodeError :=
  { err with stack := err.stack ++ [ctx] }

mutual

/-- `decodeNode`; the hash it keeps in the node's flags is not modelled. -/
def decodeNode (buf : List UInt8) : Except DecodeError Node :=
  if buf.length = 0 then .error (.plain .unexpectedEOF)
  else
    match splits : Raw.splitList buf with
    | .error err => .error (.plain (.decode err))
    | .ok (elems, _) =>
      have : elems.length < buf.length := Raw.splitList_content_lt splits
      -- `CountValues` answers 0 with its error, and the error is dropped
      match (Raw.countValues elems).toOption.getD 0 with
      | 2 => (decodeShort elems).mapError (wrapError "short")
      | 17 => (decodeFull elems).mapError (wrapError "full")
      | c => .error (.plain (.elementCount c))
termination_by 4 * buf.length

def decodeShort (elems : List UInt8) : Except DecodeError Node :=
  match splits : Raw.splitString elems with
  | .error err => .error (.plain (.rlp err))
  | .ok (kbuf, rest) =>
    have : rest.length < elems.length := Raw.splitString_rest_lt splits
    let key := compactToHex kbuf
    if hasTerm key then
      match Raw.splitString rest with
      | .error err => .error (.plain (.invalidValue err))
      | .ok (val, _) => .ok (.short key (.value val))
    else
      match decodeRef rest with
      | .error err => .error (wrapError "val" err)
      | .ok (r, _) => .ok (.short key r)
termination_by 4 * elems.length + 2

/-- The loop of `decodeFull` from child `i` on. -/
def decodeChildren (elems : List UInt8) (i : Nat) : Except DecodeError (List Node × List UInt8) :=
  if i < 16 then
    match decodeRef elems with
    | .error err => .error (wrapError ("[" ++ toString i ++ "]") err)
    | .ok (cld, ⟨rest, shorter⟩) =>
      have : rest.length < elems.length := shorter
      match decodeChildren rest (i + 1) with
      | .error err => .error err
      | .ok (clds, last) => .ok (cld :: clds, last)
  else .ok ([], elems)
termination_by 4 * elems.length + 2

def decodeFull (elems : List UInt8) : Except DecodeError Node :=
  match decodeChildren elems 0 with
  | .error err => .error err
  | .ok (clds, rest) =>
    match Raw.splitString rest with
    | .error err => .error (.plain (.rlp err))
    | .ok (val, _) =>
      .ok (.full fun i => if i = 16 then (if 0 < val.length then .value val else .nil) else clds.getD i .nil)
termination_by 4 * elems.length + 3

def decodeRef (buf : List UInt8) :
    Except DecodeError (Node × {rest : List UInt8 // rest.length < buf.length}) :=
  match splits : Raw.split buf with
  | .error err => .error (.plain (.rlp err))
  | .ok (kind, val, rest) =>
    have shorter : rest.length < buf.length := Raw.split_rest_lt splits
    if kind = .list then
      -- an embedded node: its encoding must not be longer than a hash
      if 32 < buf.length - rest.length then .error (.plain (.oversized (buf.length - rest.length)))
      else
        match decodeNode buf with
        | .error err => .error err
        | .ok n => .ok (n, ⟨rest, shorter⟩)
    else if kind = .string ∧ val.length = 0 then .ok (.nil, ⟨rest, shorter⟩)
    else if kind = .string ∧ val.length = 32 then .ok (.hash val, ⟨rest, shorter⟩)
    else .error (.plain (.stringSize val.length))
termination_by 4 * buf.length + 1

end

/-! ## Reading back what the hasher writes -/

namespace Hasher

variable (keccak256 : List UInt8 → List UInt8)

/-- `hasher.hashChildren`: the node with its children hashed, as `hash` stores it. -/
def hashChildren : Node → Node
  | .short k c =>
    .short (hexToCompact k) (match c with
      | .value v => .value v
      | c => hash keccak256 c false)
  | .full cs => .full fun i => if i ≠ 16 ∧ !(cs i).isNil then hash keccak256 (cs i) false else cs i
  | n => n

theorem hash_eq_store (n : Node) (force : Bool) :
    hash keccak256 n force = store keccak256 (hashChildren keccak256 n) force := by
  cases n with
  | short k c => cases c <;> simp only [hash, hashChildren]
  | _ => simp only [hash, hashChildren]

end Hasher

/-- Every key and value in the node is shorter than 2^32 bytes, and every value is set. -/
def Node.Sized : Node → Prop
  | .short k c => k.length < 2 ^ 32 ∧ c.Sized
  | .full cs => ∀ i, (cs i).Sized
  | .value v => 0 < v.length ∧ v.length < 2 ^ 32
  | _ => True

section RoundTrip

open Hasher Node

variable {keccak256 : List UInt8 → List UInt8} (digest : ∀ b, (keccak256 b).length = 32)

theorem decodeNode_list {items : List Item} (rest : List UInt8) (fits : (encodeItems items).length < 2 ^ 64) :
    decodeNode ((Item.list items).encode ++ rest) =
      match items.length with
      | 2 => (decodeShort (encodeItems items)).mapError (wrapError "short")
      | 17 => (decodeFull (encodeItems items)).mapError (wrapError "full")
      | c => .error (.plain (.elementCount c)) := by
  have listRun : Raw.splitList ((Item.list items).encode ++ rest) = .ok (encodeItems items, rest) :=
    Raw.splitList_eq_ok.mpr (Raw.split_encode (.list items) rest fits)
  rw [decodeNode, if_neg (by simp [length_header, headsize]; split <;> omega)]
  split
  next err splitErr => rw [listRun] at splitErr; cases splitErr
  next elems rest' splitOk =>
    rw [listRun] at splitOk
    cases splitOk
    rw [Raw.countValues_encodeItems fits]
    rfl

/-- `decodeRef` reads `n` off the front of `buf` and leaves `rest`. -/
def RefDecodes (buf : List UInt8) (n : Node) (rest : List UInt8) : Prop :=
  ∃ shorter, decodeRef buf = .ok (n, ⟨rest, shorter⟩)

theorem decodeRef_hash {h : List UInt8} (len : h.length = 32) (rest : List UInt8) :
    RefDecodes ((Item.str h).encode ++ rest) (.hash h) rest := by
  have splitRun : Raw.split ((Item.str h).encode ++ rest) = .ok (.string, h, rest) := by
    have notSingle : singleByte h = false := by
      rcases h with _ | ⟨x, _ | ⟨y, t⟩⟩
      · rfl
      · simp at len
      · rfl
    simpa [Item.rawKind, notSingle, Item.payload] using Raw.split_encode (.str h) rest (by simp [Item.payload, len])
  refine ⟨Raw.split_rest_lt splitRun, ?_⟩
  rw [decodeRef]
  split
  next err splitErr => rw [splitRun] at splitErr; cases splitErr
  next kind val rest' splitOk =>
    rw [splitRun] at splitOk
    cases splitOk
    simp [len]

theorem decodeRef_empty (rest : List UInt8) : RefDecodes ((Item.str []).encode ++ rest) .nil rest := by
  have splitRun : Raw.split ((Item.str []).encode ++ rest) = .ok (.string, [], rest) := by
    simpa [Item.rawKind, singleByte, Item.payload] using Raw.split_encode (.str []) rest (by simp [Item.payload])
  refine ⟨Raw.split_rest_lt splitRun, ?_⟩
  rw [decodeRef]
  split
  next err splitErr => rw [splitRun] at splitErr; cases splitErr
  next kind val rest' splitOk =>
    rw [splitRun] at splitOk
    cases splitOk
    simp

theorem decodeRef_embedded {items : List Item} {n : Node} (rest : List UInt8)
    (small : (Item.list items).encode.length < 32)
    (decodes : decodeNode ((Item.list items).encode ++ rest) = .ok n) :
    RefDecodes ((Item.list items).encode ++ rest) n rest := by
  have fits : (encodeItems items).length < 2 ^ 64 := by
    have := Raw.payload_length_le (.list items)
    simp only [Item.payload] at this
    omega
  have splitRun := Raw.split_encode (.list items) rest fits
  simp only [Item.rawKind, Item.payload] at splitRun
  refine ⟨Raw.split_rest_lt splitRun, ?_⟩
  rw [decodeRef]
  split
  next err splitErr => rw [splitRun] at splitErr; cases splitErr
  next kind val rest' splitOk =>
    rw [splitRun] at splitOk
    cases splitOk
    have within : ¬ 32 < ((Item.list items).encode ++ rest).length - rest.length := by
      rw [List.length_append, Nat.add_sub_cancel]
      omega
    simp only [if_true, within, if_false, decodes]

theorem decodeShort_leaf {ns v : List UInt8} (nib : Nibbles ns) (keyFits : (hexToCompact (ns ++ [16])).length < 2 ^ 64)
    (valueFits : v.length < 2 ^ 64) :
    decodeShort (encodeItems [.str (hexToCompact (ns ++ [16])), .str v]) = .ok (.short (ns ++ [16]) (.value v)) := by
  have keyRun := Raw.splitString_encodeItems_str _ [.str v] keyFits
  have valueRun := Raw.splitString_encodeItems_str v [] valueFits
  have key : compactToHex (hexToCompact (ns ++ [16])) = ns ++ [16] := compactToHex_hexToCompact nib true
  have term : hasTerm (ns ++ [16]) = true := hasTerm_withTerm nib true
  rw [decodeShort]
  split
  next err splitErr => rw [keyRun] at splitErr; cases splitErr
  next kbuf rest splitOk =>
    rw [keyRun] at splitOk
    cases splitOk
    simp only [key, term, if_true, valueRun]

theorem decodeShort_extension {k : List UInt8} (nib : Nibbles k) {r : Item} {n : Node}
    (keyFits : (hexToCompact k).length < 2 ^ 64) (ref : RefDecodes (encodeItems [r]) n []) :
    decodeShort (encodeItems [.str (hexToCompact k), r]) = .ok (.short k n) := by
  have keyRun := Raw.splitString_encodeItems_str _ [r] keyFits
  have key : compactToHex (hexToCompact k) = k := compactToHex_hexToCompact nib false
  have term : hasTerm k = false := hasTerm_withTerm nib false
  obtain ⟨shorter, refRun⟩ := ref
  rw [decodeShort]
  split
  next err splitErr => rw [keyRun] at splitErr; cases splitErr
  next kbuf rest splitOk =>
    rw [keyRun] at splitOk
    cases splitOk
    simp only [key, term, Bool.false_eq_true, if_false, refRun]

/-- The loop over the sixteen references of a full node reads each in turn. -/
theorem decodeChildren_encodeItems {refs : List Item} {nodes : List Node} {i : Nat} (rest : List UInt8)
    (count : i + refs.length = 16)
    (each : List.Forall₂ (fun r n => ∀ rest, RefDecodes (r.encode ++ rest) n rest) refs nodes) :
    decodeChildren (encodeItems refs ++ rest) i = .ok (nodes, rest) := by
  induction each generalizing i with
  | nil =>
      rw [decodeChildren, if_neg (by simp at count; omega)]
      simp
  | @cons r n refs nodes first others restDecode =>
      obtain ⟨shorter, firstRun⟩ := first (encodeItems refs ++ rest)
      have laterRun := restDecode (i := i + 1) (by simp at count; omega)
      rw [encodeItems_cons, List.append_assoc, decodeChildren, if_pos (by simp at count; omega)]
      simp only [firstRun, laterRun]

theorem decodeFull_encodeItems {refs : List Item} {nodes : List Node} {v : List UInt8} (valueFits : v.length < 2 ^ 64)
    (count : refs.length = 16)
    (each : List.Forall₂ (fun r n => ∀ rest, RefDecodes (r.encode ++ rest) n rest) refs nodes) :
    decodeFull (encodeItems (refs ++ [.str v])) =
      .ok (.full fun i => if i = 16 then (if 0 < v.length then .value v else .nil) else nodes.getD i .nil) := by
  have childrenRun := decodeChildren_encodeItems (i := 0) (encodeItems [.str v]) (by omega) each
  have valueRun := Raw.splitString_encodeItems_str v [] valueFits
  rw [decodeFull, encodeItems_append, childrenRun]
  simp only [valueRun, encodeItems_nil]

theorem store_of_ne {n : Node} (notNil : n ≠ .nil) (notHash : ∀ h, n ≠ .hash h) :
    store keccak256 n false = if n.item.encode.length < 32 then n else .hash (keccak256 n.item.encode) := by
  unfold store
  split
  · exact absurd rfl notNil
  · exact absurd rfl (notHash _)
  · simp

theorem hashChildren_list {c : Node} (shape : c.Shape) :
    ∃ items, (hashChildren keccak256 c).item = .list items ∧
      hashChildren keccak256 c ≠ .nil ∧ ∀ h, hashChildren keccak256 c ≠ .hash h := by
  cases c with
  | short k c => exact ⟨_, rfl, by simp [hashChildren], fun _ => by simp [hashChildren]⟩
  | full cs => exact ⟨_, rfl, by simp [hashChildren], fun _ => by simp [hashChildren]⟩
  | _ => exact shape.elim

/-- A shaped node sits in its parent in place when its collapsed encoding is under 32 bytes,
and as the hash of that encoding otherwise. -/
theorem hash_cases {c : Node} (shape : c.Shape) :
    ∃ items, (hashChildren keccak256 c).item = .list items ∧
      ((Item.list items).encode.length < 32 ∧ hash keccak256 c false = hashChildren keccak256 c ∨
        32 ≤ (Item.list items).encode.length ∧ hash keccak256 c false = .hash (keccak256 (Item.list items).encode)) := by
  obtain ⟨items, isList, notNil, notHash⟩ := @hashChildren_list keccak256 _ shape
  refine ⟨items, isList, ?_⟩
  rw [hash_eq_store, store_of_ne notNil notHash, isList]
  by_cases small : (Item.list items).encode.length < 32
  · exact .inl ⟨small, if_pos small⟩
  · exact .inr ⟨by omega, if_neg small⟩

theorem isNil_hash {c : Node} (shape : c.Shape) : (hash keccak256 c false).isNil = false := by
  obtain ⟨-, -, notNil, -⟩ := @hashChildren_list keccak256 _ shape
  obtain ⟨items, -, ⟨-, inPlace⟩ | ⟨-, hashed⟩⟩ := @hash_cases keccak256 _ shape
  · rw [inPlace]
    cases hc : hashChildren keccak256 c <;> simp_all [isNil]
  · rw [hashed]
    rfl

theorem length_encodeItems_le {refs : List Item} {bound : Nat} (each : ∀ r ∈ refs, r.encode.length ≤ bound) :
    (encodeItems refs).length ≤ refs.length * bound := by
  induction refs with
  | nil => simp
  | cons r refs others =>
      have first := each r List.mem_cons_self
      have later := others fun r' member => each r' (List.mem_cons_of_mem r member)
      rw [encodeItems_cons, List.length_append, List.length_cons, Nat.succ_mul]
      omega

/-- A full node decodes to its slots when each of the sixteen nibble slots is a reference that
reads back as the slot and the value slot is empty or a short non-empty value. -/
theorem decodeNode_full_item {ds : Fin 17 → Node}
    (refs : ∀ j : Fin 16, ∀ rest, RefDecodes
      ((if (ds j.castSucc).isNil then Item.str [] else (ds j.castSucc).item).encode ++ rest)
      (expandNode (ds j.castSucc)) rest)
    (refLen : ∀ j : Fin 16, (if (ds j.castSucc).isNil then Item.str [] else (ds j.castSucc).item).encode.length ≤ 33)
    (last : ds 16 = .nil ∨ ∃ v, 0 < v.length ∧ v.length < 2 ^ 32 ∧ ds 16 = .value v) (rest : List UInt8) :
    decodeNode ((Node.full ds).item.encode ++ rest) = .ok (expandNode (.full ds)) := by
  obtain ⟨v, lastItem, lastNode, valueShort⟩ : ∃ v : List UInt8,
      (if (ds 16).isNil then Item.str [] else (ds 16).item) = .str v ∧
        (if 0 < v.length then Node.value v else .nil) = ds 16 ∧ v.length < 2 ^ 32 := by
    rcases last with empty | ⟨v, pos, short, eq⟩
    · exact ⟨[], by simp [empty, isNil], by simp [empty], by simp⟩
    · exact ⟨v, by simp [eq, isNil, Node.item], by simp [eq, pos], short⟩
  set refItems := (List.finRange 16).map fun j => if (ds j.castSucc).isNil then Item.str [] else (ds j.castSucc).item
  have items : (Node.full ds).item = .list (refItems ++ [.str v]) := by
    rw [Node.item, List.finRange_succ_last, List.map_append, List.map_map, List.map_singleton]
    exact congrArg (fun last => Item.list (refItems ++ [last])) lastItem
  have each : List.Forall₂ (fun r n => ∀ rest, RefDecodes (r.encode ++ rest) n rest) refItems
      ((List.finRange 16).map fun j => expandNode (ds j.castSucc)) := by
    rw [List.forall₂_map_left_iff, List.forall₂_map_right_iff, List.forall₂_same]
    exact fun j _ => refs j
  have count : refItems.length = 16 := by simp [refItems]
  have refsLen : (encodeItems refItems).length ≤ 16 * 33 := by
    have := @length_encodeItems_le refItems 33 (by simpa [refItems] using refLen)
    rwa [count] at this
  have valueEnc := length_encodeStr_le (b := v) (by omega)
  have fits : (encodeItems (refItems ++ [.str v])).length < 2 ^ 64 := by
    simp only [encodeItems_append, encodeItems_cons, encodeItems_nil, encode_str, List.length_append, List.length_nil]
    omega
  have seventeen : (refItems ++ [Item.str v]).length = 17 := by simp [count]
  rw [items, decodeNode_list rest fits, seventeen]
  simp only
  rw [decodeFull_encodeItems (by omega) count each]
  show Except.ok (Node.full _) = Except.ok (Node.full fun i => expandNode (ds i))
  congr 2
  funext i
  by_cases isLast : i = 16
  · subst isLast
    rw [if_pos rfl, ← lastNode]
    split <;> rfl
  · have lt : i.val < 16 := by omega
    simp [isLast, List.getD_eq_getElem?_getD, lt]

include digest in
/-- The reference a parent holds to a shaped child reads back as the child's collapsed form,
expanded, or as its hash. -/
theorem refDecodes_hash {c : Node} (shape : c.Shape)
    (decodes : ∀ rest, decodeNode ((hashChildren keccak256 c).item.encode ++ rest) =
      .ok (expandNode (hashChildren keccak256 c)))
    (rest : List UInt8) :
    RefDecodes ((hash keccak256 c false).item.encode ++ rest) (expandNode (hash keccak256 c false)) rest := by
  obtain ⟨items, isList, ⟨small, inPlace⟩ | ⟨-, hashed⟩⟩ := @hash_cases keccak256 _ shape
  · rw [inPlace, isList]
    exact decodeRef_embedded rest small (by rw [← isList]; exact decodes rest)
  · rw [hashed]
    exact decodeRef_hash (digest _) rest

include digest in
theorem length_hash_item_le {c : Node} (shape : c.Shape) : (hash keccak256 c false).item.encode.length ≤ 33 := by
  obtain ⟨items, isList, ⟨small, inPlace⟩ | ⟨-, hashed⟩⟩ := @hash_cases keccak256 _ shape
  · rw [inPlace, isList]
    omega
  · rw [hashed, Node.item, encode_str, encodeStr_of_length_ne_one (by rw [digest]; decide), List.length_append,
      length_header, digest]
    decide

/-- The hasher replaces a shaped child in a nibble slot by its reference. -/
theorem hashedSlot {cs : Fin 17 → Node} {i : Fin 17} (notLast : i ≠ 16) (shape : (cs i).Shape) :
    (if i ≠ 16 ∧ !(cs i).isNil then hash keccak256 (cs i) false else cs i) = hash keccak256 (cs i) false :=
  if_pos ⟨notLast, by simp [isNil_eq_false.mpr shape.ne_nil]⟩

include digest in
/-- `decodeNode` inverts the hasher: the encoding of a shaped node's collapsed form decodes to
that form with its keys expanded. -/
theorem decodeNode_hashChildren {n : Node} (shape : n.Shape) (sized : n.Sized) (rest : List UInt8) :
    decodeNode ((hashChildren keccak256 n).item.encode ++ rest) = .ok (expandNode (hashChildren keccak256 n)) := by
  induction n generalizing rest with
  | short k c ih =>
      obtain ⟨keyShort, cSized⟩ := sized
      rcases shape_short.mp shape with ⟨ns, v, nib, rfl, rfl⟩ | ⟨-, nib, isFull, cShape⟩
      · -- a leaf: the compact key carries the terminator and the value follows it
        obtain ⟨-, valueShort⟩ := cSized
        have keyLen : (hexToCompact (ns ++ [16])).length = ns.length / 2 + 1 := length_hexToCompact nib true
        rw [List.length_append, List.length_singleton] at keyShort
        have keyEnc := length_encodeStr_le (b := hexToCompact (ns ++ [16])) (by omega)
        have valueEnc := length_encodeStr_le (b := v) (by omega)
        have fits : (encodeItems [.str (hexToCompact (ns ++ [16])), .str v]).length < 2 ^ 64 := by
          simp only [encodeItems_cons, encodeItems_nil, encode_str, List.length_append, List.length_nil]
          omega
        have key : compactToHex (hexToCompact (ns ++ [16])) = ns ++ [16] := compactToHex_hexToCompact nib true
        simp only [hashChildren, Node.item, expandNode, key]
        rw [decodeNode_list rest fits, decodeShort_leaf nib (by omega) (by omega)]
        rfl
      · -- an extension: the compact key has no terminator and a reference to the full node follows
        obtain ⟨cs, rfl⟩ := IsFull.exists isFull
        have keyLen : (hexToCompact k).length = k.length / 2 + 1 := length_hexToCompact nib false
        have refLen := length_hash_item_le digest cShape
        have keyEnc := length_encodeStr_le (b := hexToCompact k) (by omega)
        have fits : (encodeItems [.str (hexToCompact k), (hash keccak256 (full cs) false).item]).length < 2 ^ 64 := by
          simp only [encodeItems_cons, encodeItems_nil, encode_str, List.length_append, List.length_nil]
          omega
        have ref : RefDecodes (encodeItems [(hash keccak256 (full cs) false).item])
            (expandNode (hash keccak256 (full cs) false)) [] := by
          rw [encodeItems_cons, encodeItems_nil]
          exact refDecodes_hash digest cShape (fun rest => ih cShape cSized rest) []
        have key : compactToHex (hexToCompact k) = k := compactToHex_hexToCompact nib false
        simp only [hashChildren, Node.item, expandNode, key]
        rw [decodeNode_list rest fits, decodeShort_extension nib (by omega) ref]
        rfl
  | full cs ih =>
      obtain ⟨slots, value, -⟩ := shape_full.mp shape
      -- the sixteen nibble slots hold references, the value slot its value as it is
      have slot : ∀ j : Fin 16, cs j.castSucc = .nil ∨ (cs j.castSucc).Shape := fun j =>
        slots j.castSucc (by simp [Fin.ext_iff]; omega)
      have notLast : ∀ j : Fin 16, j.castSucc ≠ (16 : Fin 17) := fun j => by simp [Fin.ext_iff]; omega
      refine decodeNode_full_item (fun j rest => ?_) (fun j => ?_) ?_ rest
      · rcases slot j with empty | cShape
        · simp only [empty, isNil, Bool.not_true, Bool.false_eq_true, and_false, if_false, if_true, expandNode]
          exact decodeRef_empty rest
        · simp only [hashedSlot (notLast j) cShape, isNil_hash cShape, Bool.false_eq_true, if_false]
          exact refDecodes_hash digest cShape (fun rest => ih _ cShape (sized _) rest) rest
      · rcases slot j with empty | cShape
        · simp only [empty, isNil, Bool.not_true, Bool.false_eq_true, and_false, if_false, if_true]
          decide
        · simp only [hashedSlot (notLast j) cShape, isNil_hash cShape, Bool.false_eq_true, if_false]
          exact length_hash_item_le digest cShape
      · rcases value with empty | ⟨v, isValue⟩
        · exact .inl (by simp [empty])
        · have valueSized : (Node.value v).Sized := isValue ▸ sized 16
          exact .inr ⟨v, valueSized.1, valueSized.2, by simp [isValue]⟩
  | _ => exact shape.elim

end RoundTrip

end SimpleChain.Trie
