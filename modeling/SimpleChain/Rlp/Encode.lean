import Mathlib
import SimpleChain.Rlp.Types
import SimpleChain.Lib.Loop

/-! # The encoder (`rlp/encode.go`)

`encbuf` collects string data in `str` and leaves the list headers out: `list`
records where a list starts, with the header bytes written so far parked in
`size`, and `listEnd` turns that into the payload size once the elements are
written.  `toBytes` interleaves the data with the headers at their offsets.
The writers of each type are the source's, dispatched as `makeWriter` does.

The main result, `encodeToBytes_eq_encode`, is that for every value of its type
the buffer renders the item encoding of `Rlp.Item`: the deferred headers end
up right, at every depth.  It rests on `Writes x e` (run from any buffer, `x`
appends what renders as `e`), which `list … listEnd` and sequencing preserve. -/
set_option autoImplicit false

namespace SimpleChain.Rlp

open BigEndian GoLoop

/-- `intsize`: the least number of bytes that hold `i`. -/
def intsize (i : Nat) : Nat :=
  if i >>> 8 = 0 then 1 else intsize (i >>> 8) + 1
termination_by i
decreasing_by
  rw [Nat.shiftRight_eq_div_pow]
  exact Nat.div_lt_self (Nat.pos_of_ne_zero fun zero => by simp_all) (by norm_num)

/-- `putint`: `i` big-endian on the least number of bytes, at least one, as the
source's eight cases store it. -/
def putint (i : Nat) : List UInt8 :=
  beBytes (if i < 1 <<< 8 then 1 else if i < 1 <<< 16 then 2 else if i < 1 <<< 24 then 3
    else if i < 1 <<< 32 then 4 else if i < 1 <<< 40 then 5 else if i < 1 <<< 48 then 6
    else if i < 1 <<< 56 then 7 else 8) i

/-- `puthead`: the header of a string or list payload of `size` bytes. -/
def puthead (smalltag largetag : UInt8) (size : Nat) : List UInt8 :=
  if size < 56 then [smalltag + UInt8.ofNat size]
  else (largetag + UInt8.ofNat (putint size).length) :: putint size

structure Listhead where
  /-- index of this header in string data -/
  offset : Nat
  /-- total size of encoded data (including list headers) -/
  size : Nat

def Listhead.encode (head : Listhead) : List UInt8 := puthead 0xC0 0xF7 head.size

/-- `encbuf`; the `*listhead` pointers are indices into `lheads`. -/
structure Encbuf where
  str : List UInt8
  lheads : List Listhead
  lhsize : Nat

def Encbuf.size (w : Encbuf) : Nat := w.str.length + w.lhsize

/-- The loop of `toBytes`: the string data up to each header, then the header. -/
def toBytesAux (str : List UInt8) (strpos : Nat) : List Listhead → List UInt8
  | [] => str.drop strpos
  | head :: heads =>
      let chunk := (str.drop strpos).take (head.offset - strpos)
      chunk ++ head.encode ++ toBytesAux str (strpos + chunk.length) heads

def Encbuf.toBytes (w : Encbuf) : List UInt8 := toBytesAux w.str 0 w.lheads

/-- A writer fails only on a value it cannot encode; the buffer is then dropped. -/
abbrev EncM := StateT Encbuf (Except RlpError)

def appendStr (bytes : List UInt8) : EncM Unit :=
  modify fun w => { w with str := w.str ++ bytes }

def encodeStringHeader (size : Nat) : EncM Unit :=
  if size < 56 then appendStr [0x80 + UInt8.ofNat size]
  else appendStr ((0xB7 + UInt8.ofNat (putint size).length) :: putint size)

def encodeString (b : List UInt8) : EncM Unit :=
  -- fits single byte, no string header
  if singleByte b then appendStr b
  else do
    encodeStringHeader b.length
    appendStr b

def list : EncM Nat := do
  let w ← get
  set { w with lheads := w.lheads ++ [{ offset := w.str.length, size := w.lhsize : Listhead }] }
  pure w.lheads.length

def listEnd (lh : Nat) : EncM Unit :=
  modify fun w =>
    let head := w.lheads.getD lh { offset := 0, size := 0 }
    let size := w.size - head.offset - head.size
    { w with
      lheads := w.lheads.set lh { head with size := size }
      lhsize := w.lhsize + (if size < 56 then 1 else 1 + intsize size) }

def writeUint (i : Nat) : EncM Unit :=
  if i = 0 then appendStr [0x80]
  -- fits single byte
  else if i < 128 then appendStr [UInt8.ofNat i]
  else appendStr ((0x80 + UInt8.ofNat (putint i).length) :: putint i)

def writeBool (b : Bool) : EncM Unit :=
  appendStr [if b then 0x01 else 0x80]

/-- `writeBigInt`; `i.Bytes()` is the shortest big-endian string. -/
def writeBigInt (i : Int) : EncM Unit :=
  if i < 0 then throw .negativeBigInt
  else if i = 0 then appendStr [0x80]
  else encodeString (minBE i.toNat)

def writeBytes (b : List UInt8) : EncM Unit := encodeString b

def writeByteArray (b : List UInt8) : EncM Unit := encodeString b

/-- `writeString` repeats the steps of `encodeString` on the string's bytes. -/
def writeString (s : List UInt8) : EncM Unit := encodeString s

/-- The writer `makeSliceWriter` builds from the element writer. -/
def makeSliceWriter (elemWriter : Value → EncM Unit) : Value → EncM Unit
  | .list vs => do
      let lh ← list
      vs.forM elemWriter
      listEnd lh
  | _ => throw .notSerializable

mutual
/-- `writeInterface`, on the values an `interface{}` holds here. -/
def writeInterface : Value → EncM Unit
  -- Write empty list. This is consistent with the previous RLP encoder.
  | .nil => appendStr [0xC0]
  | .bytes b => writeBytes b
  | .list vs => do
      let lh ← list
      writeInterfaces vs
      listEnd lh
  | _ => throw .notSerializable

def writeInterfaces : List Value → EncM Unit
  | [] => pure ()
  | v :: vs => do
      writeInterface v
      writeInterfaces vs
end

mutual
/-- `makeWriter`: the writer of each type, applied to a value. -/
def writer : RType → Value → EncM Unit
  -- writeBigIntPtr
  | .bigInt, .nil => appendStr [0x80]
  | .bigInt, .bigInt i => writeBigInt i
  -- makePtrWriter: a nil pointer is the empty value of its element's kind
  | .ptr elem, .nil =>
      if elem.nilKind = .string then appendStr [0x80]
      else do
        let lh ← list
        listEnd lh
  | .ptr elem, .ptr v => writer elem v
  | .uint _, .uint i => writeUint i
  | .bool, .bool b => writeBool b
  | .string, .bytes s => writeString s
  | .slice elem, v =>
      if elem.isByte then
        match v with
        | .bytes b => writeBytes b
        | _ => throw .notSerializable
      else makeSliceWriter (writer elem) v
  | .array _ elem, v =>
      if elem.isByte then
        match v with
        | .bytes b => writeByteArray b
        | _ => throw .notSerializable
      else makeSliceWriter (writer elem) v
  -- makeStructWriter
  | .struct fields, .list vs => do
      let lh ← list
      writeFields fields vs
      listEnd lh
  | .iface, v => writeInterface v
  | _, _ => throw .notSerializable

def writeFields : List RType → List Value → EncM Unit
  | [], [] => pure ()
  | field :: fields, v :: vs => do
      writer field v
      writeFields fields vs
  | _, _ => throw .notSerializable
end

def encodeToBytes (t : RType) (v : Value) : Except RlpError (List UInt8) := do
  let ((), w) ← (writer t v).run { str := [], lheads := [], lhsize := 0 }
  pure w.toBytes

/-! ## The byte-level helpers -/

theorem putint_eq_minBE {i : Nat} (pos : 0 < i) (fits : i < 2 ^ 64) : putint i = minBE i := by
  unfold putint
  simp only [Nat.one_shiftLeft]
  split_ifs <;> apply beBytes_eq_minBE <;> norm_num <;> omega

theorem intsize_eq_length_minBE : ∀ i : Nat, 0 < i → intsize i = (minBE i).length := by
  intro i
  induction i using Nat.strong_induction_on with
  | _ i lower =>
      intro pos
      have digits : (minBE i).length = (minBE (i / 256)).length + 1 := by
        simp [minBE, Nat.digits_def' (by norm_num : 1 < 256) pos]
      rw [intsize, Nat.shiftRight_eq_div_pow, digits]
      by_cases small : i / 2 ^ 8 = 0
      · rw [if_pos small]
        have zero : i / 256 = 0 := by simpa using small
        simp [zero, minBE]
      · rw [if_neg small, lower (i / 2 ^ 8) (Nat.div_lt_self pos (by norm_num)) (Nat.pos_of_ne_zero small)]
        norm_num

theorem puthead_eq_header (smalltag largetag : UInt8) {size : Nat} (fits : size < 2 ^ 64) :
    puthead smalltag largetag size = header smalltag largetag size := by
  unfold puthead header
  split
  · rfl
  · rw [putint_eq_minBE (by omega) fits]

/-- The header bytes `listEnd` books are those `puthead` writes. -/
theorem listEnd_headsize {size : Nat} (fits : size < 2 ^ 64) :
    (if size < 56 then 1 else 1 + intsize size) = (header 0xC0 0xF7 size).length := by
  rw [length_header, headsize]
  split
  · rfl
  · rw [intsize_eq_length_minBE size (by omega)]

theorem minBE_of_lt_256 {i : Nat} (pos : 0 < i) (below : i < 256) : minBE i = [UInt8.ofNat i] := by
  have single : Nat.digits 256 i = [i] := Nat.digits_of_lt 256 i (by omega) below
  simp [minBE, single]

/-! ## Rendering the buffer -/

/-- Header offsets from `p` on, in order: the shape `list` leaves them in. -/
def Above : Nat → List Listhead → Prop
  | _, [] => True
  | p, head :: heads => p ≤ head.offset ∧ Above head.offset heads

theorem above_append {p q : Nat} : ∀ {front back : List Listhead}, Above p front →
    (∀ head ∈ front, head.offset ≤ q) → p ≤ q → Above q back → Above p (front ++ back)
  | [], _, _, _, before, later => by
      cases ‹List Listhead› with
      | nil => trivial
      | cons head heads => exact ⟨Nat.le_trans before later.1, later.2⟩
  | head :: heads, _, ⟨first, rest⟩, within, _, later =>
      ⟨first, above_append rest (fun h member => within h (List.mem_cons_of_mem _ member))
        (within head List.mem_cons_self) later⟩

theorem toBytesAux_cons {str : List UInt8} {p : Nat} {head : Listhead} {heads : List Listhead}
    (after : p ≤ head.offset) (inside : head.offset ≤ str.length) :
    toBytesAux str p (head :: heads) =
      (str.drop p).take (head.offset - p) ++ head.encode ++ toBytesAux str head.offset heads := by
  have chunkLength : ((str.drop p).take (head.offset - p)).length = head.offset - p := by
    simp only [List.length_take, List.length_drop]
    omega
  rw [toBytesAux, chunkLength, Nat.add_sub_cancel' after]

/-- Rendering splits at a position `q` between two runs of headers: the first run
renders the data up to `q`, the second from `q` on. -/
theorem toBytesAux_append (str : List UInt8) {q : Nat} (bound : q ≤ str.length) :
    ∀ (front back : List Listhead) (p : Nat), p ≤ q → Above p front →
      (∀ head ∈ front, head.offset ≤ q) → Above q back →
      (∀ head ∈ back, head.offset ≤ str.length) →
      toBytesAux str p (front ++ back) = toBytesAux (str.take q) p front ++ toBytesAux str q back := by
  intro front
  induction front with
  | nil =>
      intro back p before _ _ later backInside
      have prefixSplit : (str.take q).drop p = (str.drop p).take (q - p) := by
        rw [List.drop_take]
      cases back with
      | nil =>
          have rest : (str.drop p).drop (q - p) = str.drop q := by
            rw [List.drop_drop, Nat.add_sub_cancel' before]
          simp only [List.nil_append, toBytesAux, prefixSplit]
          rw [← rest, List.take_append_drop]
      | cons head heads =>
          have headInside := backInside head List.mem_cons_self
          rw [List.nil_append, toBytesAux_cons (Nat.le_trans before later.1) headInside,
            toBytesAux_cons later.1 headInside, toBytesAux, prefixSplit]
          have chunks : head.offset - p = (q - p) + (head.offset - q) := by
            have := later.1
            omega
          rw [chunks, List.take_add, List.drop_drop, Nat.add_sub_cancel' before]
          simp
  | cons head heads restSplit =>
      intro back p before above within later backInside
      have headWithin := within head List.mem_cons_self
      have takeLength : (str.take q).length = q := List.length_take_of_le bound
      rw [List.cons_append, toBytesAux_cons above.1 (Nat.le_trans headWithin bound),
        toBytesAux_cons above.1 (by rw [takeLength]; exact headWithin),
        restSplit back head.offset headWithin above.2
          (fun h member => within h (List.mem_cons_of_mem _ member)) later backInside]
      have chunk : ((str.take q).drop p).take (head.offset - p) = (str.drop p).take (head.offset - p) := by
        rw [List.drop_take, List.take_take]
        congr 1
        omega
      simp [chunk]

/-! ## Writers as appends -/

/-- Run from any buffer, `x` appends string data `s` and headers `hs`, all at or
after the old end of the data, which together render as `e`; the size grows by
the length of `e`. -/
def Writes (x : EncM Unit) (e : List UInt8) : Prop :=
  ∀ w : Encbuf, ∃ (s : List UInt8) (hs : List Listhead) (k : Nat),
    x.run w = .ok ((), { str := w.str ++ s, lheads := w.lheads ++ hs, lhsize := w.lhsize + k }) ∧
    Above w.str.length hs ∧ (∀ head ∈ hs, head.offset ≤ w.str.length + s.length) ∧
    toBytesAux (w.str ++ s) w.str.length hs = e ∧ s.length + k = e.length

theorem writes_pure : Writes (pure ()) [] := by
  intro w
  refine ⟨[], [], 0, ?_, trivial, by simp, by simp [toBytesAux], rfl⟩
  simp only [List.append_nil, Nat.add_zero]
  rfl

theorem writes_appendStr (bytes : List UInt8) : Writes (appendStr bytes) bytes := by
  intro w
  exact ⟨bytes, [], 0, by simp [appendStr, StateT.run_modify, pure, Except.pure], trivial, by simp,
    by simp [toBytesAux], by simp⟩

theorem writes_seq {x y : EncM Unit} {first second : List UInt8} (writesFirst : Writes x first)
    (writesSecond : Writes y second) : Writes (do x; y) (first ++ second) := by
  intro w
  obtain ⟨s₁, hs₁, k₁, run₁, above₁, inside₁, render₁, size₁⟩ := writesFirst w
  obtain ⟨s₂, hs₂, k₂, run₂, above₂, inside₂, render₂, size₂⟩ :=
    writesSecond { str := w.str ++ s₁, lheads := w.lheads ++ hs₁, lhsize := w.lhsize + k₁ }
  simp only [List.length_append] at above₂ inside₂ render₂
  have middle : w.str.length ≤ w.str.length + s₁.length := Nat.le_add_right _ _
  refine ⟨s₁ ++ s₂, hs₁ ++ hs₂, k₁ + k₂, ?_, above_append above₁ inside₁ middle above₂, ?_, ?_, ?_⟩
  · dsimp only at run₂
    rw [StateT.run_bind, run₁]
    simp only [bind, Except.bind]
    rw [run₂]
    simp only [List.append_assoc, Nat.add_assoc]
  · intro head member
    simp only [List.length_append]
    rcases List.mem_append.mp member with early | late
    · have := inside₁ head early
      omega
    · have := inside₂ head late
      omega
  · have backInside : ∀ head ∈ hs₂, head.offset ≤ (w.str ++ s₁ ++ s₂).length := by
      intro head member
      have := inside₂ head member
      simp only [List.length_append]
      omega
    rw [← List.append_assoc, toBytesAux_append _ (by simp) hs₁ hs₂ _ middle above₁ inside₁ above₂
      backInside, List.take_left' (by simp), render₁, render₂]
  · simp only [List.length_append]
    omega

theorem writes_forM {f : Value → EncM Unit} {item : Value → Item} :
    ∀ vs : List Value, (∀ v ∈ vs, Writes (f v) (item v).encode) →
      Writes (vs.forM f) (encodeItems (vs.map item))
  | [], _ => by simpa using writes_pure
  | v :: vs, each => by
      rw [List.forM_eq_forM, List.forM_cons, List.map_cons, encodeItems_cons]
      exact writes_seq (each v List.mem_cons_self)
        (writes_forM vs fun v' member => each v' (List.mem_cons_of_mem _ member))

/-- A list writer: `list`, the elements, then `listEnd` writes the header of the
elements' payload in front of it. -/
theorem writes_list {body : EncM Unit} {payload : List UInt8} (inner : Writes body payload)
    (fits : payload.length < 2 ^ 64) :
    Writes (do let lh ← list; body; listEnd lh) (header 0xC0 0xF7 payload.length ++ payload) := by
  intro w
  let opened : Encbuf :=
    { w with lheads := w.lheads ++ [{ offset := w.str.length, size := w.lhsize : Listhead }] }
  obtain ⟨s, hs, k, run, above, inside, render, size⟩ := inner opened
  have parked : (w.lheads ++ [{ offset := w.str.length, size := w.lhsize : Listhead }] ++ hs).getD
      w.lheads.length { offset := 0, size := 0 } = { offset := w.str.length, size := w.lhsize } := by
    simp [List.getD_eq_getElem?_getD]
  have payloadSize : (w.str ++ s).length + (w.lhsize + k) - w.str.length - w.lhsize = payload.length := by
    simp only [List.length_append]
    omega
  have closed : (w.lheads ++ [{ offset := w.str.length, size := w.lhsize : Listhead }] ++ hs).set
      w.lheads.length { offset := w.str.length, size := payload.length } =
      w.lheads ++ ({ offset := w.str.length, size := payload.length } :: hs) := by
    simp [List.set_append_right]
  refine ⟨s, { offset := w.str.length, size := payload.length } :: hs,
    k + (header 0xC0 0xF7 payload.length).length, ?_, ⟨le_refl _, above⟩, ?_, ?_, ?_⟩
  · have listRun : list.run w = .ok (w.lheads.length, opened) := rfl
    rw [StateT.run_bind, listRun, ok_bind]
    dsimp only
    rw [StateT.run_bind, run, ok_bind]
    simp only [opened, listEnd, StateT.run_modify, Encbuf.size, parked, payloadSize, closed,
      listEnd_headsize fits, Nat.add_assoc, pure, Except.pure]
  · intro head member
    rcases List.mem_cons.mp member with rfl | later
    · exact Nat.le_add_right _ _
    · exact inside head later
  · rw [@toBytesAux_cons (w.str ++ s) w.str.length ⟨w.str.length, payload.length⟩ hs (le_refl _)
      (by simp)]
    simp only [Nat.sub_self, List.take_zero, List.nil_append, Listhead.encode, puthead_eq_header _ _ fits]
    rw [List.append_right_inj]
    exact render
  · simp only [List.length_append]
    omega

theorem writes_emptyList : Writes (do let lh ← list; listEnd lh) [0xC0] := by
  have empty := writes_list writes_pure (by norm_num)
  simp only [pure_bind] at empty
  simpa [header] using empty

theorem writes_encodeString (b : List UInt8) (fits : b.length < 2 ^ 64) :
    Writes (encodeString b) (encodeStr b) := by
  unfold encodeString encodeStr
  split
  · exact writes_appendStr b
  · have headerWrites : Writes (encodeStringHeader b.length) (header 0x80 0xB7 b.length) := by
      unfold encodeStringHeader header
      split
      · exact writes_appendStr _
      · rw [putint_eq_minBE (by omega) fits]
        exact writes_appendStr _
    exact writes_seq headerWrites (writes_appendStr b)

theorem singleByte_minBE (n : Nat) : singleByte (minBE n) = decide (0 < n ∧ n < 128) := by
  by_cases zero : n = 0
  · simp [zero, minBE, singleByte]
  by_cases oneByte : n < 256
  · rw [minBE_of_lt_256 (Nat.pos_of_ne_zero zero) oneByte, singleByte]
    have below : (UInt8.ofNat n ≤ 0x7F) ↔ n < 128 := by
      rw [UInt8.le_iff_toNat_le, UInt8.toNat_ofNat', Nat.mod_eq_of_lt (by omega)]
      simp only [UInt8.toNat_ofNat]
      omega
    simp [below, Nat.pos_of_ne_zero zero]
  · have long : 1 < (minBE n).length := by
      have := (length_minBE_le_iff n 1).not.mpr (by omega)
      omega
    obtain ⟨a, b, rest, split⟩ : ∃ a b rest, minBE n = a :: b :: rest := by
      rcases minBE_shape : minBE n with _ | ⟨a, _ | ⟨b, rest⟩⟩
      all_goals rw [minBE_shape] at long
      · simp at long
      · simp at long
      · exact ⟨a, b, rest, rfl⟩
    rw [split]
    simp [singleByte]
    omega

theorem writes_writeUint {n : Nat} (fits : n < 2 ^ 64) : Writes (writeUint n) (encodeStr (minBE n)) := by
  unfold writeUint encodeStr
  rw [singleByte_minBE]
  by_cases zero : n = 0
  · subst zero
    simpa [minBE, header] using writes_appendStr [0x80]
  by_cases small : n < 128
  · rw [if_neg zero, if_pos small, if_pos (by simp [Nat.pos_of_ne_zero zero, small]),
      minBE_of_lt_256 (Nat.pos_of_ne_zero zero) (by omega)]
    exact writes_appendStr _
  · have shortSize : (minBE n).length < 56 := by
      have := (length_minBE_le_iff n 8).mpr fits
      omega
    rw [if_neg zero, if_neg small, if_neg (by simp [small]), header, if_pos shortSize,
      putint_eq_minBE (Nat.pos_of_ne_zero zero) fits]
    exact writes_appendStr _

theorem writes_writeBool (b : Bool) : Writes (writeBool b) (encodeStr (if b then [1] else [])) := by
  cases b <;> simpa [writeBool, encodeStr, singleByte, header] using writes_appendStr _

theorem writes_writeBigInt {i : Int} (nonneg : 0 ≤ i) (fits : (minBE i.toNat).length < 2 ^ 64) :
    Writes (writeBigInt i) (encodeStr (minBE i.toNat)) := by
  unfold writeBigInt
  rw [if_neg (by omega)]
  by_cases zero : i = 0
  · subst zero
    simpa [minBE, encodeStr, singleByte, header] using writes_appendStr [0x80]
  · rw [if_neg zero]
    exact writes_encodeString _ fits

/-! ## The writers write the items of their values -/

mutual
/-- The item a value of an `interface{}` is written as. -/
def Value.treeItem : Value → Item
  | .nil => .list []
  | .bytes b => .str b
  | .list vs => .list (Value.treeItems vs)
  | _ => .str []

def Value.treeItems : List Value → List Item
  | [] => []
  | v :: vs => v.treeItem :: Value.treeItems vs
end

mutual
/-- The item a value of a type is written as. -/
def RType.item : RType → Value → Item
  | .uint _, .uint n => .str (minBE n)
  | .bool, .bool b => .str (if b then [1] else [])
  | .string, .bytes s => .str s
  | .bigInt, .bigInt i => .str (minBE i.toNat)
  | .bigInt, .nil => .str []
  | .slice _, .bytes b => .str b
  | .array _ _, .bytes b => .str b
  | .slice elem, .list vs => .list (vs.map elem.item)
  | .array _ elem, .list vs => .list (vs.map elem.item)
  | .struct fields, .list vs => .list (RType.itemFields fields vs)
  | .ptr elem, .nil => if elem.nilKind = .string then .str [] else .list []
  | .ptr elem, .ptr v => elem.item v
  | .iface, v => v.treeItem
  | _, _ => .str []

def RType.itemFields : List RType → List Value → List Item
  | field :: fields, v :: vs => field.item v :: RType.itemFields fields vs
  | _, _ => []
end

theorem treeItems_eq_map (vs : List Value) : Value.treeItems vs = vs.map Value.treeItem := by
  induction vs with
  | nil => rfl
  | cons v rest restMap => rw [Value.treeItems, restMap, List.map_cons]

theorem writeInterface_writes (v : Value) :
    v.isTree → v.treeItem.Fits → Writes (writeInterface v) v.treeItem.encode := by
  induction v using Value.induction with
  | nil =>
      intro _ _
      simpa [writeInterface, Value.treeItem, header] using writes_appendStr [0xC0]
  | bytes b =>
      intro _ fits
      rw [Value.treeItem, encode_str]
      exact writes_encodeString b fits
  | list elems elemWrites =>
      intro tree fits
      rw [Value.treeItem, treeItems_eq_map] at fits ⊢
      obtain ⟨payloadFits, each⟩ := fits
      have loop : ∀ rest : List Value, (∀ v ∈ rest, v ∈ elems) →
          Writes (writeInterfaces rest) (encodeItems (rest.map Value.treeItem)) := by
        intro rest
        induction rest with
        | nil => simpa [writeInterfaces] using writes_pure
        | cons v more moreWrites =>
            intro within
            have member := within v List.mem_cons_self
            have vFits := fitsAll_iff.mp each _ (List.mem_map_of_mem member)
            rw [writeInterfaces, List.map_cons, encodeItems_cons]
            exact writes_seq (elemWrites v member (isTree_list.mp tree v member) vFits)
              (moreWrites fun x later => within x (List.mem_cons_of_mem _ later))
      rw [encode_list]
      exact writes_list (loop elems fun _ member => member) payloadFits
  | uint n => intro tree; simp [Value.isTree] at tree
  | bool b => intro tree; simp [Value.isTree] at tree
  | bigInt i => intro tree; simp [Value.isTree] at tree
  | ptr v _ => intro tree; simp [Value.isTree] at tree

/-- The elements of a slice or array writer, given that each element writes its item. -/
theorem writes_elements {elem : RType} (vs : List Value)
    (elemWrites : ∀ v ∈ vs, (elem.item v).encode.length < 2 ^ 64 → Writes (writer elem v) (elem.item v).encode)
    (fits : (Item.list (vs.map elem.item)).encode.length < 2 ^ 64) :
    Writes (makeSliceWriter (writer elem) (.list vs)) (Item.list (vs.map elem.item)).encode := by
  rw [encode_list] at fits ⊢
  have payloadFits : (encodeItems (vs.map elem.item)).length < 2 ^ 64 := by
    simp only [List.length_append] at fits
    omega
  exact writes_list (writes_forM vs fun v member => elemWrites v member
    (Nat.lt_of_le_of_lt (length_encode_le_of_mem (List.mem_map_of_mem member)) payloadFits)) payloadFits

theorem writeFields_writes : ∀ (fields : List RType),
    (∀ field ∈ fields, ∀ v, field.holds v → (field.item v).encode.length < 2 ^ 64 →
      Writes (writer field v) (field.item v).encode) →
    ∀ vs, RType.holdsFields fields vs → (encodeItems (RType.itemFields fields vs)).length < 2 ^ 64 →
      Writes (writeFields fields vs) (encodeItems (RType.itemFields fields vs))
  | [], _, [], _, _ => by simpa [writeFields, RType.itemFields] using writes_pure
  | [], _, _ :: _, ok, _ => by simp [RType.holdsFields] at ok
  | field :: fields, fieldWrites, vs, ok, fits => by
      obtain ⟨v, rest, rfl, fieldOk, restOk⟩ := holdsFields_cons.mp ok
      rw [RType.itemFields, encodeItems_cons, List.length_append] at fits
      rw [writeFields, RType.itemFields, encodeItems_cons]
      exact writes_seq (fieldWrites field List.mem_cons_self v fieldOk (by omega))
        (writeFields_writes fields (fun f member => fieldWrites f (List.mem_cons_of_mem _ member))
          rest restOk (by omega))

theorem writer_writes (t : RType) :
    ∀ v, t.holds v → (t.item v).encode.length < 2 ^ 64 → Writes (writer t v) (t.item v).encode := by
  induction t using RType.induction with
  | uint size =>
      intro v ok fits
      obtain ⟨n, rfl, below⟩ := holds_uint.mp ok
      have widest : 2 ^ size.bits ≤ 2 ^ 64 :=
        Nat.pow_le_pow_right (by norm_num) (by cases size <;> simp [UintSize.bits])
      rw [writer, RType.item, encode_str]
      exact writes_writeUint (Nat.lt_of_lt_of_le below widest)
  | bool =>
      intro v ok _
      obtain ⟨b, rfl⟩ := holds_bool.mp ok
      rw [writer, RType.item, encode_str]
      exact writes_writeBool b
  | string =>
      intro v ok fits
      obtain ⟨s, rfl⟩ := holds_string.mp ok
      rw [RType.item, encode_str] at fits ⊢
      exact writes_encodeString s (Nat.lt_of_le_of_lt (length_le_encodeStr s) fits)
  | bigInt =>
      intro v ok fits
      rcases holds_bigInt.mp ok with rfl | ⟨i, rfl, nonneg⟩
      · simpa [writer, RType.item, encodeStr, singleByte, header] using writes_appendStr [0x80]
      · rw [RType.item, encode_str] at fits ⊢
        exact writes_writeBigInt nonneg
          (Nat.lt_of_le_of_lt (length_le_encodeStr _) fits)
  | slice elem elemWrites =>
      intro v ok fits
      rcases holds_slice.mp ok with ⟨isByte, b, rfl⟩ | ⟨notByte, vs, rfl, each⟩
      · rw [RType.item, encode_str] at fits ⊢
        rw [writer, if_pos isByte]
        exact writes_encodeString b (Nat.lt_of_le_of_lt (length_le_encodeStr b) fits)
      · simp only [RType.item] at fits ⊢
        simp only [writer, notByte, Bool.false_eq_true, if_false]
        exact writes_elements vs (fun v member => elemWrites v (each v member)) fits
  | array len elem elemWrites =>
      intro v ok fits
      rcases holds_array.mp ok with ⟨isByte, b, rfl, _⟩ | ⟨notByte, vs, rfl, _, each⟩
      · rw [RType.item, encode_str] at fits ⊢
        rw [writer, if_pos isByte]
        exact writes_encodeString b (Nat.lt_of_le_of_lt (length_le_encodeStr b) fits)
      · simp only [RType.item] at fits ⊢
        simp only [writer, notByte, Bool.false_eq_true, if_false]
        exact writes_elements vs (fun v member => elemWrites v (each v member)) fits
  | struct fields fieldWrites =>
      intro v ok fits
      obtain ⟨vs, rfl, fieldsOk⟩ := holds_struct.mp ok
      rw [RType.item, encode_list] at fits ⊢
      rw [writer]
      exact writes_list (writeFields_writes fields fieldWrites vs fieldsOk
        (by simp only [List.length_append] at fits; omega)) (by simp only [List.length_append] at fits; omega)
  | ptr elem elemWrites =>
      intro v ok fits
      rcases holds_ptr.mp ok with rfl | ⟨x, rfl, elemOk⟩
      · rw [writer, RType.item]
        split
        · simpa [encodeStr, singleByte, header] using writes_appendStr [0x80]
        · simpa [header] using writes_emptyList
      · rw [writer, RType.item] at *
        exact elemWrites x elemOk fits
  | iface =>
      intro v ok fits
      rw [writer, RType.item] at *
      exact writeInterface_writes v (holds_iface.mp ok) (Item.fits_of_length _ fits)

/-- A writer that writes `e` from the empty buffer leaves `e` as the output. -/
theorem encodeToBytes_of_writes {t : RType} {v : Value} {e : List UInt8} (writes : Writes (writer t v) e) :
    encodeToBytes t v = .ok e := by
  obtain ⟨s, hs, k, run, -, -, render, -⟩ := writes { str := [], lheads := [], lhsize := 0 }
  simp only [List.nil_append, Nat.zero_add, List.length_nil] at run render
  simp only [encodeToBytes, run, ok_bind, Encbuf.toBytes, render]
  rfl

/-- The buffer renders the item encoding of every value of its type: the
deferred list headers come out right at every depth. -/
theorem encodeToBytes_eq_encode (t : RType) (v : Value) (ok : t.holds v)
    (fits : (t.item v).encode.length < 2 ^ 64) : encodeToBytes t v = .ok (t.item v).encode :=
  encodeToBytes_of_writes (writer_writes t v ok fits)

/-- An `interface{}` tree is written as its item whenever every payload fits. -/
theorem encodeToBytes_iface {v : Value} (tree : v.isTree) (fits : v.treeItem.Fits) :
    encodeToBytes .iface v = .ok v.treeItem.encode := by
  refine encodeToBytes_of_writes ?_
  rw [writer]
  exact writeInterface_writes v tree fits

end SimpleChain.Rlp
