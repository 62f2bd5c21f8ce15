import Mathlib
import SimpleChain.Rlp.Canonical

/-! # Typed values read back (`decodeByteSlice`, `decodeByteArray`, `decodeListSlice`, structs)

The decoders of byte slices, of byte arrays of other than one byte, of slices and
structs built from them, and of pointers to those, invert the writers.  Run on the
encoding of a value of their type they return that value and read exactly its
encoding (`Decodes`); the slice loop reaches the end of its list because its
element decoder raises `EOL` there without reading (`EndsAtEOL`).  Backwards,
what they accept is the encoding of the value they return (`ReadsValue`), as
`decodeInterface` does for trees. -/
set_option autoImplicit false

namespace SimpleChain.Rlp

open BigEndian StateExcept

/-- `dec` reads the encoding of every value of `t`: from a rearmed stream with the
encoding ahead and room for it, it returns the value and reads the encoding. -/
def Decodes (dec : StreamM Value) (t : RType) : Prop :=
  ∀ v, t.holds v → (t.item v).Fits → ∀ s rest, s.kindAhead = none → s.Room (t.item v).encode.length →
    s.input = (t.item v).encode ++ rest →
      ∃ s', exec dec s = (.ok v, s') ∧ Stream.Consumed s s' (t.item v).encode.length

/-- At the end of a list `dec` raises `EOL`, having read nothing. -/
def EndsAtEOL (dec : StreamM Value) : Prop :=
  ∀ s : Stream, s.kindAhead = none → Stream.atEOL s.stack = true →
    exec dec s = (.error .eol, { s with kinderr := none })

/-! ## Encodings are never empty -/

theorem encode_ne_nil : ∀ item : Item, item.encode ≠ []
  | .str bytes => by
      rw [encode_str, encodeStr]
      split
      · rename_i single
        intro empty
        rw [empty] at single
        cases single
      · simp [header]
        split <;> simp
  | .list items => by
      rw [encode_list]
      simp [header]
      split <;> simp

theorem length_le_encodeItems : ∀ items : List Item, items.length ≤ (encodeItems items).length
  | [] => le_refl _
  | item :: items => by
      have first : 0 < item.encode.length := List.length_pos_of_ne_nil (encode_ne_nil item)
      have later := length_le_encodeItems items
      rw [encodeItems_cons, List.length_append, List.length_cons]
      omega

theorem consumed_zero (s : Stream) (rearmed : s.kindAhead = none) :
    Stream.Consumed s { s with kinderr := none } 0 :=
  ⟨by simp, by simp, by split <;> simp, rfl, rearmed⟩

/-! ## Byte strings -/

theorem wrapped_exec_ok {α : Type} {typ : RType} {x : StreamM α} {s t : Stream} {a : α}
    (run : exec x s = (.ok a, t)) : exec (wrapped typ x) s = (.ok a, t) := by
  rw [wrapped, exec_tryCatch, run]

theorem wrapped_exec_eol {α : Type} {typ : RType} {x : StreamM α} {s t : Stream}
    (run : exec x s = (.error .eol, t)) : exec (wrapped typ x) s = (.error .eol, t) := by
  rw [wrapped, exec_tryCatch, run]
  rfl

theorem kind_bind_exec_eol {β : Type} {f : Kind × Nat → StreamM β} {s : Stream}
    (rearmed : s.kindAhead = none) (eol : Stream.atEOL s.stack = true) :
    exec (Stream.kind >>= f) s = (.error .eol, { s with kinderr := none }) := by
  rw [exec_bind, Stream.exec_kind_eol rearmed eol]

theorem decodeByteSlice_endsAtEOL (typ : RType) : EndsAtEOL (decodeByteSlice typ) := by
  intro s rearmed eol
  have bytesRun : exec Stream.bytes s = (.error .eol, { s with kinderr := none }) :=
    kind_bind_exec_eol rearmed eol
  rw [decodeByteSlice, exec_bind, wrapped_exec_eol bytesRun]

theorem decodeByteSlice_decodes (typ : RType) : Decodes (decodeByteSlice typ) (.slice (.uint .u8)) := by
  intro v ok fits s rest rearmed room input
  rcases holds_slice.mp ok with ⟨-, b, rfl⟩ | ⟨notByte, -⟩
  · simp only [RType.item, Item.Fits, encode_str] at fits room input ⊢
    obtain ⟨s', bytesRun, consumed⟩ := Stream.exec_bytes_encodeStr fits rearmed room input
    refine ⟨s', ?_, consumed⟩
    rw [decodeByteSlice, exec_bind_ok (wrapped_exec_ok bytesRun)]
    rfl
  · cases notByte

theorem decodeByteArray_endsAtEOL (typ : RType) (vlen : Nat) : EndsAtEOL (decodeByteArray typ vlen) :=
  fun _ rearmed eol => kind_bind_exec_eol rearmed eol

/-- A string of other than one byte is its header and its bytes. -/
theorem encodeStr_of_length_ne_one {b : List UInt8} (notOne : b.length ≠ 1) :
    encodeStr b = header 0x80 0xB7 b.length ++ b := by
  have notSingle : singleByte b = false := by
    match b, notOne with
    | [], _ => rfl
    | _ :: _ :: _, _ => rfl
  rw [encodeStr, notSingle]
  rfl

theorem decodeByteArray_decodes (typ : RType) {len : Nat} (notOne : len ≠ 1) :
    Decodes (decodeByteArray typ len) (.array len (.uint .u8)) := by
  intro v ok fits s rest rearmed room input
  rcases holds_array.mp ok with ⟨-, b, rfl, rfl⟩ | ⟨notByte, -⟩
  · simp only [RType.item, Item.Fits, encode_str, encodeStr_of_length_ne_one notOne] at fits room input ⊢
    rw [List.append_assoc] at input
    have kindRun := Stream.exec_kind_header Stream.Tags.string fits rearmed (by simpa using room) input
    -- the stream once the header is read and `Kind` has cached it
    let t : Stream := { s.book (header 0x80 0xB7 b.length).length with
        input := b ++ rest, byteval := 0, kindAhead := some .string, sizeAhead := b.length, kinderr := none }
    have readBody := Stream.exec_readFull (s := t) (Stream.room_book (by simpa using room)) rfl
    rw [List.length_append]
    refine ⟨{ t.book b.length with input := rest }, ?_,
      Stream.consumed_book rfl rfl rfl (by simp [input])⟩
    rw [decodeByteArray, exec_bind_ok kindRun]
    simp only [Nat.lt_irrefl, if_false, gt_iff_lt]
    rw [exec_bind_ok readBody]
    simp only [notOne, false_and, if_false, exec_pure]
  · cases notByte

theorem decodeString_decodes : Decodes decodeString .string := by
  intro v ok
  obtain ⟨b, rfl⟩ := holds_string.mp ok
  exact decodeByteSlice_decodes .string (.bytes b) rfl

theorem decodeString_endsAtEOL : EndsAtEOL decodeString := decodeByteSlice_endsAtEOL .string

theorem decodeUint_endsAtEOL (size : UintSize) : EndsAtEOL (decodeUint size) := by
  intro s rearmed eol
  have uintRun : exec (Stream.uint size.bits) s = (.error .eol, { s with kinderr := none }) :=
    kind_bind_exec_eol rearmed eol
  rw [decodeUint, exec_bind, wrapped_exec_eol uintRun]

/-- The widths of the unsigned kinds are whole bytes. -/
theorem two_pow_bits (size : UintSize) : 2 ^ size.bits = 256 ^ (size.bits / 8) := by
  cases size <;> norm_num [UintSize.bits]

/-- An unsigned integer within its width, in its canonical encoding: the empty string
for zero, the byte itself below 0x80, its shortest big-endian bytes otherwise. -/
theorem decodeUint_decodes (size : UintSize) : Decodes (decodeUint size) (.uint size) := by
  intro v ok fits s rest rearmed room input
  obtain ⟨n, rfl, below⟩ := holds_uint.mp ok
  simp only [RType.item, Item.Fits, encode_str] at fits room input ⊢
  suffices uintRun : ∃ s', exec (Stream.uint size.bits) s = (.ok n, s') ∧
      Stream.Consumed s s' (encodeStr (minBE n)).length by
    obtain ⟨s', run, consumed⟩ := uintRun
    exact ⟨s', by rw [decodeUint, exec_bind_ok (wrapped_exec_ok run)]; rfl, consumed⟩
  rcases Nat.eq_zero_or_pos n with rfl | pos
  · -- zero is the empty string
    have empty : encodeStr (minBE 0) = header 0x80 0xB7 0 ++ [] := by simp [minBE, encodeStr, singleByte, header]
    rw [empty] at room input ⊢
    rw [List.append_assoc] at input
    have kindRun := Stream.exec_kind_header Stream.Tags.string (show (0 : Nat) < 2 ^ 64 by norm_num) rearmed
      (by simpa using room) input
    refine ⟨{ s.book 1 with input := rest, byteval := 0, sizeAhead := 0, kinderr := none }, ?_,
      ⟨by simp [input, header], rfl, rfl, rfl, rfl⟩⟩
    rw [Stream.uint, exec_bind_ok kindRun]
    simp [exec_bind, exec_map, Stream.readUint, Stream.rearm, Stream.book, header]
  rcases Nat.lt_or_ge n 128 with small | large
  · -- a byte below 0x80 is its own encoding
    have single : minBE n = [UInt8.ofNat n] := minBE_of_lt_256 pos (by omega)
    have byteValue : (UInt8.ofNat n).toNat = n := by simp; omega
    have own : encodeStr (minBE n) = [UInt8.ofNat n] := by
      rw [single, encodeStr, if_pos (Stream.singleByte_iff.mpr ⟨_, rfl, by omega⟩)]
    rw [own] at room input ⊢
    simp only [List.singleton_append] at input
    have kindRun := Stream.exec_kind_single rearmed room input (by omega)
    have nonzero : UInt8.ofNat n ≠ 0 := fun zero => by rw [zero] at byteValue; simp at byteValue; omega
    refine ⟨{ s.book 1 with input := rest, byteval := UInt8.ofNat n, sizeAhead := 0, kinderr := none }, ?_,
      ⟨by simp [input], rfl, rfl, rfl, rfl⟩⟩
    rw [Stream.uint, exec_bind_ok kindRun]
    simp only [exec_bind, exec_get, nonzero, if_false, Stream.rearm, exec_modify, exec_pure, byteValue]
    rfl
  · -- the shortest big-endian bytes behind a string header
    have width : (minBE n).length ≤ size.bits / 8 :=
      (length_minBE_le_iff n _).mpr (two_pow_bits size ▸ below)
    have notOne : ¬ ((minBE n).length = 1 ∧ (minBE n).headD 0 < 128) := by
      rintro ⟨one, low⟩
      rw [← ofBE_minBE n] at large
      obtain ⟨b, bytes⟩ := List.length_eq_one_iff.mp one
      rw [bytes] at large low
      simp [ofBE_cons] at large
      exact absurd (UInt8.lt_iff_toNat_lt.mp (by simpa using low)) (by simp; omega)
    have notSingle : singleByte (minBE n) = false := by
      by_contra single
      obtain ⟨b, bytes, lowByte⟩ := Stream.singleByte_iff.mp (by simpa using single)
      exact notOne ⟨by simp [bytes], by simp [bytes]; exact UInt8.lt_iff_toNat_lt.mpr (by simpa using lowByte)⟩
    have headed : encodeStr (minBE n) = header 0x80 0xB7 (minBE n).length ++ minBE n := by
      rw [encodeStr, notSingle]
      rfl
    rw [headed] at room input ⊢
    rw [List.append_assoc] at input
    have kindRun := Stream.exec_kind_header Stream.Tags.string fits rearmed (by simpa using room) input
    let t : Stream := { s.book (header 0x80 0xB7 (minBE n).length).length with
        input := minBE n ++ rest, byteval := 0, kindAhead := some .string, sizeAhead := (minBE n).length,
        kinderr := none }
    have readBody := Stream.exec_readUint_minBE (s := t) pos (Stream.room_book (by simpa using room)) rfl
    rw [List.length_append]
    refine ⟨{ t.book (minBE n).length with input := rest }, ?_,
      Stream.consumed_book rfl rfl rfl (by simp [input])⟩
    rw [Stream.uint, exec_bind_ok kindRun]
    simp only [gt_iff_lt, Nat.not_lt.mpr width, if_false]
    rw [exec_bind, exec_attempt, readBody]
    simp only [Nat.not_lt.mpr large, and_false, if_false]
    rfl

/-! ## Lists -/

/-- The stream once the header of a list of `size` bytes is read, with `more` ahead. -/
def Stream.opened (s : Stream) (size : Nat) (more : List UInt8) : Stream :=
  { s.book (header 0xC0 0xF7 size).length with
    input := more, byteval := 0, kinderr := none, sizeAhead := 0,
    stack := { pos := 0, size := size } :: Stream.advance (header 0xC0 0xF7 size).length s.stack }

/-- Opening a list with its payload ahead: the stack counts the payload from zero,
and all of it fits. -/
theorem openList {s : Stream} {payload rest : List UInt8} (fits : payload.length < 2 ^ 64)
    (rearmed : s.kindAhead = none) (room : s.Room (header 0xC0 0xF7 payload.length ++ payload).length)
    (input : s.input = header 0xC0 0xF7 payload.length ++ payload ++ rest) :
    exec Stream.list s = (.ok payload.length, s.opened payload.length (payload ++ rest)) ∧
      (s.opened payload.length (payload ++ rest)).Room payload.length := by
  rw [List.append_assoc] at input
  refine ⟨Stream.exec_list_header fits rearmed (by simpa using room) input, ?_,
    fun limited => (Stream.room_book (s := s) (n := payload.length) (by simpa using room)).2 limited⟩
  intro tos member
  simp only [Stream.opened, List.head?_cons, Option.mem_def, Option.some.injEq] at member
  rw [← member]
  exact Nat.le_refl _

/-- A body that read the whole payload leaves the list at its end: `ListEnd` closes
it, and the list was read in its encoding. -/
theorem closeList {s s' : Stream} {payload rest : List UInt8}
    (input : s.input = header 0xC0 0xF7 payload.length ++ payload ++ rest)
    (body : Stream.Consumed (s.opened payload.length (payload ++ rest)) s' payload.length) :
    ∃ w, exec Stream.listEnd s' = (.ok (), w) ∧
      Stream.Consumed s w (header 0xC0 0xF7 payload.length ++ payload).length := by
  have closed : s'.stack = ⟨payload.length, payload.length⟩ ::
      Stream.advance (header 0xC0 0xF7 payload.length).length s.stack := by
    rw [body.stack]
    simp [Stream.opened, Stream.advance]
  have closeRun := Stream.exec_listEnd closed rfl
  have bodyReads : Stream.Reads (s.opened payload.length (payload ++ rest)) s' payload :=
    ⟨by rw [body.input]; simp [Stream.opened], body⟩
  rw [List.append_assoc] at input
  exact ⟨_, closeRun, (Stream.reads_listEnd input bodyReads closeRun).2.consumed⟩

/-! ## Slices -/

/-- `dec` reads `item` as `v`: from a rearmed stream with the encoding ahead and room
for it, it returns `v` and reads exactly the encoding.  `Decodes dec t` is this for
every value of `t` and its item. -/
def DecodesItem (dec : StreamM Value) (item : Item) (v : Value) : Prop :=
  item.Fits → ∀ s rest, s.kindAhead = none → s.Room item.encode.length → s.input = item.encode ++ rest →
    ∃ s', exec dec s = (.ok v, s') ∧ Stream.Consumed s s' item.encode.length

section Items

variable {dec : StreamM Value} (ends : EndsAtEOL dec)
include ends

/-- The slice loop reads the items of a list one after the other and stops at the
end of the list, within its bound of rounds. -/
theorem elemsUntilEOL_items (atBound : StreamM (List Value)) :
    ∀ (elems : List (Item × Value)) (bound : Nat) (s : Stream) (rest : List UInt8) (tos : ListPos)
      (outer : List ListPos), (∀ e ∈ elems, DecodesItem dec e.1 e.2) → elems.length < bound →
      Item.FitsAll (elems.map Prod.fst) → s.kindAhead = none →
      s.Room (encodeItems (elems.map Prod.fst)).length → s.stack = tos :: outer →
      tos.pos + (encodeItems (elems.map Prod.fst)).length = tos.size →
      s.input = encodeItems (elems.map Prod.fst) ++ rest →
      ∃ s', exec (elemsUntilEOL dec atBound bound) s = (.ok (elems.map Prod.snd), s') ∧
        Stream.Consumed s s' (encodeItems (elems.map Prod.fst)).length
  | [], bound + 1, s, _, tos, outer, _, _, _, rearmed, _, stack, atEnd, _ => by
      -- nothing left of the list: the element decoder raises `EOL`
      have eol : Stream.atEOL s.stack = true := by
        simp only [List.map_nil, encodeItems_nil, List.length_nil, Nat.add_zero] at atEnd
        simp [stack, Stream.atEOL, atEnd]
      refine ⟨{ s with kinderr := none }, ?_, consumed_zero s rearmed⟩
      rw [elemsUntilEOL, exec_bind, exec_attempt, ends s rearmed eol]
      rfl
  | (item, v) :: elems, bound + 1, s, rest, tos, outer, each, within, fits, rearmed, room, stack, atEnd, input => by
      obtain ⟨itemFits, restFits⟩ := fits
      simp only [List.map_cons, encodeItems_cons, List.length_append] at room atEnd input ⊢
      rw [List.append_assoc] at input
      obtain ⟨s₁, elemRun, first⟩ := each (item, v) List.mem_cons_self itemFits s _ rearmed
        (room.mono (Nat.le_add_right _ _)) input
      have input₁ : s₁.input = encodeItems (elems.map Prod.fst) ++ rest := by
        rw [first.input, input, List.drop_left]
      have stack₁ : s₁.stack = { tos with pos := tos.pos + item.encode.length } :: outer := by
        rw [first.stack, stack]
        rfl
      obtain ⟨s', restRun, later⟩ := elemsUntilEOL_items atBound elems bound s₁ rest _ outer
        (fun e member => each e (List.mem_cons_of_mem _ member))
        (by simp only [List.length_cons] at within; omega) restFits first.rearmed
        (room.after first) stack₁ (by simp only; omega) input₁
      refine ⟨s', ?_, first.trans later⟩
      rw [elemsUntilEOL, exec_bind, exec_attempt, elemRun]
      simp only
      rw [exec_bind, restRun]
      rfl

/-- A slice: its list header, the items up to the size it gives, and `ListEnd`. -/
theorem decodeListSlice_items (typ : RType) (elems : List (Item × Value))
    (each : ∀ e ∈ elems, DecodesItem dec e.1 e.2) :
    DecodesItem (decodeListSlice typ dec) (.list (elems.map Prod.fst)) (.list (elems.map Prod.snd)) := by
  intro fits s rest rearmed room input
  obtain ⟨payloadFits, itemsFit⟩ := fits
  rw [encode_list] at room input ⊢
  obtain ⟨listRun, openRoom⟩ := openList payloadFits rearmed room input
  have rounds := length_le_encodeItems (elems.map Prod.fst)
  rw [List.length_map] at rounds
  obtain ⟨s', elemsRun, body⟩ := elemsUntilEOL_items ends (throw .loopDiverges) elems
    ((encodeItems (elems.map Prod.fst)).length + 1) _ rest _ _ each (by omega) itemsFit rfl openRoom rfl
    (by simp) rfl
  obtain ⟨w, closeRun, consumed⟩ := closeList input body
  refine ⟨w, ?_, consumed⟩
  rw [decodeListSlice, exec_bind_ok (wrapped_exec_ok listRun)]
  split
  · -- an empty payload: the slice is empty, read at once
    rename_i empty
    have noElems : elems = [] := List.eq_nil_of_length_eq_zero (by omega)
    subst noElems
    simp only [List.map_nil, encodeItems_nil, List.length_nil, List.nil_append] at elemsRun closeRun ⊢
    have same : s' = s.opened 0 rest := by
      rw [elemsUntilEOL, exec_bind, exec_attempt,
        ends _ rfl (by simp [Stream.opened, Stream.atEOL])] at elemsRun
      exact (Prod.mk.inj elemsRun).2.symm
    subst same
    rw [exec_bind_ok closeRun]
    rfl
  · rw [decodeSliceElems, exec_bind_ok elemsRun, exec_bind_ok closeRun]
    rfl

end Items

/-- The items and values of the elements of a slice of `elem`. -/
theorem map_item_pairs (elem : RType) (vs : List Value) :
    (vs.map fun v => (elem.item v, v)).map Prod.fst = vs.map elem.item ∧
      (vs.map fun v => (elem.item v, v)).map Prod.snd = vs := by
  simp [Function.comp_def]

section Slice

variable {dec : StreamM Value} {elem : RType} (decodes : Decodes dec elem) (ends : EndsAtEOL dec)
include decodes ends

/-- The slice loop reads the elements one after the other and stops at the end of
the list, within its bound of rounds. -/
theorem elemsUntilEOL_decodes (atBound : StreamM (List Value)) (vs : List Value) (bound : Nat) (s : Stream)
    (rest : List UInt8) (tos : ListPos) (outer : List ListPos) (within : vs.length < bound)
    (each : ∀ v ∈ vs, elem.holds v) (fits : Item.FitsAll (vs.map elem.item)) (rearmed : s.kindAhead = none)
    (room : s.Room (encodeItems (vs.map elem.item)).length) (stack : s.stack = tos :: outer)
    (atEnd : tos.pos + (encodeItems (vs.map elem.item)).length = tos.size)
    (input : s.input = encodeItems (vs.map elem.item) ++ rest) :
    ∃ s', exec (elemsUntilEOL dec atBound bound) s = (.ok vs, s') ∧
      Stream.Consumed s s' (encodeItems (vs.map elem.item)).length := by
  obtain ⟨items, values⟩ := map_item_pairs elem vs
  have run := elemsUntilEOL_items ends atBound (vs.map fun v => (elem.item v, v)) bound s rest tos outer
    (fun e member => by
      obtain ⟨v, held, rfl⟩ := List.mem_map.mp member
      exact decodes v (each v held))
    (by simpa using within) (items ▸ fits) rearmed (items ▸ room) stack (items ▸ atEnd) (items ▸ input)
  rwa [items, values] at run

/-- A slice of another element type: its list header, the elements up to the
size it gives, and `ListEnd`. -/
theorem decodeListSlice_decodes (typ : RType) (notByte : elem.isByte = false) :
    Decodes (decodeListSlice typ dec) (.slice elem) := by
  intro v ok
  rcases holds_slice.mp ok with ⟨isByte, -⟩ | ⟨-, vs, rfl, each⟩
  · rw [notByte] at isByte
    cases isByte
  obtain ⟨items, values⟩ := map_item_pairs elem vs
  have reads := decodeListSlice_items ends typ (vs.map fun v => (elem.item v, v)) (fun e member => by
    obtain ⟨v, held, rfl⟩ := List.mem_map.mp member
    exact decodes v (each v held))
  rw [items, values] at reads
  exact reads

end Slice

/-! ## Structs and pointers -/

theorem consumed_refl (s : Stream) (rearmed : s.kindAhead = none) : Stream.Consumed s s 0 :=
  ⟨by simp, by simp, by split <;> simp, rfl, rearmed⟩

/-- The loop over the fields reads each field in its turn. -/
theorem decodeFields_decodes (typ : RType) :
    ∀ fields : List RType, (∀ field ∈ fields, Decodes (makeDecoder field) field) →
      ∀ (vs : List Value) (s : Stream) (rest : List UInt8), RType.holdsFields fields vs →
        Item.FitsAll (RType.itemFields fields vs) → s.kindAhead = none →
        s.Room (encodeItems (RType.itemFields fields vs)).length →
        s.input = encodeItems (RType.itemFields fields vs) ++ rest →
        ∃ s', exec (decodeFields typ fields) s = (.ok vs, s') ∧
          Stream.Consumed s s' (encodeItems (RType.itemFields fields vs)).length
  | [], _, [], s, _, _, _, rearmed, _, _ => ⟨s, rfl, consumed_refl s rearmed⟩
  | [], _, _ :: _, _, _, ok, _, _, _, _ => by simp [RType.holdsFields] at ok
  | field :: fields, each, vs, s, rest, ok, fits, rearmed, room, input => by
      obtain ⟨v, vs, rfl, fieldOk, restOk⟩ := holdsFields_cons.mp ok
      simp only [RType.itemFields, encodeItems_cons, List.length_append] at fits room input ⊢
      obtain ⟨vFits, restFits⟩ := fits
      rw [List.append_assoc] at input
      obtain ⟨s₁, fieldRun, first⟩ := each field List.mem_cons_self v fieldOk vFits s _ rearmed
        (room.mono (Nat.le_add_right _ _)) input
      obtain ⟨s', restRun, later⟩ := decodeFields_decodes typ fields
        (fun f member => each f (List.mem_cons_of_mem field member)) vs s₁ rest restOk restFits first.rearmed
        (room.after first) (by rw [first.input, input, List.drop_left])
      refine ⟨s', ?_, first.trans later⟩
      rw [decodeFields, exec_bind, exec_attempt, fieldRun]
      simp only
      rw [exec_bind, restRun]
      rfl

/-- A struct: its list header, the fields in order, and `ListEnd`. -/
theorem makeDecoder_struct_decodes (fields : List RType)
    (each : ∀ field ∈ fields, Decodes (makeDecoder field) field) :
    Decodes (makeDecoder (.struct fields)) (.struct fields) := by
  intro v ok fits s rest rearmed room input
  obtain ⟨vs, rfl, fieldsOk⟩ := holds_struct.mp ok
  simp only [RType.item] at fits room input ⊢
  obtain ⟨payloadFits, itemsFit⟩ := fits
  rw [encode_list] at room input ⊢
  obtain ⟨listRun, openRoom⟩ := openList payloadFits rearmed room input
  obtain ⟨s', fieldsRun, body⟩ :=
    decodeFields_decodes (.struct fields) fields each vs _ rest fieldsOk itemsFit rfl openRoom rfl
  obtain ⟨w, closeRun, consumed⟩ := closeList input body
  refine ⟨w, ?_, consumed⟩
  rw [makeDecoder, makeStructDecoder, exec_bind_ok (wrapped_exec_ok listRun), exec_bind_ok fieldsRun,
    exec_bind_ok (wrapped_exec_ok closeRun)]
  rfl

theorem makeSimplePtrDecoder_exec {dec : StreamM Value} {s s' : Stream} {v : Value}
    (run : exec dec s = (.ok v, s')) : exec (makeSimplePtrDecoder dec) s = (.ok (.ptr v), s') := by
  rw [makeSimplePtrDecoder, exec_bind_ok run]
  rfl

/-- `DecodeBytes` into a pointer to `t`, of the encoding of a value of `t`: a pointer to the value. -/
theorem decodeBytes_ptr {t : RType} (decodes : Decodes (makeDecoder t) t) {v : Value} (ok : t.holds v)
    (fits : (t.item v).Fits) : decodeBytes (.ptr t) (t.item v).encode = .ok (.ptr v) := by
  obtain ⟨s', run, consumed⟩ := decodes v ok fits (Stream.reset (t.item v).encode) [] rfl
    ⟨fun _ member => by simp [Stream.reset] at member, fun _ => le_refl _⟩ (by simp [Stream.reset])
  have drained : s'.input = [] := by
    rw [consumed.input]
    simp [Stream.reset]
  rw [decodeBytes, makeDecoder, makeSimplePtrDecoder_exec run]
  simp [drained]

/-! ## What the typed decoders accept -/

/-- What `dec` accepts is the encoding of a value of `t`, the one it returns. -/
def ReadsValue (dec : StreamM Value) (t : RType) : Prop :=
  ∀ s s' v, s.kindAhead = none → exec dec s = (.ok v, s') →
    t.holds v ∧ (t.item v).Fits ∧ Stream.Reads s s' (t.item v).encode

/-- A decoder that raised `EOL` from a rearmed stream read nothing. -/
theorem stopsAtEOL_of_kind {s t : Stream} (rearmed : s.kindAhead = none)
    (kindRun : exec Stream.kind s = (.error .eol, t)) : Stream.Reads s t [] := by
  obtain ⟨-, rfl⟩ := Stream.kind_eol rearmed kindRun
  exact Stream.reads_nil rfl rfl rfl rfl rearmed

theorem decodeByteSlice_stops (typ : RType) : StopsAtEOL (decodeByteSlice typ) := by
  intro s t rearmed run
  rw [decodeByteSlice, exec_bind] at run
  rcases bytesRun : exec (wrapped typ Stream.bytes) s with ⟨e | b, s₁⟩ <;> rw [bytesRun] at run
  · simp only [Prod.mk.injEq, Except.error.injEq] at run
    obtain ⟨rfl, rfl⟩ := run
    exact stopsAtEOL_of_kind rearmed (Stream.bytes_eol (wrapped_eol bytesRun))
  · cases run

theorem decodeByteSlice_reads (typ : RType) : ReadsValue (decodeByteSlice typ) (.slice (.uint .u8)) := by
  intro s t v rearmed run
  rw [decodeByteSlice] at run
  obtain ⟨b, _, bytesRun, run⟩ := exec_bind_eq_ok run
  obtain ⟨rfl, rfl⟩ := exec_pure_eq_ok run
  obtain ⟨fits, read⟩ := Stream.bytes_ok rearmed (wrapped_ok bytesRun)
  exact ⟨rfl, fits, read⟩

theorem decodeByteArray_stops (typ : RType) (vlen : Nat) : StopsAtEOL (decodeByteArray typ vlen) := by
  intro s t rearmed run
  refine stopsAtEOL_of_kind rearmed
    (Stream.kind_bind_eol (fun ⟨k, size⟩ => ?_) run)
  -- past `Kind`, every branch fails with an error of the decoder or of `ReadFull`
  cases k with
  | byte =>
      dsimp only
      split
      · exact Stream.noEol_throw (by simp)
      split
      · exact Stream.noEol_throw (by simp)
      · exact Stream.noEol_bind (Stream.noEol_attempt _) fun _ => Stream.noEol_pure _
  | string =>
      dsimp only
      split
      · exact Stream.noEol_throw (by simp)
      split
      · exact Stream.noEol_throw (by simp)
      refine Stream.noEol_bind (Stream.noEol_readFull _) fun slice => ?_
      split
      · exact Stream.noEol_throw (by simp [wrapStreamError])
      · exact Stream.noEol_pure _
  | list => exact Stream.noEol_throw (by simp [wrapStreamError])

/-- A byte array of at least two bytes is accepted only as a string of its length. -/
theorem decodeByteArray_reads (typ : RType) {len : Nat} (two : 2 ≤ len) :
    ReadsValue (decodeByteArray typ len) (.array len (.uint .u8)) := by
  intro s t v rearmed run
  rw [decodeByteArray] at run
  obtain ⟨⟨k, size⟩, _, kindRun, run⟩ := exec_bind_eq_ok run
  obtain ⟨hdr, rest, bv, header, input, rfl⟩ := Stream.kind_ok rearmed kindRun
  cases header with
  | byte small =>
      simp only [show len ≠ 0 by omega, show len > 1 by omega, if_false, if_true] at run
      cases run
  | tagged tags fits =>
      cases tags with
      | list => cases run
      | string =>
          dsimp only at run
          split at run
          · cases run
          split at run
          · cases run
          rename_i longEnough shortEnough
          have sized : size = len := by omega
          subst sized
          obtain ⟨slice, _, fullRun, run⟩ := exec_bind_eq_ok run
          obtain ⟨rest', body, length, rfl⟩ := Stream.readFull_ok fullRun
          change rest = slice ++ rest' at body
          rw [if_neg (by omega)] at run
          obtain ⟨rfl, rfl⟩ := exec_pure_eq_ok run
          have encoded : encodeStr slice = header 0x80 0xB7 slice.length ++ slice :=
            encodeStr_of_length_ne_one (by omega)
          refine ⟨by simp [RType.holds, RType.isByte, length], by simpa [RType.item, Item.Fits, length] using fits,
            ⟨?_, ?_⟩⟩
          · show s.input = _ ++ rest'
            rw [input, body, RType.item, encode_str, encoded, length, List.append_assoc]
          · simp only [RType.item, encode_str, encoded, List.length_append, length]
            exact Stream.consumed_book rfl rfl rfl (by
              rw [input, body, ← List.append_assoc, ← length, ← List.length_append, List.drop_left])

section SliceAccept

variable {dec : StreamM Value} {elem : RType} (reads : ReadsValue dec elem) (stops : StopsAtEOL dec)
include reads stops

/-- The slice loop accepts the elements' encodings one after the other. -/
theorem elemsUntilEOL_reads : ∀ n s t vs, s.kindAhead = none →
    exec (elemsUntilEOL dec (throw .loopDiverges) n) s = (.ok vs, t) →
      (∀ v ∈ vs, elem.holds v) ∧ Item.FitsAll (vs.map elem.item) ∧
        Stream.Reads s t (encodeItems (vs.map elem.item))
  | 0, _, _, _, _, run => by cases run
  | n + 1, s, t, vs, rearmed, run => by
      rw [elemsUntilEOL, exec_bind, exec_attempt] at run
      rcases elemRun : exec dec s with ⟨e | v, s₁⟩ <;> simp only [elemRun] at run
      · -- the element failed: `EOL` ends the list, anything else fails the loop
        split at run
        · rename_i eol
          cases eol
          obtain ⟨rfl, rfl⟩ := exec_pure_eq_ok run
          exact ⟨by simp, trivial, stops s s₁ rearmed elemRun⟩
        · cases run
        · rename_i _ impossible
          cases impossible
      · obtain ⟨ok, fits, read⟩ := reads s s₁ v rearmed elemRun
        obtain ⟨vs', s₂, restRun, run⟩ := exec_bind_eq_ok run
        obtain ⟨rfl, rfl⟩ := exec_pure_eq_ok run
        obtain ⟨each, restFits, restRead⟩ :=
          elemsUntilEOL_reads n s₁ s₂ vs' read.consumed.rearmed restRun
        refine ⟨?_, ⟨fits, restFits⟩, read.trans restRead⟩
        intro x member
        rcases List.mem_cons.mp member with rfl | later
        · exact ok
        · exact each x later

/-- A slice of another element type is accepted only as a list of its elements' encodings. -/
theorem decodeListSlice_readsValue (typ : RType) (notByte : elem.isByte = false) :
    ReadsValue (decodeListSlice typ dec) (.slice elem) := by
  intro s t v rearmed run
  unfold decodeListSlice at run
  obtain ⟨size, _, openRun, run⟩ := exec_bind_eq_ok run
  obtain ⟨rest, fits, input, rfl⟩ := Stream.list_ok rearmed (wrapped_ok openRun)
  -- what a list of elements accepted in the list of `size` bytes holds
  have listed : ∀ vs u, (∀ x ∈ vs, elem.holds x) → Item.FitsAll (vs.map elem.item) →
      (encodeItems (vs.map elem.item)).length = size →
      Stream.Reads s u (header 0xC0 0xF7 size ++ encodeItems (vs.map elem.item)) →
      (RType.slice elem).holds (.list vs) ∧ ((RType.slice elem).item (.list vs)).Fits ∧
        Stream.Reads s u ((RType.slice elem).item (.list vs)).encode := by
    intro vs u each itemsFit filled read
    refine ⟨holds_slice.mpr (.inr ⟨notByte, vs, rfl, each⟩), ⟨filled ▸ fits, itemsFit⟩, ?_⟩
    rw [RType.item, encode_list, filled]
    exact read
  split at run
  · -- an empty list: `ListEnd` at once
    rename_i empty
    subst empty
    obtain ⟨_, _, closeRun, run⟩ := exec_bind_eq_ok run
    obtain ⟨rfl, rfl⟩ := exec_pure_eq_ok run
    obtain ⟨filled, read⟩ := Stream.reads_listEnd input (Stream.reads_nil rfl rfl rfl rfl rfl) closeRun
    exact listed [] _ (by simp) trivial filled read
  · obtain ⟨vs, _, elemsRun, run⟩ := exec_bind_eq_ok run
    obtain ⟨_, _, closeRun, run⟩ := exec_bind_eq_ok run
    obtain ⟨rfl, rfl⟩ := exec_pure_eq_ok run
    obtain ⟨each, itemsFit, body⟩ := elemsUntilEOL_reads reads stops _ _ _ vs rfl elemsRun
    obtain ⟨filled, read⟩ := Stream.reads_listEnd input body closeRun
    exact listed vs _ each itemsFit filled read

end SliceAccept

/-- The loop over the fields accepts each field's encoding in its turn. -/
theorem decodeFields_reads (typ : RType) :
    ∀ fields : List RType, (∀ field ∈ fields, ReadsValue (makeDecoder field) field) →
      ∀ (s t : Stream) (vs : List Value), s.kindAhead = none → exec (decodeFields typ fields) s = (.ok vs, t) →
        RType.holdsFields fields vs ∧ Item.FitsAll (RType.itemFields fields vs) ∧
          Stream.Reads s t (encodeItems (RType.itemFields fields vs))
  | [], _, s, t, vs, rearmed, run => by
      simp only [decodeFields, exec_pure, Prod.mk.injEq, Except.ok.injEq] at run
      obtain ⟨rfl, rfl⟩ := run
      exact ⟨rfl, trivial, Stream.reads_nil rfl rfl rfl rfl rearmed⟩
  | field :: fields, each, s, t, vs, rearmed, run => by
      rw [decodeFields, exec_bind, exec_attempt] at run
      rcases fieldRun : exec (makeDecoder field) s with ⟨e | v, s₁⟩ <;> simp only [fieldRun] at run
      · -- a field that failed fails the struct
        split at run
        · cases run
        · cases run
        · rename_i _ impossible
          cases impossible
      · obtain ⟨ok, fits, read⟩ := each field List.mem_cons_self s s₁ v rearmed fieldRun
        obtain ⟨vs', s₂, restRun, run⟩ := exec_bind_eq_ok run
        obtain ⟨rfl, rfl⟩ := exec_pure_eq_ok run
        obtain ⟨restOk, restFits, restRead⟩ := decodeFields_reads typ fields
          (fun f member => each f (List.mem_cons_of_mem field member)) s₁ s₂ vs' read.consumed.rearmed restRun
        refine ⟨holdsFields_cons.mpr ⟨v, vs', rfl, ok, restOk⟩, ⟨fits, restFits⟩, ?_⟩
        rw [RType.itemFields, encodeItems_cons]
        exact read.trans restRead

/-- A struct is accepted only as the list of its fields' encodings. -/
theorem makeDecoder_struct_reads (fields : List RType)
    (each : ∀ field ∈ fields, ReadsValue (makeDecoder field) field) :
    ReadsValue (makeDecoder (.struct fields)) (.struct fields) := by
  intro s t v rearmed run
  rw [makeDecoder, makeStructDecoder] at run
  obtain ⟨size, _, openRun, run⟩ := exec_bind_eq_ok run
  obtain ⟨rest, fits, input, rfl⟩ := Stream.list_ok rearmed (wrapped_ok openRun)
  obtain ⟨vs, _, fieldsRun, run⟩ := exec_bind_eq_ok run
  obtain ⟨_, _, closeRun, run⟩ := exec_bind_eq_ok run
  obtain ⟨rfl, rfl⟩ := exec_pure_eq_ok run
  obtain ⟨fieldsOk, itemsFit, body⟩ := decodeFields_reads _ fields each _ _ vs rfl fieldsRun
  obtain ⟨filled, read⟩ := Stream.reads_listEnd input body (wrapped_ok closeRun)
  refine ⟨holds_struct.mpr ⟨vs, rfl, fieldsOk⟩, ⟨filled ▸ fits, itemsFit⟩, ?_⟩
  rw [RType.item, encode_list, filled]
  exact read

/-- What `DecodeBytes` accepts into a pointer to `t` is the encoding of the value it points to. -/
theorem decodeBytes_ptr_reads {t : RType} (reads : ReadsValue (makeDecoder t) t) {b : List UInt8} {v : Value}
    (accepted : decodeBytes (.ptr t) b = .ok v) :
    ∃ x, v = .ptr x ∧ t.holds x ∧ (t.item x).Fits ∧ (t.item x).encode = b := by
  unfold decodeBytes at accepted
  rw [makeDecoder] at accepted
  rcases run : exec (makeDecoder t) (Stream.reset b) with ⟨e | x, s'⟩
  · rw [makeSimplePtrDecoder, exec_bind, run] at accepted
    cases accepted
  · simp only [makeSimplePtrDecoder_exec run] at accepted
    split at accepted
    · rename_i drained
      cases accepted
      obtain ⟨ok, fits, read⟩ := reads _ _ x rfl run
      have input := read.input
      rw [List.isEmpty_iff.mp drained, List.append_nil] at input
      exact ⟨x, rfl, ok, fits, input.symm⟩
    · cases accepted

end SimpleChain.Rlp
