import Mathlib
import SimpleChain.Rlp.Typed

/-! # Raw values and `tail` fields (`Stream.Raw`, `decodeRawValue`, `rlp:"tail"`)

An `rlp.RawValue` is written as it is, and `Raw` reads the next value back with its
header rebuilt by `puthead`.  A struct field tagged `rlp:"tail"` takes the values left
in the struct's list, with no list header of its own; the struct decoder's loop treats
it as one more field.  `decodeFieldsOf` is that loop over the decoders of the fields.

Read on the encodings of items, `Raw` returns each encoding, so a tail of raw values
reads back as it was written.  A struct whose list holds fewer values than it has
fields fails with "too few elements" at the first field that finds the end of the
list. -/
set_option autoImplicit false

namespace SimpleChain.Rlp

open StateExcept

namespace Stream

/-- `Raw`: the next value including its header; `Kind` has read the header, so it is
rebuilt with `puthead` in front of the content. -/
def raw : StreamM (List UInt8) := do
  let (k, size) ← kind
  if k = .byte then do
    rearm
    let s ← get
    pure [s.byteval]
  else do
    let content ← readFull size
    pure ((if k = .string then puthead 0x80 0xB7 size else puthead 0xC0 0xF7 size) ++ content)

end Stream

def decodeRawValue : StreamM Value := do
  let r ← Stream.raw
  pure (.bytes r)

/-- The loop over the fields of `makeStructDecoder`, given the decoder of each field. -/
def decodeFieldsOf (typ : RType) : List (StreamM Value) → StreamM (List Value)
  | [] => pure []
  | dec :: decs => do
      match ← attempt dec with
      | .error .eol => throw (.decode "too few elements" typ)
      | .error err => throw err
      | .ok v => do
          let vs ← decodeFieldsOf typ decs
          pure (v :: vs)

/-- The decoder of a `tail` slice: `decodeSliceElems` on what is left of the struct's
list; each element takes at least one byte of the input. -/
def decodeTail (elemdec : StreamM Value) : StreamM Value := do
  let s ← get
  let vs ← decodeSliceElems elemdec s.input.length
  pure (.list vs)

def writeRawValue (raw : List UInt8) : EncM Unit := appendStr raw

/-- The writer of a `tail` slice: its elements, with no list around them. -/
def writeTail {α : Type} (elemWriter : α → EncM Unit) (elems : List α) : EncM Unit :=
  elems.forM elemWriter

/-- `makeStructDecoder` of a struct whose last field is a `tail`: the fields, then the
tail, whose decoder never reports `EOL`, so that the loop's "too few elements" check
cannot fire for it. -/
def decodeStructWithTail (typ : RType) (fields : List RType) (tail : StreamM Value) : StreamM Value :=
  makeStructDecoder typ (do
    let vs ← decodeFields typ fields
    let t ← tail
    pure (vs ++ [t]))

/-- `makeStructWriter` of a struct whose last field is a `tail` of raw values. -/
def writeStructWithTail (fields : List RType) (vs : List Value) (raws : List (List UInt8)) : EncM Unit := do
  let lh ← list
  writeFields fields vs
  writeTail writeRawValue raws
  listEnd lh

/-- `Stream.Decode` on `NewStream(bytes.NewReader(input), 0)`: one value, with whatever
follows it left unread. -/
def Stream.decode (dec : StreamM Value) (input : List UInt8) : Except RlpError Value :=
  (exec dec (Stream.reset input)).1

/-- `dec` fails with `e` on the encoding of `item`, from a rearmed stream with room for it. -/
def FailsItem (dec : StreamM Value) (item : Item) (e : RlpError) : Prop :=
  item.Fits → ∀ s rest, s.kindAhead = none → s.Room item.encode.length → s.input = item.encode ++ rest →
    ∃ s', exec dec s = (.error e, s')

/-- The encoding of a list whose payload is `payload`. -/
def listBytes (payload : List UInt8) : List UInt8 := header 0xC0 0xF7 payload.length ++ payload

/-- `EncodeToBytes` of a value written by `x`. -/
def encodeWith (x : EncM Unit) : Except RlpError (List UInt8) := do
  let ((), w) ← x.run { str := [], lheads := [], lhsize := 0 }
  pure w.toBytes

/-! ## Raw values -/

theorem decodeRawValue_endsAtEOL : EndsAtEOL decodeRawValue := by
  intro s rearmed eol
  have rawRun : exec Stream.raw s = (.error .eol, { s with kinderr := none }) :=
    kind_bind_exec_eol rearmed eol
  rw [decodeRawValue, exec_bind, rawRun]

/-- `Raw` after `Kind` has read a header: the content, behind the header rebuilt. -/
theorem raw_header {s : Stream} {k : Kind} {small large : UInt8} (tags : Stream.Tags k small large)
    {payload rest : List UInt8} (fits : payload.length < 2 ^ 64) (rearmed : s.kindAhead = none)
    (room : s.Room (header small large payload.length ++ payload).length)
    (input : s.input = header small large payload.length ++ payload ++ rest) :
    ∃ s', exec decodeRawValue s = (.ok (.bytes (header small large payload.length ++ payload)), s') ∧
      Stream.Consumed s s' (header small large payload.length ++ payload).length := by
  rw [List.append_assoc] at input
  rw [List.length_append] at room ⊢
  have kindRun := Stream.exec_kind_header tags fits rearmed room input
  let t : Stream := { s.book (header small large payload.length).length with
      input := payload ++ rest, byteval := 0, kindAhead := some k, sizeAhead := payload.length, kinderr := none }
  have readBody := Stream.exec_readFull (s := t) (Stream.room_book room) rfl
  refine ⟨{ t.book payload.length with input := rest }, ?_,
    Stream.consumed_book rfl rfl rfl (by simp [input])⟩
  have notByte : k ≠ .byte := by cases tags <;> decide
  have rebuilt : (if k = .string then puthead 0x80 0xB7 payload.length else puthead 0xC0 0xF7 payload.length) =
      header small large payload.length := by
    cases tags
    · exact puthead_eq_header _ _ fits
    · exact puthead_eq_header _ _ fits
  rw [decodeRawValue, exec_bind, Stream.raw, exec_bind_ok kindRun]
  simp only [notByte, if_false]
  rw [exec_bind_ok readBody, rebuilt]
  rfl

/-- `Raw` reads the encoding of every item and returns it. -/
theorem decodeRawValue_reads (item : Item) : DecodesItem decodeRawValue item (.bytes item.encode) := by
  intro fits s rest rearmed room input
  cases item with
  | str b =>
      rw [encode_str] at room input ⊢
      unfold encodeStr at room input ⊢
      by_cases single : singleByte b = true
      · -- a byte below 0x80 is its own encoding; `Raw` returns the byte `Kind` cached
        obtain ⟨x, rfl, small⟩ := Stream.singleByte_iff.mp single
        rw [if_pos single] at room input ⊢
        simp only [List.singleton_append] at input
        have kindRun := Stream.exec_kind_single rearmed room input small
        refine ⟨{ s.book 1 with input := rest, byteval := x, sizeAhead := 0, kinderr := none }, ?_,
          ⟨by simp [input], rfl, rfl, rfl, rfl⟩⟩
        rw [decodeRawValue, exec_bind, Stream.raw, exec_bind_ok kindRun]
        simp [exec_bind, exec_map, Stream.rearm, Stream.book]
      · rw [if_neg single] at room input ⊢
        exact raw_header Stream.Tags.string fits rearmed room input
  | list items =>
      rw [encode_list] at room input ⊢
      exact raw_header Stream.Tags.list fits.1 rearmed room input

/-! ## Fields and tails -/

/-- The loop over the fields reads each field's item with the field's decoder. -/
theorem decodeFieldsOf_items (typ : RType) :
    ∀ (fields : List (StreamM Value × Item × Value)) (s : Stream) (rest : List UInt8),
      (∀ f ∈ fields, DecodesItem f.1 f.2.1 f.2.2) → Item.FitsAll (fields.map (·.2.1)) → s.kindAhead = none →
      s.Room (encodeItems (fields.map (·.2.1))).length → s.input = encodeItems (fields.map (·.2.1)) ++ rest →
      ∃ s', exec (decodeFieldsOf typ (fields.map (·.1))) s = (.ok (fields.map (·.2.2)), s') ∧
        Stream.Consumed s s' (encodeItems (fields.map (·.2.1))).length
  | [], s, _, _, _, rearmed, _, _ => ⟨s, rfl, consumed_refl s rearmed⟩
  | (dec, item, v) :: fields, s, rest, each, fits, rearmed, room, input => by
      obtain ⟨itemFits, restFits⟩ := fits
      simp only [List.map_cons, encodeItems_cons, List.length_append] at room input ⊢
      rw [List.append_assoc] at input
      obtain ⟨s₁, fieldRun, first⟩ := each (dec, item, v) List.mem_cons_self itemFits s _ rearmed
        (room.mono (Nat.le_add_right _ _)) input
      obtain ⟨s', restRun, later⟩ := decodeFieldsOf_items typ fields s₁ rest
        (fun f member => each f (List.mem_cons_of_mem _ member)) restFits first.rearmed (room.after first)
        (by rw [first.input, input, List.drop_left])
      refine ⟨s', ?_, first.trans later⟩
      rw [decodeFieldsOf, exec_bind, exec_attempt, fieldRun]
      simp only
      rw [exec_bind, restRun]
      rfl

/-- A struct's list that ends after the values of `fields`: the next field finds the end
of the list and the loop fails with "too few elements". -/
theorem decodeFields_too_few (typ extra : RType) (more : List RType) (ends : EndsAtEOL (makeDecoder extra)) :
    ∀ (fields : List RType), (∀ field ∈ fields, Decodes (makeDecoder field) field) →
      ∀ (vs : List Value) (s : Stream) (rest : List UInt8) (tos : ListPos) (outer : List ListPos),
        RType.holdsFields fields vs → Item.FitsAll (RType.itemFields fields vs) → s.kindAhead = none →
        s.Room (encodeItems (RType.itemFields fields vs)).length → s.stack = tos :: outer →
        tos.pos + (encodeItems (RType.itemFields fields vs)).length = tos.size →
        s.input = encodeItems (RType.itemFields fields vs) ++ rest →
        ∃ s', exec (decodeFields typ (fields ++ extra :: more)) s = (.error (.decode "too few elements" typ), s')
  | [], _, [], s, _, tos, outer, _, _, rearmed, _, stack, atEnd, _ => by
      have eol : Stream.atEOL s.stack = true := by
        simp only [RType.itemFields, encodeItems_nil, List.length_nil, Nat.add_zero] at atEnd
        simp [stack, Stream.atEOL, atEnd]
      refine ⟨{ s with kinderr := none }, ?_⟩
      rw [List.nil_append, decodeFields, exec_bind, exec_attempt, ends s rearmed eol]
      rfl
  | [], _, _ :: _, _, _, _, _, ok, _, _, _, _, _, _ => by simp [RType.holdsFields] at ok
  | field :: fields, each, vs, s, rest, tos, outer, ok, fits, rearmed, room, stack, atEnd, input => by
      obtain ⟨v, vs, rfl, fieldOk, restOk⟩ := holdsFields_cons.mp ok
      simp only [RType.itemFields, encodeItems_cons, List.length_append] at fits room atEnd input
      obtain ⟨vFits, restFits⟩ := fits
      rw [List.append_assoc] at input
      obtain ⟨s₁, fieldRun, first⟩ := each field List.mem_cons_self v fieldOk vFits s _ rearmed
        (room.mono (Nat.le_add_right _ _)) input
      have stack₁ : s₁.stack = { tos with pos := tos.pos + (field.item v).encode.length } :: outer := by
        rw [first.stack, stack]
        rfl
      obtain ⟨s', restRun⟩ := decodeFields_too_few typ extra more ends fields
        (fun f member => each f (List.mem_cons_of_mem field member)) vs s₁ rest _ outer restOk restFits
        first.rearmed (room.after first) stack₁ (by simp only; omega) (by rw [first.input, input, List.drop_left])
      refine ⟨s', ?_⟩
      rw [List.cons_append, decodeFields, exec_bind, exec_attempt, fieldRun]
      simp only
      rw [exec_bind, restRun]

/-- The tail of raw values reads the items left in the struct's list, each as its encoding. -/
theorem decodeTail_raw (items : List Item) (s : Stream) (rest : List UInt8) (tos : ListPos)
    (outer : List ListPos) (fits : Item.FitsAll items) (rearmed : s.kindAhead = none)
    (room : s.Room (encodeItems items).length) (stack : s.stack = tos :: outer)
    (atEnd : tos.pos + (encodeItems items).length = tos.size) (input : s.input = encodeItems items ++ rest) :
    ∃ s', exec (decodeTail decodeRawValue) s = (.ok (.list (items.map fun item => .bytes item.encode)), s') ∧
      Stream.Consumed s s' (encodeItems items).length := by
  have pairs : (items.map fun item => (item, Value.bytes item.encode)).map Prod.fst = items ∧
      (items.map fun item => (item, Value.bytes item.encode)).map Prod.snd =
        items.map fun item => .bytes item.encode := by
    simp [Function.comp_def]
  have rounds := length_le_encodeItems items
  have available : (encodeItems items).length ≤ s.input.length := by
    rw [input, List.length_append]
    exact Nat.le_add_right _ _
  have run := elemsUntilEOL_items decodeRawValue_endsAtEOL (throw .loopDiverges)
    (items.map fun item => (item, Value.bytes item.encode)) (s.input.length + 1) s rest tos outer
    (fun e member => by
      obtain ⟨item, -, rfl⟩ := List.mem_map.mp member
      exact decodeRawValue_reads item)
    (by simp only [List.length_map]; omega) (by rw [pairs.1]; exact fits) rearmed (by rw [pairs.1]; exact room)
    stack (by rw [pairs.1]; exact atEnd) (by rw [pairs.1]; exact input)
  rw [pairs.1, pairs.2] at run
  obtain ⟨s', elemsRun, consumed⟩ := run
  refine ⟨s', ?_, consumed⟩
  rw [decodeTail, exec_bind, exec_get]
  simp only
  rw [decodeSliceElems, exec_bind, elemsRun]
  rfl

/-- A `range` loop of writers writes what each writes, one after the other. -/
theorem writes_forM_flatMap {α : Type} {f : α → EncM Unit} {e : α → List UInt8} :
    ∀ xs : List α, (∀ x ∈ xs, Writes (f x) (e x)) → Writes (xs.forM f) (xs.flatMap e)
  | [], _ => by simpa using writes_pure
  | x :: xs, each => by
      rw [List.forM_eq_forM, List.forM_cons, List.flatMap_cons]
      exact writes_seq (each x List.mem_cons_self)
        (writes_forM_flatMap xs fun y member => each y (List.mem_cons_of_mem x member))

theorem writes_tail (raws : List (List UInt8)) : Writes (writeTail writeRawValue raws) raws.flatten := by
  rw [← List.flatMap_id']
  exact writes_forM_flatMap raws fun raw _ => writes_appendStr raw

theorem encodeItems_eq_flatMap (items : List Item) : encodeItems items = items.flatMap Item.encode := by
  induction items with
  | nil => rfl
  | cons item items rest => rw [encodeItems_cons, List.flatMap_cons, rest]

/-! ## Structs with a tail -/

theorem encodeWith_of_writes {x : EncM Unit} {e : List UInt8} (writes : Writes x e) : encodeWith x = .ok e := by
  obtain ⟨s, hs, k, run, -, -, render, -⟩ := writes { str := [], lheads := [], lhsize := 0 }
  simp only [List.nil_append, Nat.zero_add, List.length_nil] at run render
  simp only [encodeWith, run, GoLoop.ok_bind, Encbuf.toBytes, render]
  rfl

/-- A struct with a tail of raw values is written as the list of its fields' items and
the raw values as they are. -/
theorem writes_structWithTail (fields : List RType) (vs : List Value) (ok : RType.holdsFields fields vs)
    (raws : List (List UInt8)) (fits : (encodeItems (RType.itemFields fields vs) ++ raws.flatten).length < 2 ^ 64) :
    Writes (writeStructWithTail fields vs raws) (listBytes (encodeItems (RType.itemFields fields vs) ++ raws.flatten)) := by
  have grouped : writeStructWithTail fields vs raws = (do
      let lh ← list
      (do writeFields fields vs; writeTail writeRawValue raws)
      listEnd lh) := by
    simp only [writeStructWithTail, bind_assoc]
  rw [grouped]
  rw [List.length_append] at fits
  exact writes_list (writes_seq (writeFields_writes fields (fun field _ => writer_writes field) vs ok
    (by omega)) (writes_tail raws)) (by rw [List.length_append]; omega)

theorem listBytes_encodeItems (items : List Item) : listBytes (encodeItems items) = (Item.list items).encode := by
  rw [listBytes, encode_list]

/-- A struct with a tail of raw values reads back its fields' values and the encodings of
the tail's items. -/
theorem decodeStructWithTail_reads (typ : RType) (fields : List RType)
    (each : ∀ field ∈ fields, Decodes (makeDecoder field) field) (vs : List Value) (ok : RType.holdsFields fields vs)
    (items : List Item) :
    DecodesItem (decodeStructWithTail typ fields (decodeTail decodeRawValue))
      (.list (RType.itemFields fields vs ++ items)) (.list (vs ++ [.list (items.map fun item => .bytes item.encode)])) := by
  intro fits s rest rearmed room input
  obtain ⟨payloadFits, itemsFit⟩ := fits
  rw [fitsAll_iff] at itemsFit
  have fieldsFit : Item.FitsAll (RType.itemFields fields vs) :=
    fitsAll_iff.mpr fun item member => itemsFit item (List.mem_append_left _ member)
  have tailFit : Item.FitsAll items := fitsAll_iff.mpr fun item member => itemsFit item (List.mem_append_right _ member)
  rw [encode_list] at room input ⊢
  obtain ⟨listRun, openRoom⟩ := openList payloadFits rearmed room input
  have split := encodeItems_append (RType.itemFields fields vs) items
  set payload := encodeItems (RType.itemFields fields vs ++ items)
  set opened := s.opened payload.length (payload ++ rest)
  have openRoom' : opened.Room ((encodeItems (RType.itemFields fields vs)).length + (encodeItems items).length) := by
    rw [← List.length_append, ← split]
    exact openRoom
  obtain ⟨s₁, fieldsRun, first⟩ := decodeFields_decodes typ fields each vs opened (encodeItems items ++ rest) ok
    fieldsFit rfl (openRoom'.mono (Nat.le_add_right _ _)) (by simp [opened, Stream.opened, split])
  have stack₁ : s₁.stack = ⟨(encodeItems (RType.itemFields fields vs)).length, payload.length⟩ ::
      Stream.advance (header 0xC0 0xF7 payload.length).length s.stack := by
    rw [first.stack]
    simp [opened, Stream.opened, Stream.advance]
  obtain ⟨s₂, tailRun, second⟩ := decodeTail_raw items s₁ rest _ _ tailFit first.rearmed (openRoom'.after first)
    stack₁ (by rw [split, List.length_append]) (by rw [first.input]; simp [opened, Stream.opened, split])
  have body := first.trans second
  rw [← List.length_append, ← split] at body
  obtain ⟨w, closeRun, consumed⟩ := closeList input body
  refine ⟨w, ?_, consumed⟩
  have bodyRun : exec (do
      let vs ← decodeFields typ fields
      let t ← decodeTail decodeRawValue
      pure (vs ++ [t])) opened = (.ok (vs ++ [.list (items.map fun item => .bytes item.encode)]), s₂) := by
    rw [exec_bind_ok fieldsRun, exec_bind_ok tailRun]
    rfl
  rw [decodeStructWithTail, makeStructDecoder, exec_bind_ok (wrapped_exec_ok listRun), exec_bind_ok bodyRun,
    exec_bind_ok (wrapped_exec_ok closeRun)]
  rfl

/-- A struct whose list holds the values of only its first fields fails with "too few
elements", whatever its tail. -/
theorem decodeStructWithTail_too_few (typ : RType) (fields : List RType) (extra : RType) (more : List RType)
    (ends : EndsAtEOL (makeDecoder extra)) (each : ∀ field ∈ fields, Decodes (makeDecoder field) field)
    (vs : List Value) (ok : RType.holdsFields fields vs) (tail : StreamM Value) :
    FailsItem (decodeStructWithTail typ (fields ++ extra :: more) tail) (.list (RType.itemFields fields vs))
      (.decode "too few elements" typ) := by
  intro fits s rest rearmed room input
  obtain ⟨payloadFits, fieldsFit⟩ := fits
  rw [encode_list] at room input
  obtain ⟨listRun, openRoom⟩ := openList payloadFits rearmed room input
  obtain ⟨s', tooFew⟩ := decodeFields_too_few typ extra more ends fields each vs _ rest _ _ ok fieldsFit rfl
    openRoom rfl (Nat.zero_add _) rfl
  refine ⟨s', ?_⟩
  rw [decodeStructWithTail, makeStructDecoder, exec_bind_ok (wrapped_exec_ok listRun), exec_bind, exec_bind,
    tooFew]

/-! ## Structs over their field decoders, and failures inside lists -/

theorem Decodes.item {dec : StreamM Value} {t : RType} (decodes : Decodes dec t) {v : Value} (ok : t.holds v) :
    DecodesItem dec (t.item v) v :=
  decodes v ok

theorem makeStructDecoder_endsAtEOL (typ : RType) (body : StreamM (List Value)) :
    EndsAtEOL (makeStructDecoder typ body) := by
  intro s rearmed eol
  have listRun : exec Stream.list s = (.error .eol, { s with kinderr := none }) := kind_bind_exec_eol rearmed eol
  rw [makeStructDecoder, exec_bind, wrapped_exec_eol listRun]

/-- The struct decoder over the decoders of its fields reads the list of their items. -/
theorem decodeStructOf_items (typ : RType) (fields : List (StreamM Value × Item × Value))
    (each : ∀ f ∈ fields, DecodesItem f.1 f.2.1 f.2.2) :
    DecodesItem (makeStructDecoder typ (decodeFieldsOf typ (fields.map (·.1)))) (.list (fields.map (·.2.1)))
      (.list (fields.map (·.2.2))) := by
  intro fits s rest rearmed room input
  obtain ⟨payloadFits, itemsFit⟩ := fits
  rw [encode_list] at room input ⊢
  obtain ⟨listRun, openRoom⟩ := openList payloadFits rearmed room input
  obtain ⟨s', fieldsRun, body⟩ := decodeFieldsOf_items typ fields _ rest each itemsFit rfl openRoom
    (by simp [Stream.opened])
  obtain ⟨w, closeRun, consumed⟩ := closeList input body
  refine ⟨w, ?_, consumed⟩
  rw [makeStructDecoder, exec_bind_ok (wrapped_exec_ok listRun), exec_bind_ok fieldsRun,
    exec_bind_ok (wrapped_exec_ok closeRun)]
  rfl

/-- An element that fails with an error other than `EOL` fails the slice. -/
theorem decodeListSlice_fails (typ : RType) {elemdec : StreamM Value} {first : Item} {e : RlpError}
    (notEol : e ≠ .eol) (fails : FailsItem elemdec first e) (items : List Item) :
    FailsItem (decodeListSlice typ elemdec) (.list (first :: items)) e := by
  intro fits s rest rearmed room input
  obtain ⟨payloadFits, firstFits, -⟩ := fits
  rw [encode_list] at room input
  obtain ⟨listRun, openRoom⟩ := openList payloadFits rearmed room input
  obtain ⟨s', elemRun⟩ := fails firstFits _ (encodeItems items ++ rest) rfl
    (openRoom.mono (length_encode_le_of_mem List.mem_cons_self)) (by simp [Stream.opened])
  have nonempty : (encodeItems (first :: items)).length ≠ 0 := by
    simp [encode_ne_nil]
  refine ⟨s', ?_⟩
  rw [decodeListSlice, exec_bind_ok (wrapped_exec_ok listRun), if_neg nonempty, exec_bind, decodeSliceElems,
    elemsUntilEOL, exec_bind, exec_attempt, elemRun]
  cases e <;> first | exact absurd rfl notEol | rfl

/-- A first field that fails with an error other than `EOL` fails the struct. -/
theorem decodeStructOf_fails (typ : RType) {dec : StreamM Value} (decs : List (StreamM Value)) {first : Item}
    {e : RlpError} (notEol : e ≠ .eol) (fails : FailsItem dec first e) (items : List Item) :
    FailsItem (makeStructDecoder typ (decodeFieldsOf typ (dec :: decs))) (.list (first :: items)) e := by
  intro fits s rest rearmed room input
  obtain ⟨payloadFits, firstFits, -⟩ := fits
  rw [encode_list] at room input
  obtain ⟨listRun, openRoom⟩ := openList payloadFits rearmed room input
  obtain ⟨s', fieldRun⟩ := fails firstFits _ (encodeItems items ++ rest) rfl
    (openRoom.mono (length_encode_le_of_mem List.mem_cons_self)) (by simp [Stream.opened])
  refine ⟨s', ?_⟩
  rw [makeStructDecoder, exec_bind_ok (wrapped_exec_ok listRun), exec_bind, decodeFieldsOf, exec_bind,
    exec_attempt, fieldRun]
  cases e <;> first | exact absurd rfl notEol | rfl

/-! ## Decoding a whole input -/

theorem reset_room (input : List UInt8) : (Stream.reset input).Room input.length :=
  ⟨fun _ member => by simp [Stream.reset] at member, fun _ => le_refl _⟩

theorem DecodesItem.decode {dec : StreamM Value} {item : Item} {v : Value} (reads : DecodesItem dec item v)
    (fits : item.Fits) : Stream.decode dec item.encode = .ok v := by
  obtain ⟨s', run, -⟩ := reads fits (Stream.reset item.encode) [] rfl (reset_room _) (by simp [Stream.reset])
  rw [Stream.decode, run]

theorem FailsItem.decode {dec : StreamM Value} {item : Item} {e : RlpError} (fails : FailsItem dec item e)
    (fits : item.Fits) : Stream.decode dec item.encode = .error e := by
  obtain ⟨s', run⟩ := fails fits (Stream.reset item.encode) [] rfl (reset_room _) (by simp [Stream.reset])
  rw [Stream.decode, run]

end SimpleChain.Rlp
