import Mathlib
import SimpleChain.Rlp.Encode

/-! # The buffer written out and read out (`rlp/encode.go`)

Besides `toBytes`, an `encbuf` reaches its caller two more ways: `toWriter`, which `Encode` uses,
writes the string data up to each list header, the header, and the data after the last one; and
the `encReader` that `EncodeToReader` returns hands out the same pieces through `Read`, a piece
that does not fit the caller's buffer being kept for the next call.

Over a buffer whose headers are in order and inside the string data (as the writers leave it),
the writes of `toWriter` join to `toBytes`, and so do the reads of any sequence of buffer sizes:
each `Read` returns the next bytes of `toBytes`, as many as fit, and reports EOF exactly when
nothing is left.  The writer is a byte sink that takes each write whole. -/
set_option autoImplicit false

namespace SimpleChain.Rlp

open GoLoop

/-! ## `toWriter` -/

/-- The loop of `toWriter`: the writes made, and where `strpos` ends. -/
def toWriterLoop (str : List UInt8) (strpos : Nat) : List Listhead → List (List UInt8) × Nat
  | [] => ([], strpos)
  | head :: heads =>
    -- write string data before header
    if head.offset - strpos > 0 then
      let chunk := (str.drop strpos).take (head.offset - strpos)
      let rest := toWriterLoop str (strpos + chunk.length) heads
      (chunk :: head.encode :: rest.1, rest.2)
    else
      let rest := toWriterLoop str strpos heads
      (head.encode :: rest.1, rest.2)

def Encbuf.toWriter (w : Encbuf) : List (List UInt8) :=
  let loop := toWriterLoop w.str 0 w.lheads
  -- write string data after the last list header
  if loop.2 < w.str.length then loop.1 ++ [w.str.drop loop.2] else loop.1

def encodeToWriter (t : RType) (v : Value) : Except RlpError (List (List UInt8)) := do
  let ((), w) ← (writer t v).run { str := [], lheads := [], lhsize := 0 }
  pure w.toWriter

/-- What the writers leave: headers in order, none past the string data. -/
structure Encbuf.Ordered (w : Encbuf) : Prop where
  above : Above 0 w.lheads
  inside : ∀ head ∈ w.lheads, head.offset ≤ w.str.length

theorem Listhead.encode_ne_nil (head : Listhead) : head.encode ≠ [] := by
  unfold Listhead.encode puthead
  split <;> simp

/-- From `strpos` on, the writes and the data after them render as `toBytes` does. -/
theorem toWriterLoop_render (str : List UInt8) :
    ∀ (heads : List Listhead) (p : Nat), p ≤ str.length → Above p heads →
      (∀ head ∈ heads, head.offset ≤ str.length) →
      (toWriterLoop str p heads).1.flatten ++ str.drop (toWriterLoop str p heads).2 =
        toBytesAux str p heads ∧ (toWriterLoop str p heads).2 ≤ str.length
  | [], p, inside, _, _ => by simp [toWriterLoop, toBytesAux, inside]
  | head :: heads, p, _, ⟨after, above⟩, within => by
    have headInside := within head List.mem_cons_self
    have rest := toWriterLoop_render str heads head.offset headInside above
      (fun h member => within h (List.mem_cons_of_mem _ member))
    rw [toBytesAux_cons after headInside]
    unfold toWriterLoop
    split
    case isTrue before =>
      have chunkLength : ((str.drop p).take (head.offset - p)).length = head.offset - p := by
        simp only [List.length_take, List.length_drop]
        omega
      dsimp only
      rw [chunkLength, Nat.add_sub_cancel' after]
      simpa using rest
    case isFalse atHeader =>
      have same : head.offset = p := by omega
      rw [same] at rest
      simpa [same] using rest

theorem Encbuf.toWriter_flatten {w : Encbuf} (ordered : w.Ordered) : w.toWriter.flatten = w.toBytes := by
  obtain ⟨render, within⟩ := toWriterLoop_render w.str w.lheads 0 (Nat.zero_le _) ordered.above ordered.inside
  rw [Encbuf.toWriter, Encbuf.toBytes, ← render]
  split
  case isTrue => simp
  case isFalse done =>
    simp [List.drop_eq_nil_of_le (show w.str.length ≤ (toWriterLoop w.str 0 w.lheads).2 by omega)]

/-! ## `encReader` -/

structure EncReader where
  /-- the buffer we're reading from; nil at EOF -/
  buf : Option Encbuf
  /-- index of list header that we're reading -/
  lhpos : Nat
  /-- current position in string buffer -/
  strpos : Nat
  /-- next piece to be read -/
  piece : Option (List UInt8)

def EncReader.next (r : EncReader) : EncReader × Option (List UInt8) :=
  match r.buf, r.piece with
  | none, _ => (r, none)
  -- there is still data available for reading
  | some _, some piece => (r, some piece)
  | some buf, none =>
    match buf.lheads[r.lhpos]? with
    | some head =>
      let sizebefore := head.offset - r.strpos
      if sizebefore > 0 then
        -- string data before header
        ({ r with strpos := r.strpos + sizebefore }, some ((buf.str.drop r.strpos).take sizebefore))
      else ({ r with lhpos := r.lhpos + 1 }, some head.encode)
    | none =>
      -- string data at the end, after all list headers
      if r.strpos < buf.str.length then ({ r with strpos := buf.str.length }, some (buf.str.drop r.strpos))
      else (r, none)

/-- The loop of `Read(b)` with `len(b) = size`, `out` the bytes copied so far, for at most
`fuel` pieces: the reader after, the bytes read, and whether it returned EOF. -/
def readLoop (size : Nat) : Nat → EncReader → List UInt8 → EncReader × List UInt8 × Bool
  | 0, r, out => (r, out, false)
  | fuel + 1, r, out =>
    match r.next with
    -- the buffer is released at EOF
    | (r, none) => ({ r with buf := none, piece := none }, out, true)
    | (r, some piece) =>
      let nn := min (size - out.length) piece.length
      let out := out ++ piece.take nn
      -- a piece that did not fit is kept for the next call
      if nn < piece.length then ({ r with piece := some (piece.drop nn) }, out, false)
      else readLoop size fuel { r with piece := none } out

/-- `Read(b)` with `len(b) = size`; every piece copied whole is at least a byte, so `size + 1`
pieces are as many as one call can reach. -/
def EncReader.read (r : EncReader) (size : Nat) : EncReader × List UInt8 × Bool :=
  readLoop size (size + 1) r []

def encodeToReader (t : RType) (v : Value) : Except RlpError (Nat × EncReader) := do
  let ((), w) ← (writer t v).run { str := [], lheads := [], lhsize := 0 }
  pure (w.size, { buf := some w, lhpos := 0, strpos := 0, piece := none })

/-- Successive `Read` calls with buffers of the given sizes: what each returned, and whether it
returned EOF. -/
def EncReader.readAll : EncReader → List Nat → List (List UInt8 × Bool)
  | _, [] => []
  | r, size :: sizes =>
    let call := r.read size
    (call.2.1, call.2.2) :: call.1.readAll sizes

def EncReader.rest (r : EncReader) : List UInt8 :=
  match r.buf with
  | none => []
  | some buf => r.piece.getD [] ++ toBytesAux buf.str r.strpos (buf.lheads.drop r.lhpos)

/-- The headers left are in order from `strpos`, inside the data, and a kept piece is not
empty. -/
def EncReader.Valid (r : EncReader) : Prop :=
  ∀ buf, r.buf = some buf → Above r.strpos (buf.lheads.drop r.lhpos) ∧
    (∀ head ∈ buf.lheads, head.offset ≤ buf.str.length) ∧ r.strpos ≤ buf.str.length ∧ r.piece ≠ some []

/-- A reader over `bytes`, read into buffers of the given sizes: each call returns the next
bytes, as many as fit, and reports EOF when it has reached the end. -/
def readsOf (bytes : List UInt8) : List Nat → List (List UInt8 × Bool)
  | [] => []
  | size :: sizes => (bytes.take size, decide (bytes.length ≤ size)) :: readsOf (bytes.drop size) sizes

theorem readsOf_flatten : ∀ (bytes : List UInt8) (sizes : List Nat),
    ((readsOf bytes sizes).map Prod.fst).flatten = bytes.take sizes.sum
  | _, [] => by simp [readsOf]
  | bytes, size :: sizes => by
    rw [readsOf, List.map_cons, List.flatten_cons, readsOf_flatten (bytes.drop size) sizes, List.sum_cons,
      List.take_add]

namespace EncReader

theorem rest_withPiece {r : EncReader} (open_ : r.buf ≠ none) (piece : List UInt8) :
    { r with piece := some piece }.rest = piece ++ { r with piece := none }.rest := by
  obtain ⟨_ | buf, lhpos, strpos, kept⟩ := r
  · exact absurd rfl open_
  · simp [rest]

theorem Valid.withPiece {r : EncReader} (valid : { r with piece := none }.Valid) {piece : List UInt8}
    (nonempty : piece ≠ []) : { r with piece := some piece }.Valid := by
  intro buf open_
  obtain ⟨above, inside, within, -⟩ := valid buf open_
  exact ⟨above, inside, within, fun e => nonempty (Option.some.inj e)⟩

theorem next_none {r r' : EncReader} (valid : r.Valid) (step : r.next = (r', none)) : r.rest = [] := by
  obtain ⟨_ | buf, lhpos, strpos, _ | piece⟩ := r
  · rfl
  · rfl
  · simp only [next] at step
    split at step
    · split at step <;> simp at step
    · rename_i noHead
      split at step
      · simp at step
      · rename_i atEnd
        have drained : buf.lheads.drop lhpos = [] := List.drop_eq_nil_of_le (List.getElem?_eq_none_iff.mp noHead)
        simp only [rest, Option.getD_none, List.nil_append, drained, toBytesAux]
        exact List.drop_eq_nil_of_le (by omega)
  · simp [next] at step

/-- `next` hands out a piece of what is left, never an empty one, and leaves the rest. -/
theorem next_some {r r' : EncReader} {piece : List UInt8} (valid : r.Valid) (step : r.next = (r', some piece)) :
    piece ≠ [] ∧ r.rest = piece ++ { r' with piece := none }.rest ∧ { r' with piece := none }.Valid ∧
      r'.buf ≠ none := by
  obtain ⟨_ | buf, lhpos, strpos, kept⟩ := r
  · simp [next] at step
  obtain ⟨above, inside, within, notEmpty⟩ := valid buf rfl
  dsimp only at above within notEmpty
  cases kept with
  | some kept =>
    -- the rest of a piece that did not fit
    simp only [next, Prod.mk.injEq, Option.some.injEq] at step
    obtain ⟨rfl, rfl⟩ := step
    exact ⟨fun e => notEmpty (congrArg some e), by simp [rest],
      fun buf' same => by cases same; exact ⟨above, inside, within, by simp⟩, by simp⟩
  | none =>
    simp only [next] at step
    split at step
    case h_1 head atHead =>
      obtain ⟨lt, rfl⟩ := List.getElem?_eq_some_iff.mp atHead
      have split : buf.lheads.drop lhpos = buf.lheads[lhpos] :: buf.lheads.drop (lhpos + 1) :=
        List.drop_eq_getElem_cons lt
      rw [split] at above
      obtain ⟨after, later⟩ := above
      have headInside := inside _ (List.getElem_mem lt)
      have rendered : toBytesAux buf.str strpos (buf.lheads.drop lhpos) =
          (buf.str.drop strpos).take (buf.lheads[lhpos].offset - strpos) ++ buf.lheads[lhpos].encode ++
            toBytesAux buf.str buf.lheads[lhpos].offset (buf.lheads.drop (lhpos + 1)) := by
        rw [split, toBytesAux_cons after headInside]
      split at step
      case isTrue before =>
        -- the string data before the header
        simp only [Prod.mk.injEq, Option.some.injEq] at step
        obtain ⟨rfl, rfl⟩ := step
        have reached : strpos + (buf.lheads[lhpos].offset - strpos) = buf.lheads[lhpos].offset := by omega
        refine ⟨?_, ?_, fun buf' same => ?_, by simp⟩
        · rw [← List.length_pos_iff, List.length_take, List.length_drop]
          omega
        · simp only [rest, Option.getD_none, List.nil_append, reached]
          rw [rendered, split, toBytesAux_cons le_rfl headInside, Nat.sub_self, List.take_zero, List.nil_append,
            List.append_assoc]
        · cases same
          simp only [reached, split]
          exact ⟨⟨le_rfl, later⟩, inside, headInside, by simp⟩
      case isFalse atHeader =>
        -- the header itself
        simp only [Prod.mk.injEq, Option.some.injEq] at step
        obtain ⟨rfl, rfl⟩ := step
        have same : buf.lheads[lhpos].offset = strpos := by omega
        refine ⟨Listhead.encode_ne_nil _, ?_, fun buf' sameBuf => ?_, by simp⟩
        · simp only [rest, Option.getD_none, List.nil_append, rendered, same, Nat.sub_self, List.take_zero]
        · cases sameBuf
          exact ⟨same ▸ later, inside, within, by simp⟩
    case h_2 noHead =>
      split at step
      case isTrue before =>
        -- the string data after the last header
        simp only [Prod.mk.injEq, Option.some.injEq] at step
        obtain ⟨rfl, rfl⟩ := step
        have drained : buf.lheads.drop lhpos = [] := List.drop_eq_nil_of_le (List.getElem?_eq_none_iff.mp noHead)
        refine ⟨?_, ?_, fun buf' same => ?_, by simp⟩
        · rw [← List.length_pos_iff, List.length_drop]
          omega
        · simp [rest, drained, toBytesAux]
        · cases same
          simp only [drained]
          exact ⟨trivial, inside, le_rfl, by simp⟩
      case isFalse => simp at step

/-- The loop of `Read`, with room for `size - out.length` more bytes and fuel for one more
piece than that: the next bytes of what is left, as many as fit, and EOF exactly when they are
all there is. -/
theorem readLoop_spec (size : Nat) : ∀ (fuel : Nat) (r : EncReader) (out : List UInt8), r.Valid →
    out.length ≤ size → size - out.length < fuel →
    (readLoop size fuel r out).2.1 = out ++ r.rest.take (size - out.length) ∧
      (readLoop size fuel r out).1.rest = r.rest.drop (size - out.length) ∧
      ((readLoop size fuel r out).2.2 = true ↔ r.rest.length ≤ size - out.length) ∧
      (readLoop size fuel r out).1.Valid
  | 0, _, _, _, _, enough => absurd enough (Nat.not_lt_zero _)
  | fuel + 1, r, out, valid, room, enough => by
    unfold readLoop
    split
    case h_1 r' step =>
      have empty := next_none valid step
      refine ⟨?_, ?_, ?_, fun _ open_ => by cases open_⟩
      · rw [empty, List.take_nil, List.append_nil]
      · rw [empty, List.drop_nil]
        rfl
      · rw [empty]
        simp
    case h_2 r' piece step =>
      obtain ⟨nonempty, rest_eq, kept, open_⟩ := next_some valid step
      have pos : 0 < piece.length := List.length_pos_iff.mpr nonempty
      dsimp only
      split
      case isTrue short =>
        -- the piece does not fit: as much as fits, and the rest kept
        have fill : min (size - out.length) piece.length = size - out.length := by omega
        rw [fill] at short ⊢
        refine ⟨?_, ?_, ?_, kept.withPiece (by simpa using short)⟩
        · rw [rest_eq, List.take_append_of_le_length (by omega)]
        · rw [rest_withPiece open_, rest_eq, List.drop_append_of_le_length (by omega)]
        · simp only [Bool.false_eq_true, false_iff, not_le, rest_eq, List.length_append]
          omega
      case isFalse fits =>
        -- the whole piece fits: on to the next one
        have whole : min (size - out.length) piece.length = piece.length := by omega
        rw [whole, List.take_of_length_le le_rfl]
        have room' : (out ++ piece).length ≤ size := by simp only [List.length_append]; omega
        have enough' : size - (out ++ piece).length < fuel := by simp only [List.length_append]; omega
        obtain ⟨bytes, rest', eof, valid'⟩ := readLoop_spec size fuel _ _ kept room' enough'
        have space : size - out.length = piece.length + (size - (out ++ piece).length) := by
          simp only [List.length_append]
          omega
        refine ⟨?_, ?_, ?_, valid'⟩
        · rw [bytes, rest_eq, space, List.take_append, List.take_of_length_le (Nat.le_add_right _ _),
            Nat.add_sub_cancel_left, List.append_assoc]
        · rw [rest', rest_eq, space, List.drop_append, List.drop_of_length_le (Nat.le_add_right _ _),
            List.nil_append, Nat.add_sub_cancel_left]
        · rw [eof, rest_eq, space]
          simp only [List.length_append]
          omega

/-- `Read(b)` returns the next `len(b)` bytes of what is left, or all of them, and EOF exactly
when they are all. -/
theorem read_spec {r : EncReader} (valid : r.Valid) (size : Nat) :
    (r.read size).2.1 = r.rest.take size ∧ (r.read size).1.rest = r.rest.drop size ∧
      ((r.read size).2.2 = decide (r.rest.length ≤ size)) ∧ (r.read size).1.Valid := by
  obtain ⟨bytes, rest', eof, valid'⟩ := readLoop_spec size (size + 1) r [] valid (by simp) (by simp)
  simp only [List.length_nil, Nat.sub_zero, List.nil_append] at bytes rest' eof
  refine ⟨bytes, rest', ?_, valid'⟩
  rw [EncReader.read, Bool.eq_iff_iff, decide_eq_true_iff]
  exact eof

theorem readAll_eq_readsOf : ∀ (r : EncReader) (sizes : List Nat), r.Valid → r.readAll sizes = readsOf r.rest sizes
  | _, [], _ => rfl
  | r, size :: sizes, valid => by
    obtain ⟨bytes, rest', eof, valid'⟩ := read_spec valid size
    rw [readAll, readsOf, bytes, eof, readAll_eq_readsOf _ sizes valid', rest']

end EncReader

theorem Encbuf.Ordered.reader {w : Encbuf} (ordered : w.Ordered) :
    EncReader.Valid { buf := some w, lhpos := 0, strpos := 0, piece := none } ∧
      EncReader.rest { buf := some w, lhpos := 0, strpos := 0, piece := none } = w.toBytes := by
  refine ⟨fun buf same => ?_, by simp [EncReader.rest, Encbuf.toBytes]⟩
  cases same
  exact ⟨ordered.above, ordered.inside, Nat.zero_le _, by simp⟩

/-- For every value of its type, the buffer rendered by `toBytes`, written by `toWriter` and
read through `encReader` with buffers of any sizes gives the item's encoding, whose length is
the size `EncodeToReader` returns. -/
theorem lazy_headers_render_item_everywhere (t : RType) (v : Value) (ok : t.holds v)
    (fits : (t.item v).encode.length < 2 ^ 64) :
    encodeToBytes t v = .ok (t.item v).encode ∧
      (encodeToWriter t v).map List.flatten = .ok (t.item v).encode ∧
      ∃ r, encodeToReader t v = .ok ((t.item v).encode.length, r) ∧
        ∀ sizes : List Nat, r.readAll sizes = readsOf (t.item v).encode sizes ∧
          ((r.readAll sizes).map Prod.fst).flatten = (t.item v).encode.take sizes.sum := by
  obtain ⟨s, hs, k, run, above, inside, render, size⟩ :=
    writer_writes t v ok fits { str := [], lheads := [], lhsize := 0 }
  simp only [List.nil_append, Nat.zero_add, List.length_nil] at run render above inside
  have ordered : Encbuf.Ordered { str := s, lheads := hs, lhsize := k } := ⟨above, inside⟩
  have rendered : Encbuf.toBytes { str := s, lheads := hs, lhsize := k } = (t.item v).encode := render
  obtain ⟨valid, rest⟩ := ordered.reader
  refine ⟨encodeToBytes_eq_encode t v ok fits, ?_,
    { buf := some { str := s, lheads := hs, lhsize := k }, lhpos := 0, strpos := 0, piece := none }, ?_,
    fun sizes => ?_⟩
  · simp only [encodeToWriter, run, ok_bind]
    show Except.ok (Encbuf.toWriter _).flatten = _
    rw [Encbuf.toWriter_flatten ordered, rendered]
  · simp only [encodeToReader, run, ok_bind, Encbuf.size, size]
    rfl
  · rw [EncReader.readAll_eq_readsOf _ sizes valid, rest, rendered]
    exact ⟨rfl, readsOf_flatten _ sizes⟩

theorem lazy_headers_render_item_everywhere_on_nested_list :
    encodeToBytes .iface (.list [.bytes [1, 2], .list []]) = .ok (RType.iface.item (.list [.bytes [1, 2], .list []])).encode ∧
      (encodeToWriter .iface (.list [.bytes [1, 2], .list []])).map List.flatten =
        .ok (RType.iface.item (.list [.bytes [1, 2], .list []])).encode ∧
      ∃ r, encodeToReader .iface (.list [.bytes [1, 2], .list []]) =
          .ok ((RType.iface.item (.list [.bytes [1, 2], .list []])).encode.length, r) ∧
        ∀ sizes : List Nat, r.readAll sizes = readsOf (RType.iface.item (.list [.bytes [1, 2], .list []])).encode sizes ∧
          ((r.readAll sizes).map Prod.fst).flatten =
            (RType.iface.item (.list [.bytes [1, 2], .list []])).encode.take sizes.sum :=
  lazy_headers_render_item_everywhere .iface (.list [.bytes [1, 2], .list []]) (by decide) (by decide)

end SimpleChain.Rlp
