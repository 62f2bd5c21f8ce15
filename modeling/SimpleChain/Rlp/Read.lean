import Mathlib
import SimpleChain.Rlp.Stream
import SimpleChain.Rlp.Encode

/-! # Reading well-formed input

The stream operations run on the bytes of a well-formed item: `Kind` reads its
header, `Bytes`, `uint` and `List` read the rest, `ListEnd` closes a list read to
its end.  A read of `n` bytes from a rearmed stream leaves it `Consumed`: the
reader `n` bytes on, the innermost list and the input limit booked, `Kind`
rearmed.  Each lemma needs the bytes to fit (`Room`); that is what `Kind` checks
of a size before anything is read. -/
set_option autoImplicit false

namespace SimpleChain.Rlp

open BigEndian StateExcept

namespace Stream

/-- `n` more bytes fit in the innermost list and in the input limit. -/
def Room (s : Stream) (n : Nat) : Prop :=
  (∀ tos ∈ s.stack.head?, n ≤ tos.size - tos.pos) ∧ (s.limited = true → n ≤ s.remaining)

/-- The stack once `n` more bytes of the innermost list are read. -/
def advance (n : Nat) : List ListPos → List ListPos
  | [] => []
  | tos :: outer => { tos with pos := tos.pos + n } :: outer

/-- What `willRead n` leaves: `n` bytes booked and `Kind` rearmed. -/
def book (s : Stream) (n : Nat) : Stream :=
  { s with stack := advance n s.stack, kindAhead := none
           remaining := if s.limited then s.remaining - n else s.remaining }

/-- `s'` is `s` with `n` bytes read and `Kind` rearmed; what `Kind` cached last
(size, single byte, error) is left as the reads left it. -/
structure Consumed (s s' : Stream) (n : Nat) : Prop where
  input : s'.input = s.input.drop n
  stack : s'.stack = advance n s.stack
  remaining : s'.remaining = if s.limited then s.remaining - n else s.remaining
  limited : s'.limited = s.limited
  rearmed : s'.kindAhead = none

theorem advance_advance (m n : Nat) (stack : List ListPos) :
    advance n (advance m stack) = advance (m + n) stack := by
  cases stack with
  | nil => rfl
  | cons tos outer => simp [advance, Nat.add_assoc]

@[simp] theorem advance_zero (stack : List ListPos) : advance 0 stack = stack := by
  cases stack <;> rfl

/-- Closing a list books its whole size in the enclosing one. -/
theorem popList_eq_advance (tos : ListPos) (stack : List ListPos) : popList tos stack = advance tos.size stack := by
  cases stack <;> rfl

theorem Consumed.trans {s s₁ s₂ : Stream} {m n : Nat} (first : Consumed s s₁ m)
    (second : Consumed s₁ s₂ n) : Consumed s s₂ (m + n) where
  input := by rw [second.input, first.input, List.drop_drop]
  stack := by rw [second.stack, first.stack, advance_advance]
  remaining := by
    rw [second.remaining, first.limited, first.remaining]
    cases s.limited with
    | false => rfl
    | true => simp only [if_true]; omega
  limited := by rw [second.limited, first.limited]
  rearmed := second.rearmed

theorem Room.mono {s : Stream} {m n : Nat} (room : s.Room n) (le : m ≤ n) : s.Room m :=
  ⟨fun tos member => Nat.le_trans le (room.1 tos member), fun limited => Nat.le_trans le (room.2 limited)⟩

/-- What is left of the room once the first `m` bytes are read. -/
theorem Room.after {s s' : Stream} {m n : Nat} (room : s.Room (m + n)) (read : Consumed s s' m) :
    s'.Room n := by
  constructor
  · intro tos member
    rw [read.stack] at member
    cases stack : s.stack with
    | nil => simp [stack, advance] at member
    | cons top outer =>
        rw [stack] at member
        simp only [advance, List.head?_cons, Option.mem_def, Option.some.injEq] at member
        subst member
        have := room.1 top (by simp [stack])
        simp only
        omega
  · intro limited
    rw [read.remaining, ← read.limited, limited, if_pos rfl]
    have := room.2 (read.limited ▸ limited)
    omega

theorem not_atEOL_of_room {s : Stream} {n : Nat} (room : s.Room n) (pos : 0 < n) :
    atEOL s.stack = false := by
  cases stack : s.stack with
  | nil => rfl
  | cons tos outer =>
      have := room.1 tos (by simp [stack])
      simp only [atEOL, beq_eq_false_iff_ne, ne_eq]
      omega

/-! ## Booking and reading bytes -/

theorem exec_willRead {s : Stream} {n : Nat} (room : s.Room n) : exec (willRead n) s = (.ok (), s.book n) := by
  unfold willRead rearm bookList bookLimit
  cases stack : s.stack with
  | nil =>
      have limit := room.2
      cases limited : s.limited with
      | false => simp [exec_bind, stack, limited, book, advance]
      | true =>
          have fits := limit limited
          simp [exec_bind, stack, limited, book, advance, Nat.not_lt.mpr fits]
  | cons tos outer =>
      have fitsList := room.1 tos (by simp [stack])
      have limit := room.2
      cases limited : s.limited with
      | false => simp [exec_bind, stack, limited, book, advance, Nat.not_lt.mpr fitsList]
      | true =>
          have fits := limit limited
          simp [exec_bind, stack, limited, book, advance, Nat.not_lt.mpr fitsList, Nat.not_lt.mpr fits]

theorem exec_readByte {s : Stream} {b : UInt8} {rest : List UInt8} (room : s.Room 1)
    (input : s.input = b :: rest) : exec readByte s = (.ok b, { s.book 1 with input := rest }) := by
  unfold readByte
  rw [exec_bind_ok (exec_willRead room)]
  simp [exec_bind, exec_map, book, input]

theorem exec_readFull {s : Stream} {bytes rest : List UInt8} (room : s.Room bytes.length)
    (input : s.input = bytes ++ rest) :
    exec (readFull bytes.length) s = (.ok bytes, { s.book bytes.length with input := rest }) := by
  unfold readFull
  rw [exec_bind_ok (exec_willRead room)]
  simp [exec_bind, exec_map, book, input]

theorem room_book {s : Stream} {m n : Nat} (room : s.Room (m + n)) : (s.book m).Room n := by
  constructor
  · intro tos member
    cases stack : s.stack with
    | nil => simp [book, stack, advance] at member
    | cons top outer =>
        simp only [book, stack, advance, List.head?_cons, Option.mem_def, Option.some.injEq] at member
        subst member
        have := room.1 top (by simp [stack])
        simp only
        omega
  · intro limited
    simp only [book] at limited ⊢
    rw [if_pos limited]
    have := room.2 limited
    omega

theorem remaining_book_book (s : Stream) (m n : Nat) :
    (if s.limited then (if s.limited then s.remaining - m else s.remaining) - n
      else if s.limited then s.remaining - m else s.remaining) =
      if s.limited then s.remaining - (m + n) else s.remaining := by
  by_cases limited : s.limited = true
  · simp only [limited, if_true]
    omega
  · simp only [limited, Bool.false_eq_true, if_false]

/-- Two bookings in a row book their sum. -/
theorem book_book (s : Stream) (m n : Nat) (input input' : List UInt8) (byteval : UInt8) :
    { Stream.book { s.book m with input := input, byteval := byteval } n with input := input' } =
      { s.book (m + n) with input := input', byteval := byteval } := by
  simp only [book, advance_advance]
  congr 1
  exact remaining_book_book s m n

/-- Reading `n` more bytes after a booking of `m` has consumed `m + n`. -/
theorem consumed_book {s t : Stream} {m n : Nat} {rest : List UInt8}
    (stack : t.stack = advance m s.stack)
    (remaining : t.remaining = if s.limited then s.remaining - m else s.remaining)
    (limited : t.limited = s.limited) (input : s.input.drop (m + n) = rest) :
    Consumed s { t.book n with input := rest } (m + n) where
  input := input.symm
  stack := by simp [book, stack, advance_advance]
  remaining := by simp only [book, limited, remaining, remaining_book_book]
  limited := limited
  rearmed := rfl

/-! ## Sizes and tags -/

theorem readUint_long {n : Nat} (two : 2 ≤ n) :
    readUint n = (do
      let buf ← readFull n
      if buf.head? = some 0 then throw .canonSize else pure (ofBE buf)) := by
  match n, two with
  | k + 2, _ => rfl

theorem exec_readUint_minBE {s : Stream} {v : Nat} {rest : List UInt8} (pos : 0 < v)
    (room : s.Room (minBE v).length) (input : s.input = minBE v ++ rest) :
    exec (readUint (minBE v).length) s = (.ok v, { s.book (minBE v).length with input := rest }) := by
  have canonical := head_minBE v
  have value := ofBE_minBE v
  match digits : minBE v, room, input with
  | [], _, _ =>
      have : ofBE [] = v := digits ▸ value
      simp at this
      omega
  | [b], room, input =>
      rw [digits] at value
      have byteValue : b.toNat = v := by simpa [ofBE_cons] using value
      simp only [List.length_singleton, readUint] at room ⊢
      rw [exec_bind_ok (exec_readByte room input)]
      simp [byteValue]
  | b :: c :: more, room, input =>
      rw [readUint_long (by simp), exec_bind_ok (exec_readFull room input)]
      rw [digits] at canonical value
      simp only [canonical, if_false, exec_pure, value]

/-- A header byte below 256: a tag plus a small count. -/
theorem toNat_tag {tag : UInt8} {n : Nat} (fits : tag.toNat + n < 256) :
    (tag + UInt8.ofNat n).toNat = tag.toNat + n := by
  rw [UInt8.toNat_add, UInt8.toNat_ofNat', Nat.mod_eq_of_lt (by omega : n < 2 ^ 8)]
  exact Nat.mod_eq_of_lt fits

/-- The string and list tags `readKind` tells apart. -/
inductive Tags : Kind → UInt8 → UInt8 → Prop where
  | string : Tags .string 0x80 0xB7
  | list : Tags .list 0xC0 0xF7

theorem length_minBE_pos {v : Nat} (pos : 0 < v) : 0 < (minBE v).length := by
  have := (length_minBE_le_iff v 0).not.mpr (by omega)
  omega

theorem length_minBE_le_eight {v : Nat} (fits : v < 2 ^ 64) : (minBE v).length ≤ 8 :=
  (length_minBE_le_iff v 8).mpr (by simpa using fits)

theorem exec_readSize {s : Stream} {k : Kind} {v : Nat} {rest : List UInt8} (long : 56 ≤ v)
    (room : s.Room (minBE v).length) (input : s.input = minBE v ++ rest) :
    exec (readSize k (minBE v).length) s = (.ok (k, v, none), { s.book (minBE v).length with input := rest }) := by
  unfold readSize
  rw [exec_bind, exec_attempt, exec_readUint_minBE (by omega) room input]
  simp [Nat.not_lt.mpr long]

theorem exec_readKind_single {s : Stream} {b : UInt8} {more : List UInt8} (room : s.Room 1)
    (input : s.input = b :: more) (small : b.toNat < 128) :
    exec readKind s = (.ok (.byte, 0, none), { s.book 1 with input := more, byteval := b }) := by
  unfold readKind
  rw [exec_bind, exec_attempt, exec_readByte room input]
  have below : b < 0x80 := UInt8.lt_iff_toNat_lt.mpr small
  simp [exec_bind, exec_map, below]

theorem exec_readKind_header {s : Stream} {k : Kind} {small large : UInt8} (tags : Tags k small large)
    {size : Nat} {more : List UInt8} (fits : size < 2 ^ 64)
    (room : s.Room (header small large size).length) (input : s.input = header small large size ++ more) :
    exec readKind s =
      (.ok (k, size, none), { s.book (header small large size).length with input := more, byteval := 0 }) := by
  unfold readKind
  by_cases short : size < 56
  · -- one tag byte holding the size
    have oneByte : header small large size = [small + UInt8.ofNat size] := by simp [header, short]
    rw [oneByte] at room input ⊢
    simp only [List.singleton_append, List.length_singleton] at room input ⊢
    rw [exec_bind, exec_attempt, exec_readByte room input]
    cases tags with
    | string =>
        have tag : (0x80 + UInt8.ofNat size).toNat = 128 + size := toNat_tag (by simp; omega)
        have notSingle : ¬ (0x80 + UInt8.ofNat size < 0x80) := by
          rw [UInt8.lt_iff_toNat_lt, tag]; simp
        have shortString : 0x80 + UInt8.ofNat size < 0xB8 := by
          rw [UInt8.lt_iff_toNat_lt, tag]; simp; omega
        have count : ((0x80 + UInt8.ofNat size) - 0x80).toNat = size := by
          rw [UInt8.toNat_sub_of_le _ _ (UInt8.le_iff_toNat_le.mpr (by rw [tag]; simp)), tag]; simp
        simp only [exec_bind, exec_modify, notSingle, shortString, count, if_false, if_true, exec_pure]
    | list =>
        have tag : (0xC0 + UInt8.ofNat size).toNat = 192 + size := toNat_tag (by simp; omega)
        have cmp : ∀ bound : UInt8, (0xC0 + UInt8.ofNat size < bound) ↔ 192 + size < bound.toNat := by
          intro bound; rw [UInt8.lt_iff_toNat_lt, tag]
        have count : ((0xC0 + UInt8.ofNat size) - 0xC0).toNat = size := by
          rw [UInt8.toNat_sub_of_le _ _ (UInt8.le_iff_toNat_le.mpr (by rw [tag]; simp)), tag]; simp
        simp only [exec_bind, exec_modify, cmp, count, UInt8.reduceToNat,
          Nat.not_lt.mpr (by omega : 128 ≤ 192 + size), Nat.not_lt.mpr (by omega : 184 ≤ 192 + size),
          Nat.not_lt.mpr (by omega : 192 ≤ 192 + size), (by omega : 192 + size < 248), if_false,
          if_true, exec_pure]
  · -- a tag holding the length of the size, then the size
    have long : 56 ≤ size := Nat.le_of_not_lt short
    have lengthPos := length_minBE_pos (v := size) (by omega)
    have lengthFits := length_minBE_le_eight fits
    have twoParts : header small large size = [large + UInt8.ofNat (minBE size).length] ++ minBE size := by
      simp [header, short]
    rw [twoParts] at room input ⊢
    simp only [List.singleton_append] at input
    have tagRoom : s.Room 1 := room.mono (by simp)
    rw [exec_bind, exec_attempt, exec_readByte tagRoom input]
    have sizeRoom : (s.book 1).Room (minBE size).length := room_book (by simpa [Nat.add_comm] using room)
    have readSize := exec_readSize (k := k) long sizeRoom
      (s := { s.book 1 with input := minBE size ++ more, byteval := 0 }) rfl
    have booked :
        { Stream.book { s.book 1 with input := minBE size ++ more, byteval := 0 } (minBE size).length with
          input := more } =
        { s.book ([large + UInt8.ofNat (minBE size).length] ++ minBE size).length with
          input := more, byteval := 0 } := by
      rw [List.length_append, List.length_singleton]
      exact book_book s 1 _ _ _ _
    cases tags with
    | string =>
        have tag : (0xB7 + UInt8.ofNat (minBE size).length).toNat = 183 + (minBE size).length :=
          toNat_tag (by simp; omega)
        have cmp : ∀ bound : UInt8, (0xB7 + UInt8.ofNat (minBE size).length < bound) ↔
            183 + (minBE size).length < bound.toNat := by
          intro bound; rw [UInt8.lt_iff_toNat_lt, tag]
        have count : ((0xB7 + UInt8.ofNat (minBE size).length) - 0xB7).toNat = (minBE size).length := by
          rw [UInt8.toNat_sub_of_le _ _ (UInt8.le_iff_toNat_le.mpr (by rw [tag]; simp)), tag]; simp
        simp only [exec_bind, exec_modify, cmp, count, UInt8.reduceToNat,
          Nat.not_lt.mpr (by omega : 128 ≤ 183 + (minBE size).length),
          Nat.not_lt.mpr (by omega : 184 ≤ 183 + (minBE size).length),
          (by omega : 183 + (minBE size).length < 192), if_false, if_true]
        rw [booked] at readSize
        exact readSize
    | list =>
        have tag : (0xF7 + UInt8.ofNat (minBE size).length).toNat = 247 + (minBE size).length :=
          toNat_tag (by simp; omega)
        have cmp : ∀ bound : UInt8, (0xF7 + UInt8.ofNat (minBE size).length < bound) ↔
            247 + (minBE size).length < bound.toNat := by
          intro bound; rw [UInt8.lt_iff_toNat_lt, tag]
        have count : ((0xF7 + UInt8.ofNat (minBE size).length) - 0xF7).toNat = (minBE size).length := by
          rw [UInt8.toNat_sub_of_le _ _ (UInt8.le_iff_toNat_le.mpr (by rw [tag]; simp)), tag]; simp
        simp only [exec_bind, exec_modify, cmp, count, UInt8.reduceToNat,
          Nat.not_lt.mpr (by omega : 128 ≤ 247 + (minBE size).length),
          Nat.not_lt.mpr (by omega : 184 ≤ 247 + (minBE size).length),
          Nat.not_lt.mpr (by omega : 192 ≤ 247 + (minBE size).length),
          Nat.not_lt.mpr (by omega : 248 ≤ 247 + (minBE size).length), if_false]
        rw [booked] at readSize
        exact readSize

/-! ## `Kind` -/

theorem sizeError_of_room {t : Stream} {size : Nat} (room : t.Room size) : sizeError t size = none := by
  unfold sizeError
  cases stack : t.stack with
  | nil =>
      have := room.2
      cases limited : t.limited <;> simp_all
  | cons tos outer =>
      have := room.1 tos (by simp [stack])
      simp only [gt_iff_lt, ite_eq_right_iff, reduceCtorEq, imp_false, not_lt]
      exact this

theorem exec_kind_eol {s : Stream} (rearmed : s.kindAhead = none) (eol : atEOL s.stack = true) :
    exec kind s = (.error .eol, { s with kinderr := none }) := by
  unfold kind
  simp [exec_bind, rearmed, eol]

theorem exec_kind_single {s : Stream} {b : UInt8} {more : List UInt8} (rearmed : s.kindAhead = none)
    (room : s.Room 1) (input : s.input = b :: more) (small : b.toNat < 128) :
    exec kind s = (.ok (.byte, 0),
      { s.book 1 with input := more, byteval := b, kindAhead := some .byte, sizeAhead := 0, kinderr := none }) := by
  unfold kind
  have readTag := exec_readKind_single (s := { s with kinderr := none }) room input small
  simp only [rearmed] at readTag
  simp only [exec_bind, exec_get, rearmed, exec_set, not_atEOL_of_room room Nat.one_pos,
    Bool.false_eq_true, if_false, readTag]
  rw [sizeError_of_room]
  · simp [book]
  · exact ⟨fun _ _ => Nat.zero_le _, fun _ => Nat.zero_le _⟩

theorem exec_kind_header {s : Stream} {k : Kind} {small large : UInt8} (tags : Tags k small large)
    {size : Nat} {more : List UInt8} (fits : size < 2 ^ 64) (rearmed : s.kindAhead = none)
    (room : s.Room ((header small large size).length + size))
    (input : s.input = header small large size ++ more) :
    exec kind s = (.ok (k, size),
      { s.book (header small large size).length with
        input := more, byteval := 0, kindAhead := some k, sizeAhead := size, kinderr := none }) := by
  unfold kind
  have headerPos : 0 < (header small large size).length := by
    rw [length_header, headsize]; split <;> omega
  have readTag := exec_readKind_header (s := { s with kinderr := none }) tags fits
    (room.mono (Nat.le_add_right _ _)) input
  simp only [rearmed] at readTag
  simp only [exec_bind, exec_get, rearmed, exec_set, not_atEOL_of_room room (by omega),
    Bool.false_eq_true, if_false, readTag]
  rw [sizeError_of_room]
  · simp [book]
  · exact room_book room

/-! ## Strings, integers and lists -/

theorem singleByte_iff {b : List UInt8} : singleByte b = true ↔ ∃ x, b = [x] ∧ x.toNat < 128 := by
  constructor
  · intro single
    match b, single with
    | [x], single =>
        refine ⟨x, rfl, ?_⟩
        have := UInt8.le_iff_toNat_le.mp (by simpa [singleByte] using single)
        simp at this
        omega
  · rintro ⟨x, rfl, small⟩
    simp only [singleByte, decide_eq_true_eq]
    exact UInt8.le_iff_toNat_le.mpr (by simp; omega)

/-- Reading a whole string: its header, then its bytes, or the one byte that is its own encoding. -/
theorem exec_bytes_encodeStr {s : Stream} {b rest : List UInt8} (fits : b.length < 2 ^ 64)
    (rearmed : s.kindAhead = none) (room : s.Room (encodeStr b).length)
    (input : s.input = encodeStr b ++ rest) :
    ∃ s', exec bytes s = (.ok b, s') ∧ Consumed s s' (encodeStr b).length := by
  unfold encodeStr at room input ⊢
  by_cases single : singleByte b = true
  · obtain ⟨x, rfl, small⟩ := singleByte_iff.mp single
    rw [if_pos single] at room input ⊢
    simp only [List.singleton_append] at input
    have kindRun := exec_kind_single rearmed room input small
    refine ⟨{ s.book 1 with input := rest, byteval := x, sizeAhead := 0, kinderr := none }, ?_,
      ⟨by simp [input], rfl, rfl, rfl, rfl⟩⟩
    unfold bytes
    rw [exec_bind_ok kindRun]
    simp [exec_bind, exec_map, rearm, book]
  · rw [if_neg single] at room input ⊢
    rw [List.append_assoc] at input
    have kindRun := exec_kind_header Tags.string fits rearmed (by simpa using room) input
    -- the stream once the header is read and `Kind` has cached it
    let t : Stream := { s.book (header 0x80 0xB7 b.length).length with
        input := b ++ rest, byteval := 0, kindAhead := some .string, sizeAhead := b.length, kinderr := none }
    have readBody := exec_readFull (s := t) (room_book (by simpa using room)) rfl
    have notCanon : ¬ (b.length = 1 ∧ b.headD 0 < 128) := by
      rintro ⟨one, low⟩
      match b, one with
      | [x], _ => exact single (singleByte_iff.mpr ⟨x, rfl, UInt8.lt_iff_toNat_lt.mp (by simpa using low)⟩)
    rw [List.length_append]
    refine ⟨{ t.book b.length with input := rest }, ?_, consumed_book rfl rfl rfl (by simp [input])⟩
    unfold bytes
    rw [exec_bind_ok kindRun, exec_bind_ok readBody]
    simp only [notCanon, if_false, exec_pure]

theorem exec_listEnd {s : Stream} {tos : ListPos} {outer : List ListPos} (stack : s.stack = tos :: outer)
    (atEnd : tos.pos = tos.size) :
    exec listEnd s = (.ok (), { s with stack := popList tos outer, kindAhead := none, sizeAhead := 0 }) := by
  unfold listEnd
  simp [exec_bind, stack, atEnd]

/-- Reading a list header opens the list: its payload is what the stack now counts. -/
theorem exec_list_header {s : Stream} {size : Nat} {more : List UInt8} (fits : size < 2 ^ 64)
    (rearmed : s.kindAhead = none) (room : s.Room ((header 0xC0 0xF7 size).length + size))
    (input : s.input = header 0xC0 0xF7 size ++ more) :
    exec list s = (.ok size,
      { s.book (header 0xC0 0xF7 size).length with
        input := more, byteval := 0, kinderr := none, sizeAhead := 0,
        stack := { pos := 0, size := size } :: advance (header 0xC0 0xF7 size).length s.stack }) := by
  unfold list
  rw [exec_bind_ok (exec_kind_header Tags.list fits rearmed room input)]
  simp [exec_map, book]

end Stream

end SimpleChain.Rlp
