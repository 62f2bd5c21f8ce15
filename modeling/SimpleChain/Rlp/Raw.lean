import Mathlib
import SimpleChain.Rlp.Accept

/-! # Splitting raw values (`rlp/raw.go`)

`Split` parses the header of the first value of a byte slice on its own, with `readKind` and
`readSize`, apart from the `Stream`'s `readKind` and `readUint`.  The two agree on every header
but one: `Split` also rejects, as `ErrCanonSize`, a one-byte string whose byte is below 0x80 (it
should have been the byte itself), which the stream's `Kind` accepts and leaves to `Bytes` to
reject.  `CountValues` splits value after value. -/
set_option autoImplicit false

namespace SimpleChain.Rlp

open BigEndian StateExcept GoLoop

namespace Stream

theorem room_reset {b : List UInt8} {n : Nat} (fits : n ≤ b.length) : (reset b).Room n :=
  ⟨by simp [reset], fun _ => fits⟩

/-- `Kind` accepts a size only where it passed the check against the enclosing list or,
at top level, the input limit. -/
theorem kind_sizeError {s t : Stream} {k : Kind} {size : Nat} (rearmed : s.kindAhead = none)
    (run : exec kind s = (.ok (k, size), t)) : sizeError t size = none := by
  unfold kind at run
  simp only [exec_bind, exec_get, rearmed, exec_set] at run
  split at run
  · cases run
  obtain ⟨⟨k', size', err⟩, s₁, -, run⟩ := exec_bind_eq_ok run
  obtain ⟨_, _, getRun, run⟩ := exec_bind_eq_ok run
  simp only [exec_get, Prod.mk.injEq, Except.ok.injEq] at getRun
  obtain ⟨rfl, rfl⟩ := getRun
  obtain ⟨_, _, setRun, run⟩ := exec_bind_eq_ok run
  simp only [exec_set, Prod.mk.injEq] at setRun
  obtain ⟨-, rfl⟩ := setRun
  cases err with
  | some e => cases run
  | none =>
      simp only at run
      split at run
      · cases run
      · rename_i fits
        simp only [exec_pure, Prod.mk.injEq, Except.ok.injEq] at run
        obtain ⟨⟨rfl, rfl⟩, rfl⟩ := run
        simpa [sizeError] using fits

/-- A header at the start of a byte slice, with its content after it, is what `Kind` reads. -/
theorem exec_kind_reset {k : Kind} {size : Nat} {bv : UInt8} {hdr rest : List UInt8}
    (header : Header k size bv hdr) (room : size ≤ rest.length) :
    ∃ t, exec kind (reset (hdr ++ rest)) = (.ok (k, size), t) ∧ t.input = rest := by
  cases header with
  | byte small => exact ⟨_, exec_kind_single rfl (room_reset (by simp)) rfl small, rfl⟩
  | tagged tags fits =>
      exact ⟨_, exec_kind_header tags fits rfl (room_reset (by simp; omega)) rfl, rfl⟩

/-- A single byte is its own header. -/
theorem Header.take_one {k : Kind} {size : Nat} {bv : UInt8} {hdr : List UInt8} (header : Header k size bv hdr)
    (byte : k = .byte) (rest : List UInt8) : (hdr ++ rest).take 1 = hdr := by
  cases header with
  | byte small => rfl
  | tagged tags fits => cases tags <;> cases byte

/-- What `Kind` reads at the start of a byte slice is a header whose content fits the rest. -/
theorem kind_reset_ok {b : List UInt8} {t : Stream} {k : Kind} {size : Nat}
    (run : exec kind (reset b) = (.ok (k, size), t)) :
    ∃ hdr bv, Header k size bv hdr ∧ b = hdr ++ t.input ∧ size ≤ t.input.length := by
  have fits := kind_sizeError rfl run
  obtain ⟨hdr, rest, bv, header, input, rfl⟩ := kind_ok rfl run
  refine ⟨hdr, bv, header, input, ?_⟩
  simp only [reset] at input
  simp [sizeError, book, advance, reset, input] at fits
  omega

end Stream

namespace Raw

/-- The size in the first `slen` bytes of `b`, big-endian, at least 56 and without a leading
zero byte. -/
def readSize (b : List UInt8) (slen : Nat) : Except RlpError Nat :=
  if slen > b.length then .error .unexpectedEOF
  else
    -- the eight cases of the switch
    let s := if 1 ≤ slen ∧ slen ≤ 8 then ofBE (b.take slen) else 0
    -- Reject sizes < 56 (shouldn't have separate size) and sizes with leading zero bytes.
    if s < 56 ∨ b.headD 0 = 0 then .error .canonSize else .ok s

/-- The kind, tag size and content size of the value `buf` starts with. -/
def readKind (buf : List UInt8) : Except RlpError (Kind × Nat × Nat) :=
  match buf with
  | [] => .error .unexpectedEOF
  | b :: more => do
    let (k, tagsize, contentsize) ←
      if b < 0x80 then pure (Kind.byte, 0, 1)
      else if b < 0xB8 then
        -- Reject strings that should've been single bytes.
        if (b - 0x80).toNat = 1 ∧ more.length > 0 ∧ more.headD 0 < 128 then .error .canonSize
        else pure (.string, 1, (b - 0x80).toNat)
      else if b < 0xC0 then do
        let size ← readSize more (b - 0xB7).toNat
        pure (.string, (b - 0xB7).toNat + 1, size)
      else if b < 0xF8 then pure (.list, 1, (b - 0xC0).toNat)
      else do
        let size ← readSize more (b - 0xF7).toNat
        pure (.list, (b - 0xF7).toNat + 1, size)
    -- Reject values larger than the input slice.
    if contentsize > buf.length - tagsize then .error .valueTooLarge
    else pure (k, tagsize, contentsize)

/-- `Split`: the kind and content of the first value, and the bytes after it. -/
def split (b : List UInt8) : Except RlpError (Kind × List UInt8 × List UInt8) := do
  let (k, ts, cs) ← readKind b
  pure (k, (b.drop ts).take cs, b.drop (ts + cs))

/-- `SplitString` -/
def splitString (b : List UInt8) : Except RlpError (List UInt8 × List UInt8) := do
  let (k, content, rest) ← split b
  if k = .list then .error .expectedString else pure (content, rest)

/-- `SplitList` -/
def splitList (b : List UInt8) : Except RlpError (List UInt8 × List UInt8) := do
  let (k, content, rest) ← split b
  if k ≠ .list then .error .expectedList else pure (content, rest)

/-- A string of one byte below 0x80, which should have been the byte itself. -/
def OneByteString (b : List UInt8) : Prop := ∃ x more, b = 0x81 :: x :: more ∧ x.toNat < 128

/-! ## The header forms -/

theorem readSize_ok {b : List UInt8} {slen s : Nat} (ok : readSize b slen = .ok s) :
    slen ≤ b.length ∧ 1 ≤ slen ∧ slen ≤ 8 ∧ s = ofBE (b.take slen) ∧ 56 ≤ s ∧ b.head? ≠ some 0 := by
  unfold readSize at ok
  by_cases long : slen > b.length
  · simp [long] at ok
  by_cases range : 1 ≤ slen ∧ slen ≤ 8
  · simp only [long, range, if_false, if_true, and_self] at ok
    split_ifs at ok with small
    cases ok
    refine ⟨by omega, range.1, range.2, rfl, by omega, ?_⟩
    cases b with
    | nil => simp
    | cons x rest => simp_all
  · simp [long, range] at ok


theorem readSize_minBE {v : Nat} (long : 56 ≤ v) (fits : v < 2 ^ 64) (rest : List UInt8) :
    readSize (minBE v ++ rest) (minBE v).length = .ok v := by
  have pos := Stream.length_minBE_pos (v := v) (by omega)
  have eight := Stream.length_minBE_le_eight fits
  have one : 1 ≤ (minBE v).length := pos
  have lead : (minBE v).head?.getD (rest.head?.getD 0) ≠ 0 := by
    have := head_minBE v
    cases h : minBE v with
    | nil => simp [h] at pos
    | cons x xs => simp_all
  simp [readSize, one, eight, ofBE_minBE, Nat.not_lt.mpr long, lead]


theorem readKind_byte {b : UInt8} (more : List UInt8) (small : b.toNat < 128) :
    readKind (b :: more) = .ok (.byte, 0, 1) := by
  have below : b < 0x80 := UInt8.lt_iff_toNat_lt.mpr small
  simp [readKind, below]

/-- A tag holding the size itself, below 56; a string's must not be one byte below 0x80. -/
theorem readKind_short {k : Kind} {small large b : UInt8} (more : List UInt8) (tags : Stream.Tags k small large)
    (above : small.toNat ≤ b.toNat) (below : b.toNat < small.toNat + 56) :
    readKind (b :: more) =
      if k = .string ∧ (b - small).toNat = 1 ∧ more.length > 0 ∧ more.headD 0 < 128 then .error .canonSize
      else if (b - small).toNat > more.length then .error .valueTooLarge
      else .ok (k, 1, (b - small).toNat) := by
  -- the tag's range picks the branch of the switch
  cases tags <;> simp only [UInt8.reduceToNat] at above below <;>
    simp (disch := omega) only [readKind, UInt8.lt_iff_toNat_lt, UInt8.reduceToNat, if_pos, if_neg,
      true_and, reduceCtorEq, false_and]
  · by_cases canon : (b - 0x80).toNat = 1 ∧ more.length > 0 ∧ (more.headD 0).toNat < 128
    · rw [if_pos canon, if_pos canon]
      rfl
    · rw [if_neg canon, if_neg canon, pure_bind]
      rfl
  · rw [pure_bind]
    rfl

/-- A tag holding the length of the size, then the size. -/
theorem readKind_long {k : Kind} {small large b : UInt8} (more : List UInt8) (tags : Stream.Tags k small large)
    (above : large.toNat < b.toNat) (below : b.toNat ≤ large.toNat + 8) :
    readKind (b :: more) = (do
      let size ← readSize more (b - large).toNat
      if size > more.length - (b - large).toNat then .error .valueTooLarge
      else .ok (k, (b - large).toNat + 1, size)) := by
  have := UInt8.toNat_lt b
  cases tags <;> simp only [UInt8.reduceToNat] at above below <;>
    simp (disch := omega) only [readKind, UInt8.lt_iff_toNat_lt, UInt8.reduceToNat, if_pos, if_neg,
      pure_bind, List.length_cons, Nat.add_sub_add_right] <;>
    rfl

/-- A tag byte: `tag` plus a count that keeps it below 256. -/
theorem tag_byte (tag : UInt8) (n : Nat) (fits : tag.toNat + n < 256) :
    (tag + UInt8.ofNat n).toNat = tag.toNat + n ∧ (tag + UInt8.ofNat n - tag).toNat = n := by
  refine ⟨Stream.toNat_tag fits, ?_⟩
  rw [UInt8.add_comm, UInt8.add_sub_cancel, UInt8.toNat_ofNat', Nat.mod_eq_of_lt (by omega)]

theorem split_header {k : Kind} {size : Nat} {bv : UInt8} {hdr rest : List UInt8}
    (header : Stream.Header k size bv hdr) (room : size ≤ rest.length) (canon : ¬ OneByteString (hdr ++ rest)) :
    split (hdr ++ rest) = .ok (k, if k = .byte then hdr else rest.take size, rest.drop size) := by
  cases header with
  | byte small => simp [split, readKind_byte rest small]
  | @tagged k small large size tags fits =>
      have tagBelow : large.toNat + 8 < 256 ∧ small.toNat + 56 ≤ large.toNat + 1 := by
        cases tags <;> decide
      by_cases short : size < 56
      · obtain ⟨value, count⟩ := tag_byte small size (by omega)
        have oneByte : header small large size = [small + UInt8.ofNat size] := by simp [header, short]
        rw [oneByte]
        have kindRun := readKind_short rest tags (b := small + UInt8.ofNat size) (by omega) (by omega)
        rw [count] at kindRun
        rw [if_neg, if_neg (by omega)] at kindRun
        · cases tags <;> simp [split, kindRun, Nat.add_comm 1 size]
        · rintro ⟨rfl, one, nonempty, low⟩
          cases tags
          obtain ⟨x, more, rfl⟩ := List.exists_cons_of_length_pos nonempty
          exact canon ⟨x, more, by rw [oneByte, one]; rfl, by simpa [UInt8.lt_iff_toNat_lt] using low⟩
      · have long : 56 ≤ size := by omega
        have pos := Stream.length_minBE_pos (v := size) (by omega)
        have eight := Stream.length_minBE_le_eight fits
        obtain ⟨value, count⟩ := tag_byte large (minBE size).length (by omega)
        have twoPart : header small large size = (large + UInt8.ofNat (minBE size).length) :: minBE size := by
          simp [header, short]
        rw [twoPart, List.cons_append]
        have kindRun := readKind_long (minBE size ++ rest) tags
          (b := large + UInt8.ofNat (minBE size).length) (by omega) (by omega)
        rw [count] at kindRun
        have fitsRest : ¬ size > (minBE size ++ rest).length - (minBE size).length := by simp; omega
        rw [readSize_minBE long fits, ok_bind, if_neg fitsRest] at kindRun
        have restAfter : (minBE size ++ rest).drop (minBE size).length = rest := List.drop_left
        cases tags <;> simp [split, kindRun, ← List.drop_drop, restAfter]

theorem split_oneByteString {b : List UInt8} (one : OneByteString b) : split b = .error .canonSize := by
  obtain ⟨x, more, rfl, low⟩ := one
  have kindRun := readKind_short (x :: more) Stream.Tags.string (b := 0x81) (by decide) (by decide)
  rw [if_pos ⟨rfl, by decide, by simp, by simpa [UInt8.lt_iff_toNat_lt] using low⟩] at kindRun
  simp [split, kindRun]

theorem readKind_short_ok {k k' : Kind} {small large x : UInt8} {more : List UInt8} {ts cs : Nat}
    (tags : Stream.Tags k small large) (above : small.toNat ≤ x.toNat) (below : x.toNat < small.toNat + 56)
    (ok : readKind (x :: more) = .ok (k', ts, cs)) :
    k' = k ∧ Stream.Header k cs 0 [x] ∧ cs ≤ more.length ∧ ts = 1 := by
  have short : (x - small).toNat < 56 := by rw [Stream.toNat_sub_tag above]; omega
  rw [readKind_short more tags above below] at ok
  split_ifs at ok with canon tooLarge
  obtain ⟨rfl, rfl, rfl⟩ := ok
  refine ⟨rfl, ?_, by omega, rfl⟩
  rw [← @Stream.header_short small large x short]
  exact .tagged tags (by omega)

theorem readKind_long_ok {k k' : Kind} {small large x : UInt8} {more : List UInt8} {ts cs : Nat}
    (tags : Stream.Tags k small large) (above : large.toNat < x.toNat) (below : x.toNat ≤ large.toNat + 8)
    (ok : readKind (x :: more) = .ok (k', ts, cs)) :
    k' = k ∧ Stream.Header k cs 0 (x :: more.take (x - large).toNat) ∧ (x - large).toNat ≤ more.length ∧
      cs ≤ (more.drop (x - large).toNat).length ∧ ts = (x - large).toNat + 1 := by
  rw [readKind_long more tags above below] at ok
  rcases sizeRun : readSize more (x - large).toNat with err | size <;> rw [sizeRun] at ok
  · cases ok
  obtain ⟨present, one, eight, value, long, lead⟩ := readSize_ok sizeRun
  have digits : minBE size = more.take (x - large).toNat := by
    rw [value]
    apply minBE_ofBE
    cases more with
    | nil => simp
    | cons y ys => cases h : (x - large).toNat <;> simp_all
  have fits : size < 2 ^ 64 := by
    have bound := ofBE_lt (more.take (x - large).toNat)
    rw [List.length_take, Nat.min_eq_left present] at bound
    calc size < 256 ^ (x - large).toNat := value ▸ bound
      _ ≤ 256 ^ 8 := Nat.pow_le_pow_right (by norm_num) eight
      _ = 2 ^ 64 := by norm_num
  rw [ok_bind] at ok
  split_ifs at ok with tooLarge
  obtain ⟨rfl, rfl, rfl⟩ := ok
  refine ⟨rfl, ?_, present, by simp; omega, rfl⟩
  rw [← digits, ← @Stream.header_long small large x cs long (by rw [digits, List.length_take]; omega)]
  exact .tagged tags fits

/-- What `readKind` accepts is a header the stream's `Kind` reads, with the content after it;
a single byte is its own content. -/
theorem readKind_ok {b : List UInt8} {k : Kind} {ts cs : Nat} (ok : readKind b = .ok (k, ts, cs)) :
    ∃ hdr more bv size, Stream.Header k size bv hdr ∧ b = hdr ++ more ∧ size ≤ more.length ∧
      (if k = .byte then ts = 0 ∧ cs = 1 else ts = hdr.length ∧ cs = size) := by
  rcases b with _ | ⟨x, more⟩
  · cases ok
  have := UInt8.toNat_lt x
  by_cases single : x.toNat < 128
  · rw [readKind_byte more single] at ok
    obtain ⟨rfl, rfl, rfl⟩ := ok
    exact ⟨[x], more, x, 0, .byte single, rfl, by omega, by simp⟩
  by_cases shortString : x.toNat < 184
  · obtain ⟨rfl, header, room, rfl⟩ := readKind_short_ok .string (by simp; omega) (by simp; omega) ok
    exact ⟨[x], more, 0, cs, header, rfl, room, by simp⟩
  by_cases longString : x.toNat < 192
  · obtain ⟨rfl, header, present, room, rfl⟩ := readKind_long_ok .string (by simp; omega) (by simp; omega) ok
    exact ⟨_, _, 0, cs, header, by simp, room, by simp; omega⟩
  by_cases shortList : x.toNat < 248
  · obtain ⟨rfl, header, room, rfl⟩ := readKind_short_ok .list (by simp; omega) (by simp; omega) ok
    exact ⟨[x], more, 0, cs, header, rfl, room, by simp⟩
  · obtain ⟨rfl, header, present, room, rfl⟩ := readKind_long_ok .list (by simp; omega) (by simp; omega) ok
    exact ⟨_, _, 0, cs, header, by simp, room, by simp; omega⟩

theorem split_ok {b content rest : List UInt8} {k : Kind} (ok : split b = .ok (k, content, rest)) :
    ∃ hdr more bv size, Stream.Header k size bv hdr ∧ b = hdr ++ more ∧ size ≤ more.length ∧
      content = (if k = .byte then hdr else more.take size) ∧ rest = more.drop size := by
  rcases kindRun : readKind b with err | ⟨k', ts, cs⟩ <;> simp only [split, kindRun] at ok
  · cases ok
  obtain ⟨rfl, rfl, rfl⟩ := ok
  obtain ⟨hdr, more, bv, size, header, rfl, room, span⟩ := readKind_ok kindRun
  refine ⟨hdr, more, bv, size, header, rfl, room, ?_⟩
  cases header with
  | byte small =>
      obtain ⟨rfl, rfl⟩ := span
      simp
  | tagged tags fits =>
      have notByte : ¬ k' = .byte := by cases tags <;> simp
      obtain ⟨rfl, rfl⟩ := (if_neg notByte ▸ span : _)
      simp [notByte, List.drop_append]

/-- A value takes at least a byte, and no more than there is. -/
theorem readKind_consumes {buf : List UInt8} {k : Kind} {ts cs : Nat} (ok : readKind buf = .ok (k, ts, cs)) :
    0 < ts + cs ∧ ts + cs ≤ buf.length := by
  obtain ⟨hdr, more, bv, size, header, rfl, room, span⟩ := readKind_ok ok
  cases header with
  | byte small =>
      obtain ⟨rfl, rfl⟩ := span
      simp
  | @tagged k small large size tags fits =>
      have notByte : ¬ k = .byte := by cases tags <;> simp
      obtain ⟨tagsize, contentsize⟩ := (if_neg notByte ▸ span : _)
      have pos : 0 < (header small large size).length := by
        rw [length_header, headsize]
        split <;> omega
      simp only [List.length_append, tagsize, contentsize]
      omega

/-- The loop of `CountValues`, `i` values counted. -/
def countFrom (b : List UInt8) (i : Nat) : Except RlpError Nat :=
  if b.length > 0 then
    match h : readKind b with
    | .error err => .error err
    | .ok (_, tagsize, size) => countFrom (b.drop (tagsize + size)) (i + 1)
  else .ok i
termination_by b.length
decreasing_by
  have := readKind_consumes h
  simp only [List.length_drop]
  omega

/-- `CountValues` counts the number of encoded values in `b`. -/
def countValues (b : List UInt8) : Except RlpError Nat := countFrom b 0

theorem countFrom_nil (i : Nat) : countFrom [] i = .ok i := by
  rw [countFrom]
  simp

theorem countFrom_step {b : List UInt8} {i : Nat} {k : Kind} {ts cs : Nat} (ok : readKind b = .ok (k, ts, cs)) :
    countFrom b i = countFrom (b.drop (ts + cs)) (i + 1) := by
  have consumes := readKind_consumes ok
  rw [countFrom, if_pos (by omega)]
  split <;> simp_all

/-- `b` is `n` values that `Split` accepts, one after another. -/
inductive SplitsInto : List UInt8 → Nat → Prop where
  | nil : SplitsInto [] 0
  | cons {b content rest : List UInt8} {k : Kind} {n : Nat} (first : split b = .ok (k, content, rest))
      (others : SplitsInto rest n) : SplitsInto b (n + 1)

/-- The loop counts on from `i` by the number of values it splits off. -/
theorem countFrom_splitsInto {b : List UInt8} {i m : Nat} (run : countFrom b i = .ok m) :
    ∃ n, SplitsInto b n ∧ m = i + n := by
  by_cases empty : b = []
  · subst empty
    rw [countFrom_nil] at run
    cases run
    exact ⟨0, .nil, rfl⟩
  rcases kindRun : readKind b with err | ⟨k, ts, cs⟩
  · rw [countFrom, if_pos (List.length_pos_iff.mpr empty)] at run
    split at run <;> simp_all
  have consumes := readKind_consumes kindRun
  have first : split b = .ok (k, (b.drop ts).take cs, b.drop (ts + cs)) := by simp [split, kindRun]
  rw [countFrom_step kindRun] at run
  obtain ⟨n, others, rfl⟩ := countFrom_splitsInto run
  exact ⟨n + 1, .cons first others, by omega⟩
termination_by b.length
decreasing_by simp only [List.length_drop]; omega

theorem SplitsInto.countFrom {b : List UInt8} {n : Nat} (splits : SplitsInto b n) (i : Nat) :
    countFrom b i = .ok (i + n) := by
  induction splits generalizing i with
  | nil => exact countFrom_nil i
  | @cons b content rest k n first others more =>
      rcases kindRun : readKind b with err | ⟨k', ts, cs⟩ <;>
        simp only [split, kindRun, ok_bind, pure, Except.pure, Except.ok.injEq, Prod.mk.injEq] at first
      · cases first
      obtain ⟨rfl, -, rfl⟩ := first
      rw [countFrom_step kindRun, more (i + 1)]
      congr 1
      omega

/-! ## `Split` against the stream -/

theorem split_agrees_with_stream_kind (b : List UInt8) :
    (∀ k content rest, split b = .ok (k, content, rest) ↔
      ¬ OneByteString b ∧ ∃ size t, exec Stream.kind (Stream.reset b) = (.ok (k, size), t) ∧
        content = (if k = .byte then b.take 1 else t.input.take size) ∧ rest = t.input.drop size) ∧
    ∀ n, countValues b = .ok n ↔ SplitsInto b n := by
  refine ⟨fun k content rest => ⟨fun ok => ?_, fun ⟨canon, size, t, run, sameContent, sameRest⟩ => ?_⟩,
    fun n => ⟨fun run => ?_, fun splits => by simpa [countValues] using splits.countFrom 0⟩⟩
  · -- what `Split` accepts, the stream reads from the same header on
    refine ⟨fun one => by simp [split_oneByteString one] at ok, ?_⟩
    obtain ⟨hdr, more, bv, size, header, rfl, room, rfl, rfl⟩ := split_ok ok
    obtain ⟨t, run, input⟩ := Stream.exec_kind_reset header room
    refine ⟨size, t, run, ?_, by rw [input]⟩
    split_ifs with byte
    · exact (header.take_one byte more).symm
    · rw [input]
  · -- and the other way, save for a one-byte string
    obtain ⟨hdr, bv, header, rfl, room⟩ := Stream.kind_reset_ok run
    rw [split_header header room canon, sameContent, sameRest]
    split_ifs with byte
    · rw [header.take_one byte]
    · rfl
  · obtain ⟨m, splits, rfl⟩ := countFrom_splitsInto run
    simpa using splits

theorem split_rejects_one_byte_string_kind_accepts :
    split [0x81, 0x05] = .error .canonSize ∧
      (exec Stream.kind (Stream.reset [0x81, 0x05])).1 = .ok (.string, 1) := by
  refine ⟨split_oneByteString ⟨0x05, [], rfl, by decide⟩, ?_⟩
  have oneByte : Stream.Header .string 1 0 (header 0x80 0xB7 1) := .tagged .string (by norm_num)
  obtain ⟨t, run, -⟩ := Stream.exec_kind_reset oneByte (show 1 ≤ ([0x05] : List UInt8).length by simp)
  rw [show ([0x81, 0x05] : List UInt8) = header 0x80 0xB7 1 ++ [0x05] by decide, run]

end Raw

/-! ## Splitting encodings -/

/-- The kind `Split` reports for an item's encoding. -/
def Item.rawKind : Item → Kind
  | .str bytes => if singleByte bytes then .byte else .string
  | .list _ => .list

/-- The content `Split` returns for an item's encoding. -/
def Item.payload : Item → List UInt8
  | .str bytes => bytes
  | .list items => encodeItems items

namespace Raw

/-- A tagged header starts with 0x81 only as the header of a one-byte string. -/
theorem not_oneByteString_header {k : Kind} {small large : UInt8} {size : Nat} {more : List UInt8}
    (tags : Stream.Tags k small large) (fits : size < 2 ^ 64)
    (high : ∀ x rest, k = .string → size = 1 → more = x :: rest → 128 ≤ x.toNat) :
    ¬ OneByteString (header small large size ++ more) := by
  rintro ⟨x, rest, encoded, low⟩
  have tagBelow : large.toNat + 8 < 256 ∧ small.toNat + 56 ≤ large.toNat + 1 := by
    cases tags <;> decide
  by_cases short : size < 56
  · have oneByte : header small large size = [small + UInt8.ofNat size] := by simp [header, short]
    obtain ⟨value, -⟩ := tag_byte small size (by omega)
    rw [oneByte, List.singleton_append, List.cons.injEq] at encoded
    obtain ⟨first, rfl⟩ := encoded
    have : small.toNat + size = 129 := by rw [← value, first]; rfl
    cases tags <;> simp only [UInt8.reduceToNat] at this
    · exact absurd (high x rest rfl (by omega) rfl) (by omega)
    · omega
  · have eight := Stream.length_minBE_le_eight fits
    obtain ⟨value, -⟩ := tag_byte large (minBE size).length (by omega)
    have twoPart : header small large size = (large + UInt8.ofNat (minBE size).length) :: minBE size := by
      simp [header, short]
    rw [twoPart, List.cons_append, List.cons.injEq] at encoded
    have : large.toNat + (minBE size).length = 129 := by rw [← value, encoded.1]; rfl
    have pos := Stream.length_minBE_pos (v := size) (by omega)
    cases tags <;> simp at this <;> omega

/-- `Split` undoes the encoder: an item's encoding splits into its kind, its payload and what
follows it. -/
theorem split_encode (item : Item) (rest : List UInt8) (fits : item.payload.length < 2 ^ 64) :
    split (item.encode ++ rest) = .ok (item.rawKind, item.payload, rest) := by
  cases item with
  | str bytes =>
      simp only [Item.payload] at fits
      by_cases single : singleByte bytes = true
      · obtain ⟨x, rfl, small⟩ := Stream.singleByte_iff.mp single
        have canon : ¬ OneByteString ([x] ++ rest) := by
          rintro ⟨y, more, encoded, -⟩
          simp only [List.singleton_append, List.cons.injEq] at encoded
          rw [encoded.1] at small
          simp at small
        simp only [encode_str, encodeStr, single, if_true, Item.rawKind, Item.payload]
        simpa using split_header (.byte small) (Nat.zero_le rest.length) canon
      · have notSingle : singleByte bytes = false := by simpa using single
        have canon : ¬ OneByteString (header 0x80 0xB7 bytes.length ++ (bytes ++ rest)) := by
          refine not_oneByteString_header .string fits fun x more _ one encoded => ?_
          obtain ⟨y, rfl⟩ := List.length_eq_one_iff.mp one
          simp only [List.singleton_append, List.cons.injEq] at encoded
          obtain ⟨rfl, -⟩ := encoded
          by_contra low
          exact single (Stream.singleByte_iff.mpr ⟨y, rfl, by omega⟩)
        simp only [encode_str, encodeStr, notSingle, Bool.false_eq_true, if_false, Item.rawKind, Item.payload,
          List.append_assoc]
        rw [split_header (.tagged .string fits) (by simp) canon]
        simp
  | list items =>
      simp only [Item.payload] at fits
      have canon := @not_oneByteString_header _ _ _ _ (encodeItems items ++ rest) .list fits
        fun _ _ isString => by cases isString
      simp only [encode_list, Item.rawKind, Item.payload, List.append_assoc]
      rw [split_header (.tagged .list fits) (by simp) canon]
      simp

theorem payload_length_le (item : Item) : item.payload.length ≤ item.encode.length := by
  cases item with
  | str bytes => exact length_le_encodeStr bytes
  | list items => simp [Item.payload]

/-- A list's payload is its items, one value each. -/
theorem splitsInto_encodeItems (items : List Item) (fits : (encodeItems items).length < 2 ^ 64) :
    SplitsInto (encodeItems items) items.length := by
  induction items with
  | nil => exact .nil
  | cons item items others =>
      rw [encodeItems_cons, List.length_append] at fits
      have first := split_encode item (encodeItems items)
        (lt_of_le_of_lt (payload_length_le item) (by omega))
      rw [encodeItems_cons]
      exact .cons first (others (by omega))

theorem split_and_count_invert_encoder (item : Item) (rest : List UInt8) (fits : item.encode.length < 2 ^ 64) :
    split (item.encode ++ rest) = .ok (item.rawKind, item.payload, rest) ∧
      ∀ items, item = .list items → countValues item.payload = .ok items.length := by
  have payloadFits := lt_of_le_of_lt (payload_length_le item) fits
  refine ⟨split_encode item rest payloadFits, ?_⟩
  rintro items rfl
  simpa [countValues, Item.payload] using (splitsInto_encodeItems items payloadFits).countFrom 0

theorem split_and_count_invert_encoder_on_pair :
    (Item.list [.str [1, 2], .str [0x05]]).encode.length < 2 ^ 64 ∧
      split ((Item.list [.str [1, 2], .str [0x05]]).encode ++ [7]) =
        .ok (.list, encodeItems [.str [1, 2], .str [0x05]], [7]) ∧
      countValues (encodeItems [.str [1, 2], .str [0x05]]) = .ok 2 :=
  let invert := split_and_count_invert_encoder (.list [.str [1, 2], .str [0x05]]) [7] (by decide)
  ⟨by decide, invert.1, invert.2 _ rfl⟩

end Raw

end SimpleChain.Rlp
