import Mathlib
import SimpleChain.Rlp.Read

/-! # What the stream accepts

The stream operations read backwards: from a read that succeeded, the bytes it
had ahead and where it left the stream.  `Kind` accepts a header only in its
shortest form (`Header`), `Bytes` a string only in its canonical encoding, and
`List` a list header whose size fits.  `EOL` is raised by `Kind` alone, at the
end of a list and with nothing read (`kind_eol`); every other read and check
raises another error (`NoEol`), which the element loops rely on to tell the end
of a list from a failure. -/
set_option autoImplicit false

namespace SimpleChain.Rlp

open BigEndian StateExcept

namespace Stream

/-! ## Reads and sizes -/

theorem bookList_ok {s t : Stream} {n : Nat} (run : exec (bookList n) s = (.ok (), t)) :
    t = { s with stack := advance n s.stack } := by
  unfold bookList at run
  obtain ⟨_, _, getRun, run⟩ := exec_bind_eq_ok run
  simp only [exec_get, Prod.mk.injEq, Except.ok.injEq] at getRun
  obtain ⟨rfl, rfl⟩ := getRun
  split at run
  · rename_i stack
    cases (Prod.mk.inj run).2
    rw [show advance n s.stack = s.stack by rw [stack]; rfl]
  · rename_i tos outer stack
    split at run
    · cases run
    · cases run
      simp [stack, advance]

theorem bookLimit_ok {s t : Stream} {n : Nat} (run : exec (bookLimit n) s = (.ok (), t)) :
    t = { s with remaining := if s.limited then s.remaining - n else s.remaining } := by
  unfold bookLimit at run
  obtain ⟨_, _, getRun, run⟩ := exec_bind_eq_ok run
  simp only [exec_get, Prod.mk.injEq, Except.ok.injEq] at getRun
  obtain ⟨rfl, rfl⟩ := getRun
  split at run
  · rename_i limited
    split at run
    · cases run
    · cases run
      simp [limited]
  · rename_i limited
    cases (Prod.mk.inj run).2
    rw [if_neg limited]

theorem willRead_ok {s t : Stream} {n : Nat} (run : exec (willRead n) s = (.ok (), t)) : t = s.book n := by
  unfold willRead rearm at run
  obtain ⟨_, _, rearmRun, run⟩ := exec_bind_eq_ok run
  obtain ⟨_, _, listRun, limitRun⟩ := exec_bind_eq_ok run
  simp only [exec_modify, Prod.mk.injEq] at rearmRun
  obtain ⟨-, rfl⟩ := rearmRun
  rw [bookLimit_ok limitRun, bookList_ok listRun]
  rfl

theorem readByte_ok {s t : Stream} {b : UInt8} (run : exec readByte s = (.ok b, t)) :
    ∃ rest, s.input = b :: rest ∧ t = { s.book 1 with input := rest } := by
  unfold readByte at run
  obtain ⟨_, _, booked, run⟩ := exec_bind_eq_ok run
  rw [willRead_ok booked] at run
  simp only [exec_bind, exec_get] at run
  split at run
  · rename_i x rest input
    simp [exec_map] at run
    obtain ⟨rfl, rfl⟩ := run
    exact ⟨rest, input, rfl⟩
  · cases run

theorem readFull_ok {s t : Stream} {n : Nat} {bytes : List UInt8} (run : exec (readFull n) s = (.ok bytes, t)) :
    ∃ rest, s.input = bytes ++ rest ∧ bytes.length = n ∧ t = { s.book n with input := rest } := by
  unfold readFull at run
  obtain ⟨_, _, booked, run⟩ := exec_bind_eq_ok run
  rw [willRead_ok booked] at run
  simp only [exec_bind, exec_get, exec_set] at run
  split at run
  · cases run
  · rename_i long
    obtain ⟨rfl, rfl⟩ := exec_pure_eq_ok run
    refine ⟨(s.book n).input.drop n, (List.take_append_drop n _).symm, ?_, rfl⟩
    simp only [book] at long ⊢
    simp; omega

theorem readUint_ok {s t : Stream} {n v : Nat} (pos : 0 < v) (run : exec (readUint n) s = (.ok v, t)) :
    ∃ rest, s.input = minBE v ++ rest ∧ (minBE v).length = n ∧ t = { s.book n with input := rest } := by
  match n, run with
  | 0, run =>
      simp [readUint, rearm, exec_map] at run
      omega
  | 1, run =>
      obtain ⟨b, _, byteRun, value⟩ := exec_bind_eq_ok run
      simp only [exec_pure, Prod.mk.injEq, Except.ok.injEq] at value
      obtain ⟨rfl, rfl⟩ := value
      obtain ⟨rest, input, rfl⟩ := readByte_ok byteRun
      have digits : minBE b.toNat = [b] := by
        rw [minBE_of_lt_256 pos (UInt8.toNat_lt b), UInt8.ofNat_toNat]
      exact ⟨rest, by rw [digits, input]; rfl, by rw [digits]; rfl, rfl⟩
  | k + 2, run =>
      rw [readUint_long (by omega)] at run
      obtain ⟨buf, _, fullRun, value⟩ := exec_bind_eq_ok run
      obtain ⟨rest, input, length, rfl⟩ := readFull_ok fullRun
      split at value
      · cases value
      · rename_i canonical
        simp only [exec_pure, Prod.mk.injEq, Except.ok.injEq] at value
        obtain ⟨rfl, rfl⟩ := value
        rw [minBE_ofBE canonical]
        exact ⟨rest, input, length, rfl⟩

theorem readSize_ok {s t : Stream} {k k' : Kind} {n size : Nat}
    (run : exec (readSize k n) s = (.ok (k', size, none), t)) :
    k' = k ∧ 56 ≤ size ∧ exec (readUint n) s = (.ok size, t) := by
  unfold readSize at run
  rw [exec_bind, exec_attempt] at run
  rcases sizeRun : exec (readUint n) s with ⟨_ | size', s'⟩ <;> simp only [sizeRun] at run
  · cases run
  · by_cases short : size' < 56 <;> simp [short] at run
    obtain ⟨⟨rfl, rfl⟩, rfl⟩ := run
    exact ⟨rfl, by omega, rfl⟩

/-- The header `Kind` reads: a byte below 0x80 that is its own value, or a tag and
its size in the shortest form. -/
inductive Header : Kind → Nat → UInt8 → List UInt8 → Prop where
  | byte {b : UInt8} (small : b.toNat < 128) : Header .byte 0 b [b]
  | tagged {k : Kind} {small large : UInt8} {size : Nat} (tags : Tags k small large) (fits : size < 2 ^ 64) :
      Header k size 0 (header small large size)

theorem header_short {small large b : UInt8} (short : (b - small).toNat < 56) :
    header small large (b - small).toNat = [b] := by
  rw [header, if_pos short, UInt8.ofNat_toNat, UInt8.add_comm, UInt8.sub_add_cancel]

theorem header_long {small large b : UInt8} {size : Nat} (long : 56 ≤ size)
    (length : (minBE size).length = (b - large).toNat) : header small large size = b :: minBE size := by
  rw [header, if_neg (by omega), length, UInt8.ofNat_toNat, UInt8.add_comm, UInt8.sub_add_cancel]

theorem toNat_sub_tag {b tag : UInt8} (le : tag.toNat ≤ b.toNat) : (b - tag).toNat = b.toNat - tag.toNat :=
  UInt8.toNat_sub_of_le _ _ (UInt8.le_iff_toNat_le.mpr le)

/-- A tag holding the size itself, below 56. -/
theorem readKind_short {s : Stream} {k : Kind} {small large b : UInt8} {rest : List UInt8}
    (tags : Tags k small large) (above : small.toNat ≤ b.toNat) (below : b.toNat < small.toNat + 56)
    (input : s.input = b :: rest) :
    ∃ hdr rest' bv, Header k (b - small).toNat bv hdr ∧ s.input = hdr ++ rest' ∧
      { s.book 1 with input := rest, byteval := 0 } = { s.book hdr.length with input := rest', byteval := bv } := by
  have short : (b - small).toNat < 56 := by rw [toNat_sub_tag above]; omega
  refine ⟨header small large (b - small).toNat, rest, 0, .tagged tags (by omega), ?_, ?_⟩
  · rw [header_short short, input]; rfl
  · rw [header_short short]; rfl

/-- A tag holding the length of the size, then the size, at least 56. -/
theorem readKind_long {s t : Stream} {k k' : Kind} {small large b : UInt8} {size : Nat} {rest : List UInt8}
    (tags : Tags k small large) (above : large.toNat < b.toNat) (below : b.toNat ≤ large.toNat + 8)
    (input : s.input = b :: rest)
    (run : exec (readSize k (b - large).toNat) { s.book 1 with input := rest, byteval := 0 } =
      (.ok (k', size, none), t)) :
    ∃ hdr rest' bv, Header k' size bv hdr ∧ s.input = hdr ++ rest' ∧
      t = { s.book hdr.length with input := rest', byteval := bv } := by
  obtain ⟨rfl, long, sizeRun⟩ := readSize_ok run
  have count : (b - large).toNat = b.toNat - large.toNat := toNat_sub_tag (by omega)
  obtain ⟨rest', body, length, rfl⟩ := readUint_ok (by omega) sizeRun
  change rest = minBE size ++ rest' at body
  have fits : size < 2 ^ 64 := by
    have := (length_minBE_le_iff size 8).mp (by omega)
    simpa using this
  refine ⟨b :: minBE size, rest', 0, ?_, by simp [input, body], ?_⟩
  · rw [← @header_long small large b size long length]
    exact .tagged tags fits
  · rw [book_book, List.length_cons, length, Nat.add_comm]

theorem readKind_ok {s t : Stream} {k : Kind} {size : Nat} (run : exec readKind s = (.ok (k, size, none), t)) :
    ∃ hdr rest bv, Header k size bv hdr ∧ s.input = hdr ++ rest ∧
      t = { s.book hdr.length with input := rest, byteval := bv } := by
  unfold readKind at run
  rw [exec_bind, exec_attempt] at run
  rcases tagRun : exec readByte s with ⟨_ | b, s₁⟩ <;> simp only [tagRun] at run
  · -- a failed read is reported in the result, never as `none`
    simp [exec_map] at run
  · obtain ⟨rest, input, rfl⟩ := readByte_ok tagRun
    simp only [exec_bind, exec_modify, UInt8.lt_iff_toNat_lt, UInt8.reduceToNat] at run
    by_cases single : b.toNat < 128
    · simp [single, exec_map] at run
      obtain ⟨⟨rfl, rfl⟩, rfl⟩ := run
      exact ⟨[b], rest, b, .byte single, by simp [input], rfl⟩
    by_cases shortString : b.toNat < 184
    · simp [single, shortString] at run
      obtain ⟨⟨rfl, rfl⟩, rfl⟩ := run
      exact readKind_short .string (by simp; omega) (by simp; omega) input
    by_cases longString : b.toNat < 192
    · simp only [single, shortString, longString, if_false, if_true] at run
      exact readKind_long .string (by simp; omega) (by simp; omega) input run
    by_cases shortList : b.toNat < 248
    · simp [single, shortString, longString, shortList] at run
      obtain ⟨⟨rfl, rfl⟩, rfl⟩ := run
      exact readKind_short .list (by simp; omega) (by simp; omega) input
    · simp only [single, shortString, longString, shortList, if_false] at run
      exact readKind_long .list (by simp; omega) (by simp; have := UInt8.toNat_lt b; omega) input run

theorem kind_ok {s t : Stream} {k : Kind} {size : Nat} (rearmed : s.kindAhead = none)
    (run : exec kind s = (.ok (k, size), t)) :
    ∃ hdr rest bv, Header k size bv hdr ∧ s.input = hdr ++ rest ∧
      t = { s.book hdr.length with
            input := rest, byteval := bv, kindAhead := some k, sizeAhead := size, kinderr := none } := by
  unfold kind at run
  simp only [exec_bind, exec_get, rearmed, exec_set] at run
  split at run
  · cases run
  obtain ⟨⟨k', size', err⟩, _, kindRun, run⟩ := exec_bind_eq_ok run
  obtain ⟨_, _, getRun, run⟩ := exec_bind_eq_ok run
  simp only [exec_get, Prod.mk.injEq, Except.ok.injEq] at getRun
  obtain ⟨rfl, rfl⟩ := getRun
  obtain ⟨_, _, setRun, run⟩ := exec_bind_eq_ok run
  simp only [exec_set, Prod.mk.injEq] at setRun
  obtain ⟨-, rfl⟩ := setRun
  cases err with
  | some e => cases run
  | none =>
      obtain ⟨hdr, rest, bv, header, input, rfl⟩ := readKind_ok kindRun
      simp only at run
      split at run
      · cases run
      · rename_i fits
        simp only [exec_pure, Prod.mk.injEq, Except.ok.injEq] at run
        obtain ⟨⟨rfl, rfl⟩, rfl⟩ := run
        simp only [fits]
        exact ⟨hdr, rest, bv, header, input, rfl⟩

/-! ## Errors other than `EOL` -/

/-- `x` never fails with `EOL`: only `Kind` at the end of a list does. -/
def NoEol {α : Type} (x : StreamM α) : Prop := ∀ s t, exec x s ≠ (.error .eol, t)

theorem noEol_bind {α β : Type} {x : StreamM α} {f : α → StreamM β} (first : NoEol x)
    (rest : ∀ a, NoEol (f a)) : NoEol (x >>= f) := by
  intro s t run
  rw [exec_bind] at run
  rcases h : exec x s with ⟨_ | a, s₁⟩ <;> rw [h] at run
  · cases run
    exact first s t h
  · exact rest a s₁ t run

theorem noEol_pure {α : Type} (a : α) : NoEol (pure a : StreamM α) := by
  intro s t run
  cases run

theorem noEol_throw {α : Type} {e : RlpError} (other : e ≠ .eol) : NoEol (throw e : StreamM α) := by
  intro s t run
  cases run
  exact other rfl

theorem noEol_get : NoEol (get : StreamM Stream) := by
  intro s t run
  cases run

theorem noEol_set (s' : Stream) : NoEol (set s' : StreamM PUnit) := by
  intro s t run
  cases run

theorem noEol_modify (f : Stream → Stream) : NoEol (modify f : StreamM PUnit) := by
  intro s t run
  cases run

theorem noEol_attempt {α : Type} (x : StreamM α) : NoEol (attempt x) := by
  intro s t run
  cases run

theorem noEol_willRead (n : Nat) : NoEol (willRead n) := by
  unfold willRead rearm bookList bookLimit
  refine noEol_bind (noEol_modify _) fun _ => noEol_bind (noEol_bind noEol_get fun s => ?_) fun _ =>
    noEol_bind noEol_get fun s => ?_
  · split
    · exact noEol_pure _
    · split
      · exact noEol_throw (by simp)
      · exact noEol_set _
  · split
    · split
      · exact noEol_throw (by simp)
      · exact noEol_set _
    · exact noEol_pure _

theorem noEol_readByte : NoEol readByte := by
  refine noEol_bind (noEol_willRead 1) fun _ => noEol_bind noEol_get fun s => ?_
  split
  · exact noEol_bind (noEol_set _) fun _ => noEol_pure _
  · exact noEol_throw (by simp)

theorem noEol_readFull (n : Nat) : NoEol (readFull n) := by
  refine noEol_bind (noEol_willRead n) fun _ => noEol_bind noEol_get fun s =>
    noEol_bind (noEol_set _) fun _ => ?_
  split
  · exact noEol_throw (by simp)
  · exact noEol_pure _

theorem noEol_readUint (n : Nat) : NoEol (readUint n) := by
  match n with
  | 0 => exact noEol_bind (noEol_modify _) fun _ => noEol_pure _
  | 1 => exact noEol_bind noEol_readByte fun _ => noEol_pure _
  | k + 2 =>
      rw [readUint_long (by omega)]
      refine noEol_bind (noEol_readFull _) fun buf => ?_
      split
      · exact noEol_throw (by simp)
      · exact noEol_pure _

theorem noEol_readSize (k : Kind) (n : Nat) : NoEol (readSize k n) := by
  refine noEol_bind (noEol_attempt _) fun r => ?_
  split <;> exact noEol_pure _

theorem noEol_readKind : NoEol readKind := by
  refine noEol_bind (noEol_attempt _) fun r => ?_
  split
  · exact noEol_bind noEol_get fun _ => noEol_pure _
  · refine noEol_bind (noEol_modify _) fun _ => ?_
    split
    · exact noEol_bind (noEol_modify _) fun _ => noEol_pure _
    split
    · exact noEol_pure _
    split
    · exact noEol_readSize _ _
    split
    · exact noEol_pure _
    · exact noEol_readSize _ _

theorem readSize_err {s t : Stream} {k k' : Kind} {n size : Nat} {e : RlpError}
    (run : exec (readSize k n) s = (.ok (k', size, some e), t)) : e ≠ .eol := by
  unfold readSize at run
  rw [exec_bind, exec_attempt] at run
  rcases sizeRun : exec (readUint n) s with ⟨err | size', s'⟩ <;> simp only [sizeRun] at run
  · simp only [exec_pure, Prod.mk.injEq, Except.ok.injEq, Option.some.injEq] at run
    obtain ⟨⟨-, -, rfl⟩, -⟩ := run
    intro eol
    exact noEol_readUint n s s' (eol ▸ sizeRun)
  · by_cases short : size' < 56 <;> simp [short] at run
    obtain ⟨⟨-, -, rfl⟩, -⟩ := run
    simp

/-- The error `readKind` reports is never `EOL` either. -/
theorem readKind_err {s t : Stream} {k : Kind} {size : Nat} {e : RlpError}
    (run : exec readKind s = (.ok (k, size, some e), t)) : e ≠ .eol := by
  unfold readKind at run
  rw [exec_bind, exec_attempt] at run
  rcases tagRun : exec readByte s with ⟨_ | b, s₁⟩ <;> simp only [tagRun] at run
  · rename_i err
    simp only [exec_bind, exec_get, exec_pure, Prod.mk.injEq, Except.ok.injEq] at run
    obtain ⟨⟨-, -, reported⟩, -⟩ := run
    split at reported
    · cases reported; simp
    · cases reported; simp
    · cases reported
      intro eol
      exact noEol_readByte s s₁ (eol ▸ tagRun)
  · simp only [exec_bind, exec_modify] at run
    split at run
    · simp [exec_map] at run
    split at run
    · simp at run
    split at run
    · exact readSize_err run
    split at run
    · simp at run
    · exact readSize_err run

theorem sizeError_ne_eol (s : Stream) (size : Nat) : sizeError s size ≠ some .eol := by
  unfold sizeError
  split <;> split <;> simp

/-- `Kind` raises `EOL` only at the end of a list, having read nothing. -/
theorem kind_eol {s t : Stream} (rearmed : s.kindAhead = none) (run : exec kind s = (.error .eol, t)) :
    atEOL s.stack = true ∧ t = { s with kinderr := none } := by
  unfold kind at run
  simp only [exec_bind, exec_get, rearmed, exec_set] at run
  split at run
  · rename_i eol
    cases run
    simp [eol, rearmed]
  exfalso
  rw [exec_bind] at run
  rcases kindRun : exec readKind { s with kinderr := none, kindAhead := none } with
    ⟨_ | ⟨k, size, err⟩, s₁⟩ <;> rw [kindRun] at run
  · cases run
    exact noEol_readKind _ _ kindRun
  simp only [exec_bind, exec_get, exec_set] at run
  cases err with
  | some e =>
      cases run
      exact readKind_err kindRun rfl
  | none =>
      split at run
      · rename_i e misfit
        cases run
        exact sizeError_ne_eol _ _ misfit
      · cases run

theorem exec_kind_cached {t : Stream} {k : Kind} (cached : t.kindAhead = some k) (clean : t.kinderr = none) :
    exec kind t = (.ok (k, t.sizeAhead), t) := by
  unfold kind
  simp [exec_bind, cached, clean]

/-! ## Reading an item -/

/-- From `s` to `t` the stream has read `bytes`, the bytes it had ahead. -/
structure Reads (s t : Stream) (bytes : List UInt8) : Prop where
  input : s.input = bytes ++ t.input
  consumed : Consumed s t bytes.length

theorem Reads.trans {s t u : Stream} {first second : List UInt8} (front : Reads s t first)
    (back : Reads t u second) : Reads s u (first ++ second) where
  input := by rw [front.input, back.input, List.append_assoc]
  consumed := by
    rw [List.length_append]
    exact front.consumed.trans back.consumed

/-- An accepted string is read in its canonical encoding. -/
theorem bytes_ok {s t : Stream} {b : List UInt8} (rearmed : s.kindAhead = none)
    (run : exec bytes s = (.ok b, t)) : b.length < 2 ^ 64 ∧ Reads s t (encodeStr b) := by
  unfold bytes at run
  obtain ⟨⟨k, size⟩, _, kindRun, run⟩ := exec_bind_eq_ok run
  obtain ⟨hdr, rest, bv, header, input, rfl⟩ := kind_ok rearmed kindRun
  cases header with
  | byte small =>
      simp [exec_bind, exec_map, rearm] at run
      obtain ⟨rfl, rfl⟩ := run
      have encoded : encodeStr [bv] = [bv] := if_pos (singleByte_iff.mpr ⟨bv, rfl, small⟩)
      rw [encoded]
      exact ⟨by simp, ⟨by simp [input], ⟨by simp [input], rfl, rfl, rfl, rfl⟩⟩⟩
  | tagged tags fits =>
      cases tags with
      | list => cases run
      | string =>
          obtain ⟨payload, _, fullRun, run⟩ := exec_bind_eq_ok run
          obtain ⟨rest', body, length, rfl⟩ := readFull_ok fullRun
          change rest = payload ++ rest' at body
          split at run
          · cases run
          rename_i canonical
          cases run
          have notSingle : singleByte b = false := by
            by_contra single
            obtain ⟨x, rfl, small⟩ := singleByte_iff.mp (Bool.not_eq_false _ ▸ single)
            exact canonical ⟨length.symm, by simpa [UInt8.lt_iff_toNat_lt] using small⟩
          have encoded : encodeStr b = header 0x80 0xB7 size ++ b := by
            rw [encodeStr, notSingle, length]; rfl
          refine ⟨length ▸ fits, ⟨by rw [encoded, input, body, List.append_assoc], ?_⟩⟩
          rw [encoded, List.length_append, length]
          exact consumed_book rfl rfl rfl (by rw [input, body, ← length]; simp)

/-- An accepted list header opens the list its size gives. -/
theorem list_ok {s t : Stream} {size : Nat} (rearmed : s.kindAhead = none) (run : exec list s = (.ok size, t)) :
    ∃ rest, size < 2 ^ 64 ∧ s.input = header 0xC0 0xF7 size ++ rest ∧
      t = { s.book (header 0xC0 0xF7 size).length with
            input := rest, byteval := 0, kinderr := none, sizeAhead := 0,
            stack := { pos := 0, size := size } :: advance (header 0xC0 0xF7 size).length s.stack } := by
  unfold list at run
  obtain ⟨⟨k, size'⟩, _, kindRun, run⟩ := exec_bind_eq_ok run
  obtain ⟨hdr, rest, bv, header, input, rfl⟩ := kind_ok rearmed kindRun
  by_cases isList : k = .list
  · subst isList
    simp only [ne_eq, not_true_eq_false, if_false, exec_bind, exec_modify, exec_pure, Prod.mk.injEq,
      Except.ok.injEq] at run
    obtain ⟨rfl, rfl⟩ := run
    cases header with
    | tagged tags fits =>
        cases tags
        exact ⟨rest, fits, input, rfl⟩
  · simp [isList] at run

/-- Reading `Kind` again answers as the read that cached it. -/
theorem exec_kind_bind_again {β : Type} {s s₁ : Stream} {k : Kind} {size : Nat} (rearmed : s.kindAhead = none)
    (kindRun : exec kind s = (.ok (k, size), s₁)) (f : Kind × Nat → StreamM β) :
    exec (kind >>= f) s₁ = exec (kind >>= f) s := by
  obtain ⟨_, _, _, _, _, rfl⟩ := kind_ok rearmed kindRun
  rw [exec_bind_ok kindRun, exec_bind_ok (exec_kind_cached rfl rfl)]

/-- An operation that starts with `Kind` and raises nothing else fails with `EOL` only as `Kind` does. -/
theorem kind_bind_eol {β : Type} {f : Kind × Nat → StreamM β} {s t : Stream} (rest : ∀ r, NoEol (f r))
    (run : exec (kind >>= f) s = (.error .eol, t)) : exec kind s = (.error .eol, t) := by
  rw [exec_bind] at run
  rcases kindRun : exec kind s with ⟨e | r, s₁⟩ <;> rw [kindRun] at run
  · simp only [Prod.mk.injEq, Except.error.injEq] at run
    obtain ⟨rfl, rfl⟩ := run
    rfl
  · exact absurd run (rest r s₁ t)

theorem bytes_eol {s t : Stream} (run : exec bytes s = (.error .eol, t)) : exec kind s = (.error .eol, t) := by
  refine kind_bind_eol (fun ⟨k, size⟩ => ?_) run
  cases k with
  | byte => exact noEol_bind (noEol_modify _) fun _ => noEol_bind noEol_get fun _ => noEol_pure _
  | string =>
      refine noEol_bind (noEol_readFull size) fun b => ?_
      split
      · exact noEol_throw (by simp)
      · exact noEol_pure _
  | list => exact noEol_throw (by simp)

theorem list_eol {s t : Stream} (run : exec list s = (.error .eol, t)) : exec kind s = (.error .eol, t) := by
  refine kind_bind_eol (fun ⟨k, size⟩ => ?_) run
  dsimp only
  split
  · exact noEol_throw (by simp)
  · exact noEol_bind (noEol_modify _) fun _ => noEol_pure _

theorem noEol_listEnd : NoEol listEnd := by
  refine noEol_bind noEol_get fun s => ?_
  split
  · exact noEol_throw (by simp)
  · split
    · exact noEol_throw (by simp)
    · exact noEol_set _

end Stream

end SimpleChain.Rlp
