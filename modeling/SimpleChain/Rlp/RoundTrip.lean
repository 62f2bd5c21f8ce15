import Mathlib
import SimpleChain.Rlp.Accept
import SimpleChain.Rlp.Decode

/-! # Decoding what was encoded

`decodeByteArray` reads a `[1]byte` stored as a single byte with `Uint`, drops its
error, and rearms `Kind` only when `Uint` succeeds.  On a zero byte `Uint` fails
with `ErrCanonInt` before rearming, so the zero byte stays cached as the next
value: the next field of a struct reads it again and fails, and the loop of a
slice of `[1]byte` reads it forever without reaching the end of its list. -/
set_option autoImplicit false

namespace SimpleChain.Rlp

open StateExcept

/-- `uint` on a cached zero byte fails, and leaves the byte cached. -/
theorem exec_uint_zero_cached {t : Stream} {maxbits : Nat} (cached : t.kindAhead = some .byte)
    (clean : t.kinderr = none) (zero : t.byteval = 0) : exec (Stream.uint maxbits) t = (.error .canonInt, t) := by
  unfold Stream.uint
  rw [exec_bind_ok (Stream.exec_kind_cached cached clean)]
  simp [exec_bind, zero]

/-- Once a zero byte is cached, `decodeByteArray` returns it again and leaves the
stream as it found it: a loop over such elements never reaches the end of its list. -/
theorem decodeByteArray_armed_stuck {t : Stream} {typ : RType} (cached : t.kindAhead = some .byte)
    (clean : t.kinderr = none) (zero : t.byteval = 0) (sized : t.sizeAhead = 0) :
    exec (decodeByteArray typ 1) t = (.ok (.bytes [0]), t) := by
  unfold decodeByteArray
  rw [exec_bind_ok (Stream.exec_kind_cached cached clean), sized]
  simp [exec_map, exec_uint_zero_cached cached clean zero]

/-- A zero byte read as `[1]byte`: `Uint` fails on it before rearming `Kind`, and
`decodeByteArray` drops the error, so the byte stays cached as the next value. -/
theorem decodeByteArray_zero_armed {s : Stream} {typ : RType} {rest : List UInt8}
    (rearmed : s.kindAhead = none) (room : s.Room 1) (input : s.input = 0 :: rest) :
    exec (decodeByteArray typ 1) s = (.ok (.bytes [0]),
      { s.book 1 with input := rest, byteval := 0, kindAhead := some .byte, sizeAhead := 0, kinderr := none }) := by
  have kindRun := Stream.exec_kind_single rearmed room input (by decide)
  unfold decodeByteArray
  rw [← Stream.exec_kind_bind_again rearmed kindRun]
  exact decodeByteArray_armed_stuck rfl rfl rfl rfl

/-- The source's `struct{A [1]byte; B uint64}{A: [1]byte{0}, B: 5}`. -/
def zeroArrayStruct : RType := .struct [.array 1 (.uint .u8), .uint .u64]

theorem decodeBytes_zeroArrayStruct_fails :
    encodeToBytes zeroArrayStruct (.list [.bytes [0], .uint 5]) = .ok [0xC2, 0x00, 0x05] ∧
      decodeBytes zeroArrayStruct [0xC2, 0x00, 0x05] =
        .error (.decode "non-canonical integer (leading zero bytes)" (.uint .u64)) := by
  refine ⟨rfl, ?_⟩
  -- the list header: a payload of two bytes
  let opened : Stream := { (Stream.reset [0xC2, 0x00, 0x05]).book 1 with
    input := [0x00, 0x05], byteval := 0, kinderr := none, sizeAhead := 0, stack := [{ pos := 0, size := 2 }] }
  have listRun : exec Stream.list (Stream.reset [0xC2, 0x00, 0x05]) = (.ok 2, opened) :=
    Stream.exec_list_header (by norm_num) rfl ⟨by simp [Stream.reset], by simp [Stream.reset, header]⟩ rfl
  -- the first field, `[1]byte{0}`, leaves the zero byte cached
  let armed : Stream := { opened.book 1 with
    input := [0x05], byteval := 0, kindAhead := some .byte, sizeAhead := 0, kinderr := none }
  have firstField : exec (decodeByteArray (.array 1 (.uint .u8)) 1) opened = (.ok (.bytes [0]), armed) :=
    decodeByteArray_zero_armed rfl ⟨by simp [opened], by simp [opened, Stream.reset, Stream.book]⟩ rfl
  -- the second field, `uint64`, reads the cached zero byte
  have secondField : exec (Stream.uint 64) armed = (.error .canonInt, armed) := exec_uint_zero_cached rfl rfl rfl
  simp [decodeBytes, zeroArrayStruct, makeDecoder, makeStructDecoder, decodeFields, decodeUint, wrapped,
    RType.isByte, UintSize.bits, exec_bind, exec_tryCatch, exec_map, listRun, firstField, secondField,
    wrapStreamError]

end SimpleChain.Rlp
