import Mathlib
import SimpleChain.Rlp.Typed
import SimpleChain.Lib.Loop

/-! # Istanbul extra-data and the seals written into it

`core/types/istanbul.go` keeps the Istanbul fields of a header in its
extra-data: 32 vanity bytes, then the RLP encoding of an `IstanbulExtra`
(the validators, the proposer's seal and the committed seals).  A header's
hash is taken with the committed seals emptied (`IstanbulFilteredHeader`), the
hash the proposer signs with the seal emptied too (`sigHash`).
`writeSeal` and `writeCommittedSeals` decode the extra-data, set one field and
encode it again.

Decoding the encoding of an `IstanbulExtra` gives it back
(`extractIstanbulExtra_encode`), and what is decoded is an encoding
(`extractIstanbulExtra_ok`): writing a seal leaves the filtered headers, and
with them both hashes, as they were.  The header is hashed through its RLP
encoding (`rlpHash`) with Keccak-256 a parameter; the results hold for every
hash function. -/
set_option autoImplicit false

namespace SimpleChain.Types

open Rlp BigEndian

abbrev Hash := BitVec 256
abbrev Address := BitVec 160

/-- `IstanbulDigest`, the mix digest of an Istanbul block. -/
def istanbulDigest : Hash := 0x63746963616c2062797a616e74696e65206661756c7420746f6c6572616e6365#256

def istanbulExtraVanity : Nat := 32

def istanbulExtraSeal : Nat := 65

/-- `types.Header`; a nil `*big.Int` is `none`. -/
structure Header where
  parentHash : Hash
  uncleHash : Hash
  coinbase : Address
  root : Hash
  txHash : Hash
  receiptHash : Hash
  bloom : BitVec 2048
  difficulty : Option Int
  number : Option Int
  gasLimit : UInt64
  gasUsed : UInt64
  time : UInt64
  extra : List UInt8
  mixDigest : Hash
  nonce : BitVec 64

def arrayBytes (k : Nat) (x : BitVec (8 * k)) : Value := .bytes (beBytes k x.toNat)

def bigIntValue : Option Int → Value
  | none => .nil
  | some i => .bigInt i

def headerType : RType :=
  .struct [.array 32 (.uint .u8), .array 32 (.uint .u8), .array 20 (.uint .u8), .array 32 (.uint .u8),
    .array 32 (.uint .u8), .array 32 (.uint .u8), .array 256 (.uint .u8), .bigInt, .bigInt,
    .uint .u64, .uint .u64, .uint .u64, .slice (.uint .u8), .array 32 (.uint .u8), .array 8 (.uint .u8)]

def Header.value (h : Header) : Value :=
  .list [arrayBytes 32 h.parentHash, arrayBytes 32 h.uncleHash, arrayBytes 20 h.coinbase,
    arrayBytes 32 h.root, arrayBytes 32 h.txHash, arrayBytes 32 h.receiptHash, arrayBytes 256 h.bloom,
    bigIntValue h.difficulty, bigIntValue h.number, .uint h.gasLimit.toNat, .uint h.gasUsed.toNat,
    .uint h.time.toNat, .bytes h.extra, arrayBytes 32 h.mixDigest, arrayBytes 8 h.nonce]

/-- `CopyHeader`: a nil difficulty or number is copied as zero. -/
def Header.copy (h : Header) : Header :=
  { h with difficulty := some (h.difficulty.getD 0), number := some (h.number.getD 0) }

section Hashing

variable (keccak256 : List UInt8 → Hash)

/-- `rlp.Encode` into a Keccak-256 hasher: an encoding that fails writes nothing. -/
def rlpHash (t : RType) (v : Value) : Hash :=
  match encodeToBytes t v with
  | .ok b => keccak256 b
  | .error _ => keccak256 []

end Hashing

/-! ## `IstanbulExtra` -/

structure IstanbulExtra where
  validators : List Address
  «seal» : List UInt8
  committedSeal : List (List UInt8)

/-- The fields of `IstanbulExtra`.  `EncodeRLP` writes the `[]interface{}` of the
three, each by the writer of its own type, which is what the writer of the
struct of the three writes; `DecodeRLP` decodes that struct. -/
def istanbulExtraFields : List RType :=
  [.slice (.array 20 (.uint .u8)), .slice (.uint .u8), .slice (.slice (.uint .u8))]

def istanbulExtraType : RType := .ptr (.struct istanbulExtraFields)

def IstanbulExtra.value (ist : IstanbulExtra) : Value :=
  .list [.list (ist.validators.map fun a => .bytes (beBytes 20 a.toNat)), .bytes ist.«seal»,
    .list (ist.committedSeal.map .bytes)]

def valueBytes : Value → List UInt8
  | .bytes b => b
  | _ => []

/-- The `IstanbulExtra` a decoded `*IstanbulExtra` points to.  The decoder returns only
values of the type (`istanbulExtra_reads`), so the last case is never taken. -/
def IstanbulExtra.ofValue : Value → IstanbulExtra
  | .ptr (.list [.list validators, «seal», .list committedSeal]) =>
      ⟨validators.map fun v => BitVec.ofNat 160 (ofBE (valueBytes v)), valueBytes «seal»,
        committedSeal.map valueBytes⟩
  | _ => ⟨[], [], []⟩

def encodeIstanbulExtra (ist : IstanbulExtra) : Except RlpError (List UInt8) :=
  encodeToBytes (.ptr (.ptr (.struct istanbulExtraFields))) (.ptr (.ptr ist.value))

inductive IstanbulError where
  /-- `ErrInvalidIstanbulHeaderExtra` -/
  | invalidIstanbulHeaderExtra
  | rlp (err : RlpError)
  /-- `errInvalidSignature` -/
  | invalidSignature
  /-- `errInvalidCommittedSeals` -/
  | invalidCommittedSeals

def extractIstanbulExtra (h : Header) : Except IstanbulError IstanbulExtra :=
  if h.extra.length < istanbulExtraVanity then .error .invalidIstanbulHeaderExtra
  else
    match decodeBytes istanbulExtraType (h.extra.drop istanbulExtraVanity) with
    | .error err => .error (.rlp err)
    | .ok v => .ok (IstanbulExtra.ofValue v)

/-- `IstanbulFilteredHeader`: `none` is the nil header returned when the extra-data
does not decode or encode. -/
def istanbulFilteredHeader (h : Header) (keepSeal : Bool) : Option Header :=
  let newHeader := h.copy
  match extractIstanbulExtra newHeader with
  | .error _ => none
  | .ok istanbulExtra =>
      let istanbulExtra := if keepSeal then istanbulExtra else { istanbulExtra with «seal» := [] }
      let istanbulExtra := { istanbulExtra with committedSeal := [] }
      match encodeIstanbulExtra istanbulExtra with
      | .error _ => none
      | .ok payload => some { newHeader with extra := newHeader.extra.take istanbulExtraVanity ++ payload }

/-- `Header.Hash`: the hash of the filtered header on an Istanbul block whose
extra-data decodes, of the header itself otherwise. -/
def Header.hash (keccak256 : List UInt8 → Hash) (h : Header) : Hash :=
  if h.mixDigest = istanbulDigest then
    match istanbulFilteredHeader h true with
    | some istanbulHeader => rlpHash keccak256 (.ptr headerType) (.ptr istanbulHeader.value)
    | none => rlpHash keccak256 (.ptr headerType) (.ptr h.value)
  else rlpHash keccak256 (.ptr headerType) (.ptr h.value)

/-! ## What `ExtractIstanbulExtra` reads back -/

def IstanbulExtra.encoding (ist : IstanbulExtra) : List UInt8 :=
  ((RType.struct istanbulExtraFields).item ist.value).encode

def validatorsEncoding (validators : List Address) : List UInt8 :=
  (Item.list (validators.map fun a => .str (beBytes 20 a.toNat))).encode

def committedSealEncoding (committedSeal : List (List UInt8)) : List UInt8 :=
  (Item.list (committedSeal.map .str)).encode

theorem IstanbulExtra.item_value (ist : IstanbulExtra) :
    (RType.struct istanbulExtraFields).item ist.value =
      .list [.list (ist.validators.map fun a => .str (beBytes 20 a.toNat)), .str ist.«seal»,
        .list (ist.committedSeal.map .str)] := by
  simp [IstanbulExtra.value, istanbulExtraFields, RType.item, RType.itemFields, Function.comp_def]

theorem IstanbulExtra.holds_value (ist : IstanbulExtra) : (RType.struct istanbulExtraFields).holds ist.value := by
  simp [IstanbulExtra.value, istanbulExtraFields, RType.holds, RType.holdsFields, RType.isByte, length_beBytes]

theorem IstanbulExtra.ofValue_value (ist : IstanbulExtra) : IstanbulExtra.ofValue (.ptr ist.value) = ist := by
  have address : ∀ a : Address, BitVec.ofNat 160 (ofBE (beBytes 20 a.toNat)) = a := by
    intro a
    rw [ofBE_beBytes, Nat.mod_eq_of_lt (by simpa using a.isLt), BitVec.ofNat_toNat, BitVec.setWidth_eq]
  simp [IstanbulExtra.ofValue, IstanbulExtra.value, valueBytes, Function.comp_def, address]

theorem address_bytes {v : Value} (ok : (RType.array 20 (.uint .u8)).holds v) :
    Value.bytes (beBytes 20 (BitVec.ofNat 160 (ofBE (valueBytes v))).toNat) = v := by
  rcases holds_array.mp ok with ⟨-, b, rfl, length⟩ | ⟨notByte, -⟩
  · have below : ofBE b < 2 ^ 160 := by simpa [length] using ofBE_lt b
    rw [valueBytes, BitVec.toNat_ofNat, Nat.mod_eq_of_lt below, ← length, beBytes_ofBE]
  · cases notByte

theorem bytes_valueBytes {v : Value} (ok : (RType.slice (.uint .u8)).holds v) : Value.bytes (valueBytes v) = v := by
  rcases holds_slice.mp ok with ⟨-, b, rfl⟩ | ⟨notByte, -⟩
  · rfl
  · cases notByte

theorem IstanbulExtra.value_ofValue {x : Value} (ok : (RType.struct istanbulExtraFields).holds x) :
    (IstanbulExtra.ofValue (.ptr x)).value = x := by
  obtain ⟨vs, rfl, fieldsOk⟩ := holds_struct.mp ok
  obtain ⟨validators, vs, rfl, validatorsOk, fieldsOk⟩ := holdsFields_cons.mp fieldsOk
  obtain ⟨«seal», vs, rfl, sealOk, fieldsOk⟩ := holdsFields_cons.mp fieldsOk
  obtain ⟨committed, vs, rfl, committedOk, fieldsOk⟩ := holdsFields_cons.mp fieldsOk
  cases vs with
  | cons _ _ => simp [RType.holdsFields] at fieldsOk
  | nil =>
      rcases holds_slice.mp validatorsOk with ⟨isByte, -⟩ | ⟨-, addrs, rfl, addrsOk⟩
      · cases isByte
      rcases holds_slice.mp sealOk with ⟨-, b, rfl⟩ | ⟨notByte, -⟩
      swap
      · cases notByte
      rcases holds_slice.mp committedOk with ⟨isByte, -⟩ | ⟨-, cs, rfl, csOk⟩
      · cases isByte
      simp only [IstanbulExtra.ofValue, IstanbulExtra.value, List.map_map, Function.comp_def]
      rw [List.map_congr_left fun v member => address_bytes (addrsOk v member),
        List.map_congr_left fun v member => bytes_valueBytes (csOk v member), List.map_id', List.map_id']
      rfl

theorem istanbulExtra_decodes : Decodes (makeDecoder (.struct istanbulExtraFields)) (.struct istanbulExtraFields) := by
  refine makeDecoder_struct_decodes _ fun field member => ?_
  simp only [istanbulExtraFields, List.mem_cons, List.not_mem_nil, or_false] at member
  rcases member with rfl | rfl | rfl
  · show Decodes (decodeListSlice _ (decodeByteArray _ 20)) _
    exact decodeListSlice_decodes (decodeByteArray_decodes _ (by decide)) (decodeByteArray_endsAtEOL _ _) _ rfl
  · exact decodeByteSlice_decodes _
  · show Decodes (decodeListSlice _ (decodeByteSlice _)) _
    exact decodeListSlice_decodes (decodeByteSlice_decodes _) (decodeByteSlice_endsAtEOL _) _ rfl

theorem istanbulExtra_reads : ReadsValue (makeDecoder (.struct istanbulExtraFields)) (.struct istanbulExtraFields) := by
  refine makeDecoder_struct_reads _ fun field member => ?_
  simp only [istanbulExtraFields, List.mem_cons, List.not_mem_nil, or_false] at member
  rcases member with rfl | rfl | rfl
  · show ReadsValue (decodeListSlice _ (decodeByteArray _ 20)) _
    exact decodeListSlice_readsValue (decodeByteArray_reads _ (by decide)) (decodeByteArray_stops _ _) _ rfl
  · exact decodeByteSlice_reads _
  · show ReadsValue (decodeListSlice _ (decodeByteSlice _)) _
    exact decodeListSlice_readsValue (decodeByteSlice_reads _) (decodeByteSlice_stops _) _ rfl

/-- What `ExtractIstanbulExtra` accepts is the vanity and the encoding of what it returns. -/
theorem extractIstanbulExtra_ok {h : Header} {ist : IstanbulExtra} (extracted : extractIstanbulExtra h = .ok ist) :
    istanbulExtraVanity ≤ h.extra.length ∧ h.extra.drop istanbulExtraVanity = ist.encoding ∧
      ((RType.struct istanbulExtraFields).item ist.value).Fits := by
  unfold extractIstanbulExtra at extracted
  split at extracted
  · cases extracted
  rename_i long
  split at extracted
  · cases extracted
  rename_i v decoded
  cases extracted
  obtain ⟨x, rfl, ok, fits, encoded⟩ := decodeBytes_ptr_reads istanbulExtra_reads decoded
  rw [IstanbulExtra.encoding, IstanbulExtra.value_ofValue ok]
  exact ⟨by omega, encoded.symm, fits⟩

/-- `ExtractIstanbulExtra` reads back an encoding written after the vanity. -/
theorem extractIstanbulExtra_encode (h : Header) {vanity : List UInt8} (sized : vanity.length = istanbulExtraVanity)
    {ist : IstanbulExtra} (fits : ((RType.struct istanbulExtraFields).item ist.value).Fits) :
    extractIstanbulExtra { h with extra := vanity ++ ist.encoding } = .ok ist := by
  unfold extractIstanbulExtra
  rw [if_neg (by simp [sized])]
  simp only [List.drop_left' sized]
  rw [show istanbulExtraType = .ptr (.struct istanbulExtraFields) from rfl, IstanbulExtra.encoding,
    decodeBytes_ptr istanbulExtra_decodes ist.holds_value fits]
  exact congrArg Except.ok ist.ofValue_value

theorem encodeIstanbulExtra_eq (ist : IstanbulExtra) (fits : ist.encoding.length < 2 ^ 64) :
    encodeIstanbulExtra ist = .ok ist.encoding :=
  encodeToBytes_eq_encode _ _ ist.holds_value fits

/-! ## How long the encoding is -/

def IstanbulExtra.payloadLength (ist : IstanbulExtra) : Nat :=
  (validatorsEncoding ist.validators).length + (encodeStr ist.«seal»).length +
    (committedSealEncoding ist.committedSeal).length

theorem IstanbulExtra.length_encoding (ist : IstanbulExtra) :
    ist.encoding.length = headsize ist.payloadLength + ist.payloadLength := by
  rw [IstanbulExtra.encoding, IstanbulExtra.item_value, encode_list, List.length_append, length_header]
  simp [IstanbulExtra.payloadLength, validatorsEncoding, committedSealEncoding, Nat.add_assoc]

theorem length_committedSealEncoding {committedSeals : List (List UInt8)}
    (sized : ∀ c ∈ committedSeals, c.length = istanbulExtraSeal) :
    (committedSealEncoding committedSeals).length =
      headsize (67 * committedSeals.length) + 67 * committedSeals.length := by
  -- each seal of 65 bytes takes 67
  have payload : ∀ cs : List (List UInt8), (∀ c ∈ cs, c.length = istanbulExtraSeal) →
      (encodeItems (cs.map .str)).length = 67 * cs.length := by
    intro cs
    induction cs with
    | nil => intro _; rfl
    | cons c rest ih =>
        intro each
        have first : (encodeStr c).length = 67 := by
          rw [encodeStr_of_length_ne_one (by simp [each c List.mem_cons_self, istanbulExtraSeal]),
            List.length_append, length_header, each c List.mem_cons_self]
          decide
        rw [List.map_cons, encodeItems_cons, List.length_append, encode_str, first,
          ih fun c' member => each c' (List.mem_cons_of_mem c member), List.length_cons]
        ring
  rw [committedSealEncoding, encode_list, List.length_append, length_header, payload _ sized]

theorem one_le_length_encodeStr (b : List UInt8) : 1 ≤ (encodeStr b).length :=
  List.length_pos_of_ne_nil (by simpa using encode_ne_nil (.str b))

theorem one_le_length_committedSealEncoding (cs : List (List UInt8)) : 1 ≤ (committedSealEncoding cs).length :=
  List.length_pos_of_ne_nil (encode_ne_nil _)

theorem extractIstanbulExtra_copy (h : Header) : extractIstanbulExtra h.copy = extractIstanbulExtra h := rfl

/-- What `IstanbulFilteredHeader` keeps of an extra: no committed seals, and the
proposer seal only when asked to. -/
def IstanbulExtra.filtered (ist : IstanbulExtra) (keepSeal : Bool) : IstanbulExtra :=
  { (if keepSeal then ist else { ist with «seal» := [] }) with committedSeal := [] }

theorem istanbulFilteredHeader_eq {h : Header} {ist : IstanbulExtra} (extracted : extractIstanbulExtra h = .ok ist)
    (keepSeal : Bool) (fits : (ist.filtered keepSeal).encoding.length < 2 ^ 64) :
    istanbulFilteredHeader h keepSeal =
      some { h.copy with extra := h.extra.take istanbulExtraVanity ++ (ist.filtered keepSeal).encoding } := by
  unfold istanbulFilteredHeader
  dsimp only
  have encoded := encodeIstanbulExtra_eq _ fits
  rw [IstanbulExtra.filtered] at encoded
  rw [extractIstanbulExtra_copy, extracted]
  dsimp only
  rw [encoded]
  rfl

theorem IstanbulExtra.payloadLength_le (ist : IstanbulExtra) : ist.payloadLength ≤ ist.encoding.length := by
  rw [ist.length_encoding]
  omega

theorem IstanbulExtra.length_encoding_le (ist : IstanbulExtra) (fits : ist.payloadLength < 2 ^ 64) :
    ist.encoding.length ≤ ist.payloadLength + 9 := by
  have headerLe := headsize_le_nine fits
  rw [ist.length_encoding]
  omega

theorem payloadLength_filtered_le (ist : IstanbulExtra) (keepSeal : Bool) :
    (ist.filtered keepSeal).payloadLength ≤ ist.payloadLength := by
  have sealPos := one_le_length_encodeStr ist.«seal»
  have committedPos := one_le_length_committedSealEncoding ist.committedSeal
  have emptySeal : (encodeStr []).length = 1 := rfl
  have noCommitted : (committedSealEncoding []).length = 1 := rfl
  cases keepSeal
  · simp only [IstanbulExtra.payloadLength, IstanbulExtra.filtered, Bool.false_eq_true, if_false, emptySeal,
      noCommitted]
    omega
  · simp only [IstanbulExtra.payloadLength, IstanbulExtra.filtered, if_true, noCommitted]
    omega

theorem payloadLength_with_seal_le (ist : IstanbulExtra) {«seal» : List UInt8} (fits : «seal».length < 2 ^ 64) :
    ({ ist with «seal» := «seal» } : IstanbulExtra).payloadLength ≤ ist.payloadLength + «seal».length + 9 := by
  have written := length_encodeStr_le fits
  have sealPos := one_le_length_encodeStr ist.«seal»
  simp only [IstanbulExtra.payloadLength]
  omega

theorem payloadLength_with_committedSeal_le (ist : IstanbulExtra) {committedSeals : List (List UInt8)}
    (sized : ∀ c ∈ committedSeals, c.length = istanbulExtraSeal) (fits : 67 * committedSeals.length < 2 ^ 64) :
    ({ ist with committedSeal := committedSeals } : IstanbulExtra).payloadLength ≤
      ist.payloadLength + 67 * committedSeals.length + 9 := by
  have written := length_committedSealEncoding sized
  have headerLe := headsize_le_nine fits
  have committedPos := one_le_length_committedSealEncoding ist.committedSeal
  simp only [IstanbulExtra.payloadLength]
  omega

end SimpleChain.Types

namespace SimpleChain.Istanbul

open SimpleChain.Types

/-- `sigHash`: the filtered header without its seal, encoded straight into the
hasher; a nil header is written as the empty list. -/
def sigHash (keccak256 : List UInt8 → Types.Hash) (header : Types.Header) : Types.Hash :=
  rlpHash keccak256 (.ptr headerType)
    (match istanbulFilteredHeader header false with
     | some filtered => .ptr filtered.value
     | none => .nil)

def writeSeal (h : Types.Header) («seal» : List UInt8) : Except IstanbulError Types.Header :=
  if «seal».length % istanbulExtraSeal ≠ 0 then throw .invalidSignature
  else do
    let istanbulExtra ← extractIstanbulExtra h
    let payload ← (encodeIstanbulExtra { istanbulExtra with «seal» := «seal» }).mapError .rlp
    pure { h with extra := h.extra.take istanbulExtraVanity ++ payload }

def writeCommittedSeals (h : Types.Header) (committedSeals : List (List UInt8)) :
    Except IstanbulError Types.Header :=
  if committedSeals.length = 0 then throw .invalidCommittedSeals
  else do
    committedSeals.forM fun «seal» =>
      if «seal».length ≠ istanbulExtraSeal then throw .invalidCommittedSeals else pure ()
    let istanbulExtra ← extractIstanbulExtra h
    let payload ← (encodeIstanbulExtra { istanbulExtra with committedSeal := committedSeals }).mapError .rlp
    pure { h with extra := h.extra.take istanbulExtraVanity ++ payload }

theorem writeSeal_eq {h : Types.Header} {ist : IstanbulExtra} (extracted : extractIstanbulExtra h = .ok ist)
    {«seal» : List UInt8} (sealSize : «seal».length % istanbulExtraSeal = 0)
    (fits : ({ ist with «seal» := «seal» } : IstanbulExtra).encoding.length < 2 ^ 64) :
    writeSeal h «seal» = .ok { h with extra := h.extra.take istanbulExtraVanity ++
      ({ ist with «seal» := «seal» } : IstanbulExtra).encoding } := by
  unfold writeSeal
  rw [if_neg (by omega), extracted, GoLoop.ok_bind, encodeIstanbulExtra_eq _ fits]
  rfl

theorem writeCommittedSeals_eq {h : Types.Header} {ist : IstanbulExtra}
    (extracted : extractIstanbulExtra h = .ok ist) {committedSeals : List (List UInt8)}
    (nonempty : committedSeals ≠ []) (sized : ∀ c ∈ committedSeals, c.length = istanbulExtraSeal)
    (fits : ({ ist with committedSeal := committedSeals } : IstanbulExtra).encoding.length < 2 ^ 64) :
    writeCommittedSeals h committedSeals = .ok { h with extra := h.extra.take istanbulExtraVanity ++
      ({ ist with committedSeal := committedSeals } : IstanbulExtra).encoding } := by
  have checked := GoLoop.forM_eq_ok_of_forall
    (fun «seal» : List UInt8 =>
      if «seal».length ≠ istanbulExtraSeal then (throw .invalidCommittedSeals : Except IstanbulError Unit)
      else pure ())
    committedSeals fun c member => by simp [sized c member]
  unfold writeCommittedSeals
  rw [if_neg (by simpa using nonempty), checked, GoLoop.ok_bind, extracted, GoLoop.ok_bind,
    encodeIstanbulExtra_eq _ fits]
  rfl

section Rewritten

/-! A header whose extra-data is rewritten as `writeSeal` and `writeCommittedSeals` do:
the vanity of `h` followed by the encoding of an extra `ist'`. -/

variable {h : Types.Header} {ist ist' : IstanbulExtra} (extracted : extractIstanbulExtra h = .ok ist)
  (fits : ist'.encoding.length < 2 ^ 64)
include extracted

theorem take_vanity_rewritten :
    (h.extra.take istanbulExtraVanity ++ ist'.encoding).take istanbulExtraVanity =
      h.extra.take istanbulExtraVanity := by
  have long := (extractIstanbulExtra_ok extracted).1
  exact List.take_left' (by simp [long])

include fits in
theorem extractIstanbulExtra_rewritten :
    extractIstanbulExtra { h with extra := h.extra.take istanbulExtraVanity ++ ist'.encoding } = .ok ist' := by
  have long := (extractIstanbulExtra_ok extracted).1
  exact extractIstanbulExtra_encode h (by simp [long]) (Rlp.Item.fits_of_length _ fits)

include fits in
/-- The filtered header does not see the part of the extra the rewrite changed. -/
theorem istanbulFilteredHeader_rewritten (keepSeal : Bool) (same : ist'.filtered keepSeal = ist.filtered keepSeal)
    (filteredFits : (ist.filtered keepSeal).encoding.length < 2 ^ 64) :
    istanbulFilteredHeader { h with extra := h.extra.take istanbulExtraVanity ++ ist'.encoding } keepSeal =
      istanbulFilteredHeader h keepSeal := by
  rw [istanbulFilteredHeader_eq (extractIstanbulExtra_rewritten extracted fits) keepSeal (same ▸ filteredFits),
    istanbulFilteredHeader_eq extracted keepSeal filteredFits, take_vanity_rewritten extracted, same]
  rfl

end Rewritten

theorem seal_writes_keep_hashes (keccak256 : List UInt8 → Types.Hash) {h : Types.Header} {ist : IstanbulExtra}
    (istanbul : h.mixDigest = istanbulDigest) (extracted : extractIstanbulExtra h = .ok ist)
    {«seal» : List UInt8} (sealSize : «seal».length % istanbulExtraSeal = 0)
    (sealFits : h.extra.length + «seal».length < 2 ^ 63)
    {committedSeals : List (List UInt8)} (nonempty : committedSeals ≠ [])
    (sized : ∀ c ∈ committedSeals, c.length = istanbulExtraSeal)
    (committedFits : h.extra.length + istanbulExtraSeal * committedSeals.length < 2 ^ 63) :
    (∃ sealed, writeSeal h «seal» = .ok sealed ∧ sigHash keccak256 sealed = sigHash keccak256 h ∧
      sealed.extra.take istanbulExtraVanity = h.extra.take istanbulExtraVanity ∧
      extractIstanbulExtra sealed = .ok { ist with «seal» := «seal» }) ∧
    (∃ committed, writeCommittedSeals h committedSeals = .ok committed ∧
      committed.hash keccak256 = h.hash keccak256 ∧ sigHash keccak256 committed = sigHash keccak256 h ∧
      committed.extra.take istanbulExtraVanity = h.extra.take istanbulExtraVanity ∧
      extractIstanbulExtra committed = .ok { ist with committedSeal := committedSeals }) := by
  -- every encoding written below is bounded by the extra it replaces and the seals it adds
  obtain ⟨long, payload, -⟩ := extractIstanbulExtra_ok extracted
  have payloadLe := ist.payloadLength_le
  have encodingLe : ist.encoding.length + istanbulExtraVanity ≤ h.extra.length := by
    have sizes := congrArg List.length payload
    rw [List.length_drop] at sizes
    omega
  have filteredFits : ∀ keepSeal, (ist.filtered keepSeal).encoding.length < 2 ^ 64 := by
    intro keepSeal
    have shorter := payloadLength_filtered_le ist keepSeal
    have written := (ist.filtered keepSeal).length_encoding_le (by omega)
    omega
  have sealedFits : ({ ist with «seal» := «seal» } : IstanbulExtra).encoding.length < 2 ^ 64 := by
    have longer := payloadLength_with_seal_le ist (by omega : «seal».length < 2 ^ 64)
    have written := ({ ist with «seal» := «seal» } : IstanbulExtra).length_encoding_le (by omega)
    omega
  have committedEncodingFits :
      ({ ist with committedSeal := committedSeals } : IstanbulExtra).encoding.length < 2 ^ 64 := by
    rw [show istanbulExtraSeal = 65 from rfl] at committedFits
    have longer := payloadLength_with_committedSeal_le ist sized (by omega)
    have written := ({ ist with committedSeal := committedSeals } : IstanbulExtra).length_encoding_le (by omega)
    omega
  constructor
  · refine ⟨_, writeSeal_eq extracted sealSize sealedFits, ?_, take_vanity_rewritten extracted,
      extractIstanbulExtra_rewritten extracted sealedFits⟩
    unfold sigHash
    rw [istanbulFilteredHeader_rewritten extracted sealedFits false rfl (filteredFits false)]
  · refine ⟨_, writeCommittedSeals_eq extracted nonempty sized committedEncodingFits, ?_, ?_,
      take_vanity_rewritten extracted, extractIstanbulExtra_rewritten extracted committedEncodingFits⟩
    · -- the block hash keeps the proposer seal but not the committed seals
      have filtered := istanbulFilteredHeader_eq extracted true (filteredFits true)
      have rewritten := istanbulFilteredHeader_rewritten extracted committedEncodingFits true rfl (filteredFits true)
      rw [filtered] at rewritten
      unfold Types.Header.hash
      rw [rewritten, filtered]
      simp only [istanbul, if_true]
    · unfold sigHash
      rw [istanbulFilteredHeader_rewritten extracted committedEncodingFits false rfl (filteredFits false)]

/-- The extra of a proposed block: validators 1 and 2, the proposer's seal, no committed
seal yet. -/
def proposedExtra : IstanbulExtra := ⟨[1#160, 2#160], List.replicate 65 7, []⟩

def proposedHeader : Types.Header :=
  { parentHash := 0#256, uncleHash := 0#256, coinbase := 1#160, root := 0#256, txHash := 0#256,
    receiptHash := 0#256, bloom := 0#2048, difficulty := some 1, number := some 1, gasLimit := 0,
    gasUsed := 0, time := 0, extra := List.replicate 32 0 ++ proposedExtra.encoding,
    mixDigest := istanbulDigest, nonce := 0#64 }

theorem proposedHeader_extracted : extractIstanbulExtra proposedHeader = .ok proposedExtra :=
  extractIstanbulExtra_encode proposedHeader rfl (Rlp.Item.fits_of_length _ (by decide +kernel))

/-- A stand-in for Keccak-256 that reads every byte it is given. -/
def polynomialHash (bytes : List UInt8) : Types.Hash :=
  BitVec.ofNat 256 (bytes.foldl (fun acc b => 257 * acc + b.toNat) 1)

theorem seal_writes_keep_hashes_of_proposed_header :
    proposedHeader.mixDigest = istanbulDigest ∧ extractIstanbulExtra proposedHeader = .ok proposedExtra ∧
      (List.replicate 65 (9 : UInt8)).length % istanbulExtraSeal = 0 ∧
      proposedHeader.extra.length + (List.replicate 65 (9 : UInt8)).length < 2 ^ 63 ∧
      [List.replicate 65 (1 : UInt8), List.replicate 65 2] ≠ [] ∧
      (∀ c ∈ [List.replicate 65 (1 : UInt8), List.replicate 65 2], c.length = istanbulExtraSeal) ∧
      proposedHeader.extra.length + istanbulExtraSeal * [List.replicate 65 (1 : UInt8), List.replicate 65 2].length <
        2 ^ 63 ∧
      (∃ sealed, writeSeal proposedHeader (List.replicate 65 9) = .ok sealed ∧
        sigHash polynomialHash sealed = sigHash polynomialHash proposedHeader ∧
        sealed.extra.take istanbulExtraVanity = proposedHeader.extra.take istanbulExtraVanity ∧
        extractIstanbulExtra sealed = .ok ⟨[1#160, 2#160], List.replicate 65 9, []⟩) ∧
      (∃ committed, writeCommittedSeals proposedHeader [List.replicate 65 1, List.replicate 65 2] = .ok committed ∧
        committed.hash polynomialHash = proposedHeader.hash polynomialHash ∧
        sigHash polynomialHash committed = sigHash polynomialHash proposedHeader ∧
        committed.extra.take istanbulExtraVanity = proposedHeader.extra.take istanbulExtraVanity ∧
        extractIstanbulExtra committed =
          .ok ⟨[1#160, 2#160], List.replicate 65 7, [List.replicate 65 1, List.replicate 65 2]⟩) :=
  ⟨rfl, proposedHeader_extracted, by decide, by decide +kernel, by decide, by decide, by decide +kernel,
    seal_writes_keep_hashes polynomialHash rfl proposedHeader_extracted (by decide) (by decide +kernel)
      (by decide) (by decide) (by decide +kernel)⟩

end SimpleChain.Istanbul
