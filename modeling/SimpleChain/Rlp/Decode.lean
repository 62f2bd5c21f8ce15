import Mathlib
import SimpleChain.Rlp.Stream

/-! # The decoders (`rlp/decode.go`, `makeDecoder`)

Each decoder reads one value of its type from the stream.  A decoder writes
into a fresh value here, so it returns the value it decoded; a nil pointer or
slice it is handed is allocated, as the source does for a fresh value.

The loops that read the elements of a list run until `Kind` reports the end of
the list.  That needs every element to be consumed: `decodeByteArray` on a
single zero byte leaves the byte's kind cached (it drops the error of `Uint`,
and `Uint` rearms only on a nonzero byte), and the loop of a slice then reads
the same byte forever.  The model gives that loop one round per byte of the list
and one more, which every run that ends stays within, and reports
`loopDiverges` past it. -/
set_option autoImplicit false

namespace SimpleChain.Rlp

open BigEndian StateExcept

/-- A stream error reported against the type being decoded (`wrapStreamError`). -/
def wrapped {α : Type} (typ : RType) (x : StreamM α) : StreamM α :=
  tryCatch x fun err => throw (wrapStreamError err typ)

def decodeUint (size : UintSize) : StreamM Value := do
  let num ← wrapped (.uint size) (Stream.uint size.bits)
  pure (.uint num)

def decodeBool : StreamM Value := do
  let b ← wrapped .bool Stream.bool
  pure (.bool b)

def decodeString : StreamM Value := do
  let b ← wrapped .string Stream.bytes
  pure (.bytes b)

def decodeBigInt : StreamM Value := do
  let b ← wrapped .bigInt Stream.bytes
  -- Reject leading zero bytes
  if b.head? = some 0 then throw (wrapStreamError .canonInt .bigInt)
  else pure (.bigInt (ofBE b))

def decodeByteSlice (typ : RType) : StreamM Value := do
  let b ← wrapped typ Stream.bytes
  pure (.bytes b)

def decodeByteArray (typ : RType) (vlen : Nat) : StreamM Value := do
  let (k, size) ← Stream.kind
  match k with
  | .byte =>
      if vlen = 0 then throw (.decode "input string too long" typ)
      else if vlen > 1 then throw (.decode "input string too short" typ)
      else do
        -- the error of Uint is dropped, and with it the rearming of Kind on a zero byte
        let bv ← attempt (Stream.uint 64)
        let bv := match bv with
          | .ok v => v
          | .error _ => 0
        pure (.bytes [UInt8.ofNat bv])
  | .string =>
      if vlen < size then throw (.decode "input string too long" typ)
      else if vlen > size then throw (.decode "input string too short" typ)
      else do
        let slice ← Stream.readFull vlen
        -- Reject cases where single byte encoding should have been used.
        if size = 1 ∧ slice.headD 0 < 128 then throw (wrapStreamError .canonSize typ)
        else pure (.bytes slice)
  | .list => throw (wrapStreamError .expectedString typ)

/-- The loop `for i := 0; ; i++` of `decodeSliceElems` and `decodeListArray`: elements
until `EOL`, for at most `bound` rounds, then `atBound`. -/
def elemsUntilEOL (elemdec : StreamM Value) (atBound : StreamM (List Value)) :
    Nat → StreamM (List Value)
  | 0 => atBound
  | bound + 1 => do
      match ← attempt elemdec with
      | .error .eol => pure []
      | .error err => throw err
      | .ok v => do
          let vs ← elemsUntilEOL elemdec atBound bound
          pure (v :: vs)

/-- `decodeSliceElems` inside a list of `size` bytes. -/
def decodeSliceElems (elemdec : StreamM Value) (size : Nat) : StreamM (List Value) :=
  elemsUntilEOL elemdec (throw .loopDiverges) (size + 1)

def decodeListSlice (typ : RType) (elemdec : StreamM Value) : StreamM Value := do
  let size ← wrapped typ Stream.list
  if size = 0 then do
    Stream.listEnd
    pure (.list [])
  else do
    let vs ← decodeSliceElems elemdec size
    Stream.listEnd
    pure (.list vs)

def decodeListArray (typ : RType) (vlen : Nat) (elemdec : StreamM Value) : StreamM Value := do
  let _ ← wrapped typ Stream.list
  let vs ← elemsUntilEOL elemdec (pure []) vlen
  if vs.length < vlen then throw (.decode "input list has too few elements" typ)
  else do
    wrapped typ Stream.listEnd
    pure (.list vs)

/-- The decoder `makeStructDecoder` builds, around the loop over the fields. -/
def makeStructDecoder (typ : RType) (decodeFields : StreamM (List Value)) : StreamM Value := do
  let _ ← wrapped typ Stream.list
  let vs ← decodeFields
  wrapped typ Stream.listEnd
  pure (.list vs)

def makeSimplePtrDecoder (elemdec : StreamM Value) : StreamM Value := do
  let v ← elemdec
  pure (.ptr v)

/-- `decodeInterface`, given a bound on the depth of the lists it reads. -/
def decodeInterface : Nat → StreamM Value
  | 0 => throw .loopDiverges
  | depth + 1 => do
      let (k, _) ← Stream.kind
      if k = .list then decodeListSlice (.slice .iface) (decodeInterface depth)
      else do
        let b ← Stream.bytes
        pure (.bytes b)

mutual
/-- `makeDecoder`: the decoder of each type. -/
def makeDecoder : RType → StreamM Value
  | .bigInt => decodeBigInt
  | .ptr elem => makeSimplePtrDecoder (makeDecoder elem)
  | .uint size => decodeUint size
  | .bool => decodeBool
  | .string => decodeString
  | .slice elem =>
      if elem.isByte then decodeByteSlice (.slice elem)
      else decodeListSlice (.slice elem) (makeDecoder elem)
  | .array len elem =>
      if elem.isByte then decodeByteArray (.array len elem) len
      else decodeListArray (.array len elem) len (makeDecoder elem)
  | .struct fields => makeStructDecoder (.struct fields) (decodeFields (.struct fields) fields)
  -- each list it reads takes at least its header byte, so the input bounds the depth
  | .iface => do
      let s ← get
      decodeInterface (s.input.length + 1)

/-- The loop over the fields of `makeStructDecoder`. -/
def decodeFields (typ : RType) : List RType → StreamM (List Value)
  | [] => pure []
  | field :: fields => do
      match ← attempt (makeDecoder field) with
      | .error .eol => throw (.decode "too few elements" typ)
      | .error err => throw err
      | .ok v => do
          let vs ← decodeFields typ fields
          pure (v :: vs)
end

/-- `DecodeBytes`: one value and no trailing data. -/
def decodeBytes (t : RType) (b : List UInt8) : Except RlpError Value :=
  match exec (makeDecoder t) (Stream.reset b) with
  | (.error err, _) => .error err
  | (.ok v, s) => if s.input.isEmpty then .ok v else .error .moreThanOneValue

end SimpleChain.Rlp
