import Mathlib
import SimpleChain.Rlp.Item

/-! # Go types and values the `rlp` package handles

`makeWriter` and `makeDecoder` dispatch on a value's reflected type.  `RType`
lists the kinds they accept without custom `EncodeRLP`/`DecodeRLP` methods or
struct tags: unsigned integers, `bool`, `string`, `*big.Int`, slices and arrays
(of bytes or of another type), structs, pointers and `interface{}`.  A value is
an untyped tree; `RType.holds` says that it is a value of the type.  Strings,
byte slices and byte arrays are all byte lists, and a nil slice is the empty one
(nothing in the package tells them apart).  An `interface{}` holds nil, a
`[]byte` or an `[]interface{}`: the trees `decodeInterface` builds. -/
set_option autoImplicit false

namespace SimpleChain.Rlp

/-- The unsigned integer kinds, by `typ.Bits()`; `uint` and `uintptr` are 64 bits wide. -/
inductive UintSize where
  | u8
  | u16
  | u32
  | u64
  deriving DecidableEq, Repr

def UintSize.bits : UintSize → Nat
  | .u8 => 8
  | .u16 => 16
  | .u32 => 32
  | .u64 => 64

inductive RType where
  | uint (size : UintSize)
  | bool
  | string
  /-- `*big.Int`. -/
  | bigInt
  | slice (elem : RType)
  | array (len : Nat) (elem : RType)
  | struct (fields : List RType)
  | ptr (elem : RType)
  | iface

/-- `isByte`: the element kind that makes a slice or array a byte string. -/
def RType.isByte : RType → Bool
  | .uint .u8 => true
  | _ => false

/-- The kind of value in an RLP stream. -/
inductive Kind where
  | byte
  | string
  | list
  deriving DecidableEq, Repr

/-- `defaultNilKind`: the kind of the empty value a nil pointer to the type encodes to. -/
def RType.nilKind : RType → Kind
  | .uint _ | .string | .bool => .string
  | .slice elem | .array _ elem => if elem.isByte then .string else .list
  | _ => .list

inductive Value where
  | uint (n : Nat)
  | bool (b : Bool)
  /-- A non-nil `*big.Int`. -/
  | bigInt (i : Int)
  /-- A `string`, `[]byte` or `[n]byte`. -/
  | bytes (b : List UInt8)
  /-- A slice or array of another element type, a struct, or an `[]interface{}`. -/
  | list (elems : List Value)
  /-- A non-nil pointer. -/
  | ptr (v : Value)
  /-- A nil pointer, nil `*big.Int` or nil interface. -/
  | nil

mutual
/-- An `interface{}` value: nil, a `[]byte` or an `[]interface{}`. -/
def Value.isTree : Value → Bool
  | .nil | .bytes _ => true
  | .list elems => Value.areTrees elems
  | _ => false

def Value.areTrees : List Value → Bool
  | [] => true
  | v :: vs => v.isTree && Value.areTrees vs
end

mutual
/-- `v` is a value of the type `t` that the writers accept: integers within their
width, a non-negative `*big.Int`, arrays of their length, structs field by field. -/
def RType.holds : RType → Value → Bool
  | .uint size, .uint n => n < 2 ^ size.bits
  | .bool, .bool _ => true
  | .string, .bytes _ => true
  | .bigInt, .bigInt i => 0 ≤ i
  | .bigInt, .nil => true
  | .slice elem, .bytes _ => elem.isByte
  | .slice elem, .list vs => !elem.isByte && vs.all elem.holds
  | .array len elem, .bytes bs => elem.isByte && bs.length == len
  | .array len elem, .list vs => !elem.isByte && vs.length == len && vs.all elem.holds
  | .struct fields, .list vs => RType.holdsFields fields vs
  | .ptr _, .nil => true
  | .ptr elem, .ptr v => elem.holds v
  | .iface, v => v.isTree
  | _, _ => false

def RType.holdsFields : List RType → List Value → Bool
  | [], [] => true
  | field :: fields, v :: vs => field.holds v && RType.holdsFields fields vs
  | _, _ => false
end

/-- Induction over types, with every field of a struct as a hypothesis. -/
theorem RType.induction {motive : RType → Prop} (uint : ∀ size, motive (.uint size))
    (bool : motive .bool) (string : motive .string) (bigInt : motive .bigInt)
    (slice : ∀ elem, motive elem → motive (.slice elem))
    (array : ∀ len elem, motive elem → motive (.array len elem))
    (struct : ∀ fields, (∀ field ∈ fields, motive field) → motive (.struct fields))
    (ptr : ∀ elem, motive elem → motive (.ptr elem)) (iface : motive .iface) (t : RType) :
    motive t :=
  @RType.rec motive (fun fields => ∀ field ∈ fields, motive field) uint bool string bigInt slice
    array struct ptr iface (fun _ absurd => nomatch absurd)
    (fun _ _ headCase tailCases field member => by
      rcases List.mem_cons.mp member with rfl | later
      · exact headCase
      · exact tailCases field later) t

/-- Induction over values, with every element of a list as a hypothesis. -/
theorem Value.induction {motive : Value → Prop} (uint : ∀ n, motive (.uint n))
    (bool : ∀ b, motive (.bool b)) (bigInt : ∀ i, motive (.bigInt i))
    (bytes : ∀ b, motive (.bytes b)) (list : ∀ elems, (∀ v ∈ elems, motive v) → motive (.list elems))
    (ptr : ∀ v, motive v → motive (.ptr v)) (nil : motive .nil) (v : Value) : motive v :=
  @Value.rec motive (fun elems => ∀ v ∈ elems, motive v) uint bool bigInt bytes list ptr nil
    (fun _ absurd => nomatch absurd)
    (fun _ _ headCase tailCases v member => by
      rcases List.mem_cons.mp member with rfl | later
      · exact headCase
      · exact tailCases v later) v

/-! What a value of each type looks like. -/

theorem holds_uint {size : UintSize} {v : Value} :
    (RType.uint size).holds v ↔ ∃ n, v = .uint n ∧ n < 2 ^ size.bits := by
  cases v
  case uint n => exact ⟨fun h => ⟨n, rfl, of_decide_eq_true h⟩, fun ⟨_, eq, lt⟩ => by cases eq; exact decide_eq_true lt⟩
  all_goals exact ⟨nofun, fun ⟨_, eq, _⟩ => nomatch eq⟩

theorem holds_bool {v : Value} : RType.bool.holds v ↔ ∃ b, v = .bool b := by
  cases v
  case bool b => exact ⟨fun _ => ⟨b, rfl⟩, fun _ => rfl⟩
  all_goals exact ⟨nofun, fun ⟨_, eq⟩ => nomatch eq⟩

theorem holds_string {v : Value} : RType.string.holds v ↔ ∃ s, v = .bytes s := by
  cases v
  case bytes s => exact ⟨fun _ => ⟨s, rfl⟩, fun _ => rfl⟩
  all_goals exact ⟨nofun, fun ⟨_, eq⟩ => nomatch eq⟩

theorem holds_bigInt {v : Value} : RType.bigInt.holds v ↔ v = .nil ∨ ∃ i, v = .bigInt i ∧ 0 ≤ i := by
  cases v
  case bigInt i =>
    exact ⟨fun h => .inr ⟨i, rfl, of_decide_eq_true h⟩,
      fun | .inl eq => nomatch eq | .inr ⟨_, eq, nonneg⟩ => by cases eq; exact decide_eq_true nonneg⟩
  case nil => exact ⟨fun _ => .inl rfl, fun _ => rfl⟩
  all_goals exact ⟨nofun, fun | .inl eq => nomatch eq | .inr ⟨_, eq, _⟩ => nomatch eq⟩

theorem holds_slice {elem : RType} {v : Value} :
    (RType.slice elem).holds v ↔
      (elem.isByte ∧ ∃ b, v = .bytes b) ∨ (elem.isByte = false ∧ ∃ vs, v = .list vs ∧ ∀ x ∈ vs, elem.holds x) := by
  cases v
  case bytes b => exact ⟨fun h => .inl ⟨h, b, rfl⟩, fun | .inl ⟨h, _⟩ => h | .inr ⟨_, _, eq, _⟩ => nomatch eq⟩
  case list vs =>
    show (!elem.isByte && vs.all elem.holds) = true ↔ _
    simp only [Bool.and_eq_true, Bool.not_eq_true', List.all_eq_true, Value.list.injEq, exists_eq_left',
      reduceCtorEq, exists_false, and_false, false_or]
  all_goals exact ⟨nofun, fun | .inl ⟨_, _, eq⟩ => nomatch eq | .inr ⟨_, _, eq, _⟩ => nomatch eq⟩

theorem holds_array {len : Nat} {elem : RType} {v : Value} :
    (RType.array len elem).holds v ↔
      (elem.isByte ∧ ∃ b, v = .bytes b ∧ b.length = len) ∨
        (elem.isByte = false ∧ ∃ vs, v = .list vs ∧ vs.length = len ∧ ∀ x ∈ vs, elem.holds x) := by
  cases v
  case bytes b =>
    show (elem.isByte && b.length == len) = true ↔ _
    simp only [Bool.and_eq_true, beq_iff_eq, Value.bytes.injEq, exists_eq_left', reduceCtorEq, false_and,
      exists_false, and_false, or_false]
  case list vs =>
    show (!elem.isByte && vs.length == len && vs.all elem.holds) = true ↔ _
    simp only [Bool.and_eq_true, Bool.not_eq_true', beq_iff_eq, List.all_eq_true, Value.list.injEq,
      exists_eq_left', reduceCtorEq, false_and, exists_false, and_false, false_or, and_assoc]
  all_goals exact ⟨nofun, fun | .inl ⟨_, _, eq, _⟩ => nomatch eq | .inr ⟨_, _, eq, _⟩ => nomatch eq⟩

theorem holds_struct {fields : List RType} {v : Value} :
    (RType.struct fields).holds v ↔ ∃ vs, v = .list vs ∧ RType.holdsFields fields vs := by
  cases v
  case list vs => exact ⟨fun h => ⟨vs, rfl, h⟩, fun ⟨_, eq, h⟩ => by cases eq; exact h⟩
  all_goals exact ⟨nofun, fun ⟨_, eq, _⟩ => nomatch eq⟩

theorem holds_ptr {elem : RType} {v : Value} :
    (RType.ptr elem).holds v ↔ v = .nil ∨ ∃ x, v = .ptr x ∧ elem.holds x := by
  cases v
  case ptr x => exact ⟨fun h => .inr ⟨x, rfl, h⟩, fun | .inl eq => nomatch eq | .inr ⟨_, eq, ok⟩ => by cases eq; exact ok⟩
  case nil => exact ⟨fun _ => .inl rfl, fun _ => rfl⟩
  all_goals exact ⟨nofun, fun | .inl eq => nomatch eq | .inr ⟨_, eq, _⟩ => nomatch eq⟩

theorem holds_iface {v : Value} : RType.iface.holds v ↔ v.isTree := by
  cases v <;> exact Iff.rfl

theorem holdsFields_cons {field : RType} {fields : List RType} {vs : List Value} :
    RType.holdsFields (field :: fields) vs ↔
      ∃ v rest, vs = v :: rest ∧ field.holds v ∧ RType.holdsFields fields rest := by
  cases vs with
  | nil => exact ⟨nofun, fun ⟨_, _, eq, _⟩ => nomatch eq⟩
  | cons v rest =>
      show (field.holds v && RType.holdsFields fields rest) = true ↔ _
      rw [Bool.and_eq_true]
      exact ⟨fun ⟨ok, restOk⟩ => ⟨v, rest, rfl, ok, restOk⟩, fun ⟨_, _, eq, ok, restOk⟩ => by cases eq; exact ⟨ok, restOk⟩⟩

theorem isTree_list {elems : List Value} : (Value.list elems).isTree ↔ ∀ v ∈ elems, v.isTree := by
  rw [Value.isTree]
  induction elems with
  | nil => simp [Value.areTrees]
  | cons v rest restTrees => simp [Value.areTrees, restTrees]

/-- The errors of the package, with `decodeError` as `decode msg typ`; the contexts
`addErrorContext` appends to its message are left out. -/
inductive RlpError where
  | eol
  | expectedString
  | expectedList
  | canonInt
  | canonSize
  | elemTooLarge
  | valueTooLarge
  | moreThanOneValue
  | notInList
  | notAtEOL
  | uintOverflow
  /-- `io.EOF` -/
  | eof
  /-- `io.ErrUnexpectedEOF` -/
  | unexpectedEOF
  /-- "rlp: invalid boolean value: %d" -/
  | invalidBool (num : Nat)
  /-- "rlp: cannot encode negative *big.Int" -/
  | negativeBigInt
  /-- "rlp: type %v is not RLP-serializable" -/
  | notSerializable
  | decode (msg : String) (typ : RType)
  /-- Not an error of the source: a decoding loop that would run forever (see
  `decodeSliceElems`). -/
  | loopDiverges

/-- `wrapStreamError`: the stream errors a decoder reports against its type. -/
def wrapStreamError (err : RlpError) (typ : RType) : RlpError :=
  match err with
  | .canonInt => .decode "non-canonical integer (leading zero bytes)" typ
  | .canonSize => .decode "non-canonical size information" typ
  | .expectedList => .decode "expected input list" typ
  | .expectedString => .decode "expected input string or byte" typ
  | .uintOverflow => .decode "input string too long" typ
  | .notAtEOL => .decode "input list has too many elements" typ
  | err => err

end SimpleChain.Rlp
