import Mathlib
import SimpleChain.Lib.BigEndian

/-! # RLP items

What the `rlp` package serialises, stated on its own: a tree whose leaves are
byte strings and whose inner nodes are lists.  A string of one byte below 0x80
is that byte; any other string, and every list, is a header followed by the
payload.  A header of a payload shorter than 56 bytes is one tag byte holding the
size; a longer payload's header is a tag holding the length of the size, then the
size as its shortest big-endian string.  The writers of `SimpleChain.Rlp.Encode`
refine `Item.encode`, and the stream decoder inverts it. -/
set_option autoImplicit false

namespace SimpleChain.Rlp

open BigEndian

inductive Item where
  | str (bytes : List UInt8)
  | list (items : List Item)

/-- The header of a payload of `size` bytes: string tags 0x80/0xB7, list tags 0xC0/0xF7. -/
def header (smalltag largetag : UInt8) (size : Nat) : List UInt8 :=
  if size < 56 then [smalltag + UInt8.ofNat size]
  else (largetag + UInt8.ofNat (minBE size).length) :: minBE size

/-- A string that is its own encoding: one byte below 0x80. -/
def singleByte : List UInt8 → Bool
  | [b] => b ≤ 0x7F
  | _ => false

def encodeStr (bytes : List UInt8) : List UInt8 :=
  if singleByte bytes then bytes else header 0x80 0xB7 bytes.length ++ bytes

mutual
def Item.encode : Item → List UInt8
  | .str bytes => encodeStr bytes
  | .list items => header 0xC0 0xF7 (encodeItems items).length ++ encodeItems items

/-- The payload of a list: its items' encodings one after the other. -/
def encodeItems : List Item → List UInt8
  | [] => []
  | item :: items => item.encode ++ encodeItems items
end

/-- The number of header bytes for a payload of `size` bytes (the source's `headsize`). -/
def headsize (size : Nat) : Nat := if size < 56 then 1 else 1 + (minBE size).length

theorem length_header (smalltag largetag : UInt8) (size : Nat) :
    (header smalltag largetag size).length = headsize size := by
  unfold header headsize
  split <;> simp [Nat.add_comm]

@[simp] theorem encode_list (items : List Item) :
    (Item.list items).encode = header 0xC0 0xF7 (encodeItems items).length ++ encodeItems items := by
  rw [Item.encode]

@[simp] theorem encode_str (bytes : List UInt8) : (Item.str bytes).encode = encodeStr bytes := by
  rw [Item.encode]

@[simp] theorem encodeItems_nil : encodeItems [] = [] := by
  rw [encodeItems]

@[simp] theorem encodeItems_cons (item : Item) (items : List Item) :
    encodeItems (item :: items) = item.encode ++ encodeItems items := by
  rw [encodeItems]

theorem length_le_encodeStr (bytes : List UInt8) : bytes.length ≤ (encodeStr bytes).length := by
  unfold encodeStr
  split <;> simp

theorem headsize_le_nine {n : Nat} (fits : n < 2 ^ 64) : headsize n ≤ 9 := by
  have := (length_minBE_le_iff n 8).mpr (by simpa using fits)
  unfold headsize
  split <;> omega

theorem length_encodeStr_le {b : List UInt8} (fits : b.length < 2 ^ 64) : (encodeStr b).length ≤ b.length + 9 := by
  have headerLe := headsize_le_nine fits
  unfold encodeStr
  split
  · omega
  · rw [List.length_append, length_header]
    omega

theorem length_encode_le_of_mem {item : Item} {items : List Item} (member : item ∈ items) :
    item.encode.length ≤ (encodeItems items).length := by
  induction items with
  | nil => cases member
  | cons first rest restBound =>
      rw [encodeItems_cons, List.length_append]
      rcases List.mem_cons.mp member with rfl | later
      · exact Nat.le_add_right _ _
      · have := restBound later
        omega

theorem encodeItems_append (front back : List Item) :
    encodeItems (front ++ back) = encodeItems front ++ encodeItems back := by
  induction front with
  | nil => simp
  | cons item rest restAppend => simp [restAppend]

mutual
/-- Every payload of the item has a size below 2^64, the most a header holds. -/
def Item.Fits : Item → Prop
  | .str bytes => bytes.length < 2 ^ 64
  | .list items => (encodeItems items).length < 2 ^ 64 ∧ Item.FitsAll items

def Item.FitsAll : List Item → Prop
  | [] => True
  | item :: items => item.Fits ∧ Item.FitsAll items
end

theorem fitsAll_iff : ∀ {items : List Item}, Item.FitsAll items ↔ ∀ item ∈ items, item.Fits
  | [] => by simp [Item.FitsAll]
  | item :: items => by simp [Item.FitsAll, fitsAll_iff]

mutual
/-- An item whose whole encoding fits has every payload fit. -/
theorem Item.fits_of_length : ∀ item : Item, item.encode.length < 2 ^ 64 → item.Fits
  | .str bytes, fits => by
      rw [encode_str] at fits
      exact Nat.lt_of_le_of_lt (length_le_encodeStr bytes) fits
  | .list items, fits => by
      rw [encode_list, List.length_append] at fits
      exact ⟨by omega, Item.fitsAll_of_length items (by omega)⟩

theorem Item.fitsAll_of_length : ∀ items : List Item, (encodeItems items).length < 2 ^ 64 → Item.FitsAll items
  | [], _ => trivial
  | item :: items, fits => by
      rw [encodeItems_cons, List.length_append] at fits
      exact ⟨Item.fits_of_length item (by omega), Item.fitsAll_of_length items (by omega)⟩
end

end SimpleChain.Rlp
