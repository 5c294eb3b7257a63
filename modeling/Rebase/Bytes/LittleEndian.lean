/-!
# Little-endian numbers

Every field wider than a byte is stored with its least significant byte first. This module holds the
two directions of that encoding, for all widths at once:

- `decode`: the number that a list of bytes stands for
- `encode`: the bytes of a number, cut to a width
- `Word`: the machine words, which have 2, 4 or 8 bytes

The main statements are `decode_encode` and `encode_decode`: on lists of one length the two are
inverse to each other, and `encode` keeps exactly the bits that fit its width.
-/

namespace Rebase

namespace LittleEndian

/-- The number whose bytes, least significant first, are the given ones. -/
def decode : List UInt8 → Nat
  | [] => 0
  | b :: rest => b.toNat + 256 * decode rest

/-- The `width` low bytes of a number, least significant first. -/
def encode : (width : Nat) → (value : Nat) → List UInt8
  | 0, _ => []
  | width + 1, value => UInt8.ofNat value :: encode width (value / 256)

@[simp] theorem decode_nil : decode [] = 0 := rfl

@[simp] theorem decode_cons (b : UInt8) (rest : List UInt8) :
    decode (b :: rest) = b.toNat + 256 * decode rest := rfl

@[simp] theorem length_encode (width value : Nat) : (encode width value).length = width := by
  induction width generalizing value with
  | zero => rfl
  | succ width ih => simp [encode, ih]

/-- How many numbers a width can tell apart. -/
def capacity : (width : Nat) → Nat
  | 0 => 1
  | width + 1 => 256 * capacity width

/-- A list of bytes stands for a number that fits its length. -/
theorem decode_lt (bytes : List UInt8) : decode bytes < capacity bytes.length := by
  induction bytes with
  | nil => exact Nat.one_pos
  | cons b rest ih =>
    have hb : b.toNat < 256 := b.toNat_lt
    simp only [decode_cons, List.length_cons, capacity]
    omega

/-- **Writing and reading back** keeps the part of the number that fits the width. -/
theorem decode_encode (width value : Nat) :
    decode (encode width value) = value % capacity width := by
  induction width generalizing value with
  | zero => simp [encode, capacity, Nat.mod_one]
  | succ width ih =>
    rw [encode, decode_cons, ih, capacity, Nat.mod_mul]
    simp

/-- **Reading and writing back** gives the bytes that were read. -/
theorem encode_decode (bytes : List UInt8) : encode bytes.length (decode bytes) = bytes := by
  induction bytes with
  | nil => rfl
  | cons b rest ih =>
    have hb : b.toNat < 256 := b.toNat_lt
    have hlow : UInt8.ofNat (b.toNat + 256 * decode rest) = b := by
      apply UInt8.toNat.inj
      simp
    have hhigh : (b.toNat + 256 * decode rest) / 256 = decode rest := by omega
    rw [List.length_cons, decode_cons, encode, hlow, hhigh, ih]

end LittleEndian

/-! ## Words -/

/-- A machine word with `width` bytes stands for the numbers that these bytes can tell apart. -/
class Word (α : Type) (width : outParam Nat) where
  toNat : α → Nat
  ofNat : Nat → α
  toNat_lt (value : α) : toNat value < LittleEndian.capacity width
  ofNat_toNat (value : α) : ofNat (toNat value) = value
  toNat_ofNat {n : Nat} (h : n < LittleEndian.capacity width) : toNat (ofNat n) = n

namespace Word

instance wordUInt16 : Word UInt16 2 where
  toNat := UInt16.toNat
  ofNat := UInt16.ofNat
  toNat_lt := UInt16.toNat_lt
  ofNat_toNat _ := UInt16.ofNat_toNat
  toNat_ofNat := UInt16.toNat_ofNat_of_lt'

instance wordUInt32 : Word UInt32 4 where
  toNat := UInt32.toNat
  ofNat := UInt32.ofNat
  toNat_lt := UInt32.toNat_lt
  ofNat_toNat _ := UInt32.ofNat_toNat
  toNat_ofNat := UInt32.toNat_ofNat_of_lt'

instance wordUInt64 : Word UInt64 8 where
  toNat := UInt64.toNat
  ofNat := UInt64.ofNat
  toNat_lt := UInt64.toNat_lt
  ofNat_toNat _ := UInt64.ofNat_toNat
  toNat_ofNat := UInt64.toNat_ofNat_of_lt'

@[simp] theorem toNat_uint16 (value : UInt16) : toNat value = value.toNat := rfl

@[simp] theorem toNat_uint32 (value : UInt32) : toNat value = value.toNat := rfl

open LittleEndian (decode encode)

variable {α : Type} {width : Nat} [Word α width]

/-- **The bytes of a word** stand for it. -/
theorem ofNat_decode_encode (value : α) : ofNat (decode (encode width (toNat value))) = value := by
  rw [LittleEndian.decode_encode, Nat.mod_eq_of_lt (toNat_lt value), ofNat_toNat]

/-- **Bytes in the number of a word's** are those of the word that they stand for. -/
theorem encode_toNat_ofNat_decode (α : Type) [Word α width] {bytes : List UInt8}
    (h : bytes.length = width) :
    encode width (toNat (ofNat (decode bytes) : α)) = bytes := by
  have hlt := LittleEndian.decode_lt bytes
  rw [h] at hlt
  rw [toNat_ofNat hlt, ← h, LittleEndian.encode_decode]

end Word

end Rebase
