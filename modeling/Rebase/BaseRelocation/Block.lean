import Rebase.Bytes.LittleEndian

/-!
# Blocks of a base relocation table

A base relocation table is a sequence of blocks, one for each page of 4096 addresses that needs any.
A block is the address of its page and its own size, 32 bits each, and then entries of 16 bits: the
kind in the four high bits, the offset inside the page in the other twelve.

Two kinds matter here: `absolute` does nothing and fills a block up to a whole number of 32-bit
words, `dir64` adds the load offset to a 64-bit value. All others are kept as they are.

The main statements are `Entry.encode_decode`, that no entry is changed by being read, and
`Block.length_encode`, that a block takes up the size that it states.
-/

namespace Rebase.BaseRelocation

/-- The number of addresses in a page. -/
def pageSize : Nat := 4096

/-! ## §1 Entries -/

/-- What an entry asks the loader to do. -/
inductive EntryKind where
  /-- Nothing. -/
  | absolute
  /-- Add the load offset to a 64-bit value. -/
  | dir64
  /-- Anything else. -/
  | other (bits : UInt16)
  deriving DecidableEq

namespace EntryKind

/-- The number that stands for a kind. -/
def bits : EntryKind → UInt16
  | .absolute => 0
  | .dir64 => 10
  | .other bits => bits

/-- The kind that a number stands for. -/
def ofBits (bits : UInt16) : EntryKind :=
  if bits = 0 then .absolute else if bits = 10 then .dir64 else .other bits

@[simp] theorem bits_ofBits (b : UInt16) : (ofBits b).bits = b := by
  unfold ofBits
  split
  · next h => exact h.symm
  · split
    · next h => exact h.symm
    · rfl

end EntryKind

/-- One entry of a block. -/
structure Entry where
  /-- The offset inside the page. -/
  offset : UInt16
  kind : EntryKind
  deriving DecidableEq

namespace Entry

/-- The 16 bits of an entry. Of its kind only the low four bits are kept, of its offset the low
twelve. -/
def encode (e : Entry) : UInt16 := e.kind.bits * 4096 + e.offset % 4096

/-- The entry that 16 bits stand for. -/
def decode (raw : UInt16) : Entry := ⟨raw % 4096, EntryKind.ofBits (raw / 4096)⟩

/-- The entry that fills up a block. -/
def padding : Entry := ⟨0, .absolute⟩

/-- **No entry is changed by being read.** -/
@[simp] theorem encode_decode (raw : UInt16) : (decode raw).encode = raw := by
  apply UInt16.toNat.inj
  have h : raw.toNat < 65536 := raw.toNat_lt
  simp only [encode, decode, EntryKind.bits_ofBits, UInt16.toNat_add, UInt16.toNat_mul,
    UInt16.toNat_div, UInt16.toNat_mod, UInt16.toNat_ofNat, Nat.reducePow, Nat.reduceMod]
  omega

end Entry

/-! ## §2 Blocks -/

/-- The entries of one page. -/
structure Block where
  /-- The first address of the page. -/
  page : UInt32
  /-- The entries, with those that fill up. -/
  entries : List Entry
  deriving DecidableEq

namespace Block

/-- The size of the fields in front of the entries. -/
def headerSize : Nat := 8

/-- The size of a block in bytes. -/
def size (b : Block) : Nat := headerSize + 2 * b.entries.length

/-- The addresses of the 64-bit values that a block asks to change. -/
def addresses (b : Block) : List UInt64 :=
  b.entries.filterMap fun e =>
    if e.kind = .dir64 then some (b.page.toUInt64 + e.offset.toUInt64) else none

/-- The bytes of a block. -/
def encode (b : Block) : List UInt8 :=
  LittleEndian.encode 4 b.page.toNat ++ LittleEndian.encode 4 b.size ++
    b.entries.flatMap fun e => LittleEndian.encode 2 e.encode.toNat

/-- **A block takes up the size that it states.** -/
@[simp] theorem length_encode (b : Block) : b.encode.length = b.size := by
  have h : (b.entries.flatMap fun e => LittleEndian.encode 2 e.encode.toNat).length =
      2 * b.entries.length := by
    induction b.entries with
    | nil => rfl
    | cons e rest ih =>
      rw [List.flatMap_cons, List.length_append, ih, LittleEndian.length_encode, List.length_cons]
      omega
  rw [encode, List.length_append, List.length_append, h, LittleEndian.length_encode,
    LittleEndian.length_encode, size, headerSize]

end Block

end Rebase.BaseRelocation
