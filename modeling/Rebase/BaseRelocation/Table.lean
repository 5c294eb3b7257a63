import Rebase.AddressSet
import Rebase.BaseRelocation.Block
import Rebase.Bytes.Basic
import Rebase.Error

/-!
# Base relocation tables

A table is built from a set of addresses: they are grouped by page, and each group becomes a block
of `dir64` entries, filled up with one `absolute` entry where their number is odd. As the addresses
of a set ascend, so do the pages of the table and the offsets in each block; one set has one table.

The main statements are `size_eq`, the size of a table, and `ofAddresses_eq_error_iff`, which
address is reported when one does not fit 32 bits.
-/

namespace Rebase.BaseRelocation

/-- A base relocation table. -/
structure Table where
  blocks : List Block
  deriving DecidableEq

namespace Table

/-- The bytes of a table. -/
def bytes (t : Table) : Bytes := (t.blocks.flatMap Block.encode).toByteArray

/-- The size of a table in bytes. -/
def size (t : Table) : Nat := t.blocks.foldr (fun b total => b.size + total) 0

/-- The addresses of the 64-bit values that a table asks to change, in the order of the table. -/
def addresses (t : Table) : List UInt64 := t.blocks.flatMap Block.addresses

/-! ## §1 Building -/

/-- The page of an address. -/
def pageOf (address : UInt64) : UInt32 := (address / 4096 * 4096).toUInt32

/-- The entry of an address in the block of its page. -/
def entryOf (address : UInt64) : Entry := ⟨(address % 4096).toUInt16, .dir64⟩

/-- Adds an address in front of blocks: to the first of them, if that is its page's, and otherwise
as a block of its own. -/
def addFront (address : UInt64) : List Block → List Block
  | [] => [⟨pageOf address, [entryOf address]⟩]
  | b :: rest =>
    if b.page = pageOf address then
      ⟨b.page, entryOf address :: b.entries⟩ :: rest
    else
      ⟨pageOf address, [entryOf address]⟩ :: b :: rest

/-- A block with an entry that does nothing added where its size is no multiple of four. -/
def padded (b : Block) : Block :=
  if b.size % 4 = 0 then b else ⟨b.page, b.entries ++ [Entry.padding]⟩

/-- The table of a set of addresses that fit 32 bits. -/
def ofSet (set : AddressSet) : Table := ⟨(set.toList.foldr addFront []).map padded⟩

/-- Whether an address fits the 32 bits that the format has for it. -/
def fits (address : UInt64) : Bool := address.toNat < UInt32.size

/-- The table of the addresses in a list; the first one that does not fit is reported. -/
def ofAddresses (addresses : List UInt64) : Except RelocationFault Table :=
  match addresses.find? (fun address => !fits address) with
  | some address => .error (.addressTooLarge address)
  | none => .ok (ofSet (AddressSet.ofList addresses))

/-! ## §2 Sizes and faults -/

/-- **The size of a table** is the number of its bytes. -/
theorem size_eq (t : Table) : t.bytes.size = t.size := by
  unfold bytes size
  rw [List.size_toByteArray]
  induction t.blocks with
  | nil => rfl
  | cons b rest ih => rw [List.flatMap_cons, List.length_append, ih, Block.length_encode,
      List.foldr_cons]

/-- Building fails exactly at a first address that does not fit. -/
theorem ofAddresses_eq_error_iff {addresses : List UInt64} {fault : RelocationFault} :
    ofAddresses addresses = .error fault ↔
      ∃ address, addresses.find? (fun a => !fits a) = some address ∧
        fault = .addressTooLarge address := by
  unfold ofAddresses
  split
  · next address h =>
    constructor
    · intro e
      cases e
      exact ⟨address, h, rfl⟩
    · rintro ⟨other, hother, rfl⟩
      rw [h] at hother
      cases hother
      rfl
  · next h => simp [h]

end Table

end Rebase.BaseRelocation
