import Rebase.Discovery.Record
import Rebase.Discovery.Scan

/-!
# Discovery of relocations

The addresses that need a base relocation come from two sources: the records of the image, and the
search for pointers without a record. An address that both give counts as recorded.

The main statement is `size_addresses`: every address of the union is counted once, either as
recorded or as found only by the search.
-/

namespace Rebase

/-- The addresses that need a base relocation, by source. -/
structure Discovery where
  /-- The addresses that records give. -/
  recorded : AddressSet
  /-- The addresses of the words that look like pointers. -/
  scanned : AddressSet

namespace Discovery

/-- All addresses that need a base relocation. -/
def addresses (d : Discovery) : AddressSet := d.recorded ∪ d.scanned

/-- How many addresses need a base relocation. -/
def total (d : Discovery) : Nat := d.addresses.size

/-- How many addresses records give. -/
def recordedCount (d : Discovery) : Nat := d.recorded.size

/-- How many addresses only the search gives. -/
def scannedCount (d : Discovery) : Nat := (d.scanned \ d.recorded).size

/-- The addresses of an image that need a base relocation, when its sections are looked at in a
given order. The search for pointers can be left out. -/
def inOrder (scan : Bool) (file : Bytes) (table : Elf.SectionTable) (order : List Elf.Section) :
    Except ElfSectionFault Discovery := do
  let recorded ← recordedAddresses table.machine file order
  let scanned ← if scan then scannedAddresses file table order else pure ∅
  pure { recorded, scanned }

/-- The addresses of an image that need a base relocation. -/
def ofImage (scan : Bool) (file : Bytes) (table : Elf.SectionTable) :
    Except ElfSectionFault Discovery :=
  inOrder scan file table table.sections

/-- **Every address is counted once.** -/
theorem size_addresses (d : Discovery) : d.total = d.recordedCount + d.scannedCount := by
  have hunion : d.recorded.size + d.scanned.size =
      (d.recorded ∪ d.scanned).size + (d.recorded ∩ d.scanned).size :=
    Std.ExtTreeSet.size_add_size_eq_size_union_add_size_inter
  have hsplit : (d.scanned \ d.recorded).size + (d.scanned ∩ d.recorded).size = d.scanned.size :=
    Std.ExtTreeSet.size_diff_add_size_inter_eq_size_left
  have hswap : d.scanned ∩ d.recorded = d.recorded ∩ d.scanned :=
    Std.ExtTreeSet.ext_mem fun a => by
      rw [Std.ExtTreeSet.mem_inter_iff, Std.ExtTreeSet.mem_inter_iff, and_comm]
  rw [hswap] at hsplit
  simp only [total, addresses, recordedCount, scannedCount]
  omega

end Discovery

end Rebase
