import Rebase.AddressSet
import Rebase.Elf.SectionTable

/-!
# Recorded relocations

The sections `.rela.data` and `.rela.rodata` hold relocation records. A record starts with the
address that it concerns and a word whose low half is the relocation type; only records of the
64-bit absolute type count. The size of a record is stored with the section, and zero stands for the
usual 24.

The main statement is `mem_absoluteAddresses_iff`, which says what the addresses of a section are.
-/

namespace Rebase.Discovery

open Elf (Machine Section)

/-- The sections whose records are read. Code needs none: on the supported machines its relocations
are relative. -/
def recordSections : List String := [".rela.data", ".rela.rodata"]

/-- The section type of a table of relocation records. -/
def recordType : UInt32 := 4

/-- The usual size of a record. -/
def usualRecordSize : Nat := 24

/-- The size of the part of a record that is read. -/
def readRecordSize : Nat := 16

/-- Whether a section holds records that are read. -/
def holdsRecords (s : Section) : Bool := s.type = recordType && s.name ∈ recordSections

/-- The distance between two records of a section. -/
def recordSize (s : Section) : Nat :=
  if s.entrySize = 0 then usualRecordSize else s.entrySize.toNat

/-- The addresses of the records of the absolute type, in the order of the records, when a record
starts every `size` bytes. A rest that is shorter than a record does not count. -/
def absoluteAddresses (machine : Machine) (size : Nat) (contents : Bytes) : List UInt64 :=
  (List.range (contents.size / size)).filterMap fun index =>
    let record := index * size
    if (contents.word UInt64 (record + 8)).toUInt32 = machine.absoluteRelocation then
      some (contents.word UInt64 record)
    else
      none

/-- The addresses that the records of one section give. -/
def sectionAddresses (machine : Machine) (file : Bytes) (s : Section) :
    Except ElfSectionFault (List UInt64) :=
  if recordSize s < readRecordSize then
    .error (.recordTooSmall s.name s.entrySize)
  else
    (s.contents file).map (absoluteAddresses machine (recordSize s))

/-- The addresses that the records of an image give. -/
def recordedAddresses (machine : Machine) (file : Bytes) (sections : List Section) :
    Except ElfSectionFault AddressSet :=
  ((sections.filter holdsRecords).mapM (sectionAddresses machine file)).map
    fun lists => AddressSet.ofList lists.flatten

/-- **The addresses of a section's records** are the first words of those of the absolute type. -/
theorem mem_absoluteAddresses_iff {machine : Machine} {size : Nat} {contents : Bytes}
    (hsize : 0 < size) {address : UInt64} :
    address ∈ absoluteAddresses machine size contents ↔
      ∃ index, (index + 1) * size ≤ contents.size ∧
        (contents.word UInt64 (index * size + 8)).toUInt32 = machine.absoluteRelocation ∧
        contents.word UInt64 (index * size) = address := by
  simp only [absoluteAddresses, List.mem_filterMap, List.mem_range, Nat.lt_div_iff_mul_lt hsize,
    Option.ite_none_right_eq_some, Option.some.injEq]
  constructor
  · rintro ⟨index, hlt, htype, rfl⟩
    refine ⟨index, ?_, htype, rfl⟩
    rw [Nat.succ_mul]
    omega
  · rintro ⟨index, hle, htype, rfl⟩
    refine ⟨index, ?_, htype, rfl⟩
    rw [Nat.succ_mul] at hle
    omega

end Rebase.Discovery
