import Rebase.Discovery.Record
import Rebase.Proofs.Elf.Accepted

/-!
# What the records give

The records of two sections are read, and there is much that can be different about them: how far
apart they are, where they end, whether their contents are in the file, and what else the image has
under a name of these sections. Here this is said by the fields of the file itself. `RecordSection`
says which sections have records, `RecordsRefused` what can be wrong with one of them, and
`HasRecord` for which addresses it has a record of the absolute type.

- **One section**: `sectionAddresses_eq_error_iff` and `mem_sectionAddresses_iff`
- **An image**: `recordedAddresses_exact`, in whatever order its sections are looked at
-/

namespace Rebase.Discovery

open Bytes Fallible
open Elf (Machine Section SectionTable)

/-! ## §1 Records -/

/-- A section of an image has records that are read: it has one of the two names and is a table of
records. -/
def RecordSection (table : SectionTable) (s : Section) : Prop :=
  (table.get? ".rela.data" = some s ∨ table.get? ".rela.rodata" = some s) ∧ s.type = 4

/-- The stored size of a record is too small for the part that is read. Zero is not, as it stands
for the usual size. -/
def RecordsTooSmall (s : Section) : Prop := 1 ≤ s.entrySize.toNat ∧ s.entrySize.toNat ≤ 15

/-- What is reported of a section with records. -/
inductive RecordsRefused (file : Bytes) (s : Section) : ElfSectionFault → Prop
  | tooSmall (hsmall : RecordsTooSmall s) :
      RecordsRefused file s (.recordTooSmall s.name s.entrySize)
  | outsideFile (hlarge : ¬ RecordsTooSmall s) (hsize : file.size < s.offset.toNat + s.size.toNat) :
      RecordsRefused file s (.contentsOutsideFile s.name s.offset s.size)

/-- How far apart the records of a section are: as far as is stored, where zero stands for 24
bytes. -/
def RecordsApart (s : Section) (distance : Nat) : Prop :=
  s.entrySize.toNat = 0 ∧ distance = 24 ∨ 0 < s.entrySize.toNat ∧ distance = s.entrySize.toNat

/-- A section has a record of the absolute type for an address. The record is inside the section
with all of its size. -/
def HasRecord (file : Bytes) (s : Section) (address : UInt64) : Prop :=
  ∃ distance index, RecordsApart s distance ∧ (index + 1) * distance ≤ s.size.toNat ∧
    file.word? UInt64 (s.offset.toNat + index * distance) = some address ∧
    ∃ info, file.word? UInt64 (s.offset.toNat + index * distance + 8) = some info ∧
      info.toNat % 2 ^ 32 = 2

/-! ## §2 One section -/

variable {machine : Machine} {file : Bytes} {s : Section}

private theorem recordSize_lt_iff : recordSize s < readRecordSize ↔ RecordsTooSmall s := by
  simp only [recordSize, usualRecordSize, readRecordSize, RecordsTooSmall, ← UInt64.toNat_inj,
    UInt64.toNat_zero]
  split <;> omega

private theorem recordsApart_iff {distance : Nat} :
    RecordsApart s distance ↔ recordSize s = distance := by
  simp only [RecordsApart, recordSize, usualRecordSize, ← UInt64.toNat_inj, UInt64.toNat_zero]
  split <;> omega

/-- Something is reported of a section when its records are too small or not inside the file. -/
theorem exists_recordsRefused_iff :
    (∃ fault, RecordsRefused file s fault) ↔
      RecordsTooSmall s ∨ file.size < s.offset.toNat + s.size.toNat := by
  constructor
  · rintro ⟨_, hsmall | ⟨_, hsize⟩⟩
    · exact .inl hsmall
    · exact .inr hsize
  · intro h
    by_cases hsmall : RecordsTooSmall s
    · exact ⟨_, .tooSmall hsmall⟩
    · exact ⟨_, .outsideFile hsmall (h.resolve_left hsmall)⟩

/-- **The records of a section are refused** for their size first, and then for their place. -/
theorem sectionAddresses_eq_error_iff {fault : ElfSectionFault} :
    sectionAddresses machine file s = .error fault ↔ RecordsRefused file s fault := by
  unfold sectionAddresses
  by_cases hsmall : RecordsTooSmall s
  · rw [if_pos (recordSize_lt_iff.mpr hsmall)]
    constructor
    · rintro ⟨⟩
      exact .tooSmall hsmall
    · rintro (_ | ⟨hlarge, _⟩)
      · rfl
      · exact absurd hsmall hlarge
  · rw [if_neg (mt recordSize_lt_iff.mp hsmall), map_eq_error_iff, Section.contents_eq_error_iff]
    constructor
    · rintro ⟨hsize, rfl⟩
      exact .outsideFile hsmall hsize
    · rintro (hsmall' | ⟨_, hsize⟩)
      · exact absurd hsmall' hsmall
      · exact ⟨hsize, rfl⟩

/-- On every machine the absolute type is 2, and the type is the low half of its word. -/
theorem toUInt32_eq_absoluteRelocation_iff {info : UInt64} :
    info.toUInt32 = machine.absoluteRelocation ↔ info.toNat % 2 ^ 32 = 2 := by
  have htype : machine.absoluteRelocation = 2 := by cases machine <;> rfl
  rw [htype, ← UInt32.toNat_inj, UInt64.toNat_toUInt32]
  rfl

/-- **The records of a section** give the addresses that it has records for. -/
theorem mem_sectionAddresses_iff {found : List UInt64} {address : UInt64}
    (h : sectionAddresses machine file s = .ok found) :
    address ∈ found ↔ HasRecord file s address := by
  unfold sectionAddresses at h
  split at h
  · cases h
  next hlarge =>
  obtain ⟨contents, hcontents, rfl⟩ := map_eq_ok_iff.mp h
  have hslice := Section.slice?_of_contents hcontents
  have hsize : contents.size = s.size.toNat := size_of_slice? hslice
  simp only [readRecordSize] at hlarge
  rw [mem_absoluteAddresses_iff (by omega), hsize, HasRecord, exists_comm]
  simp only [recordsApart_iff, exists_eq_left']
  refine exists_congr fun index => and_congr_right fun hin => ?_
  -- The two words of a record are inside it, and the record is inside the contents.
  rw [Nat.succ_mul] at hin
  rw [Nat.add_assoc, word?_inside _ hslice (by omega), word?_inside _ hslice (by omega)]
  simp only [Option.some.injEq, exists_eq_left', toUInt32_eq_absoluteRelocation_iff]
  exact and_comm

/-! ## §3 An image -/

variable {table : SectionTable} {order : List Section}

/-- In whatever order the sections of an image are looked at, those with records are picked out. -/
theorem mem_filter_holdsRecords_iff (hread : SectionTable.read file = .ok table)
    (horder : order.Perm table.sections) :
    s ∈ order.filter holdsRecords ↔ RecordSection table s := by
  have hnames : (∃ name, table.get? name = some s) ∧
      (s.name = ".rela.data" ∨ s.name = ".rela.rodata") ↔
      table.get? ".rela.data" = some s ∨ table.get? ".rela.rodata" = some s := by
    constructor
    · rintro ⟨⟨name, hfound⟩, hname⟩
      -- The section has the name that it stands under.
      rw [← SectionTable.name_of_read hread hfound] at hfound
      rcases hname with hname | hname <;> rw [hname] at hfound
      · exact .inl hfound
      · exact .inr hfound
    · rintro (hfound | hfound)
      · exact ⟨⟨_, hfound⟩, .inl (SectionTable.name_of_read hread hfound)⟩
      · exact ⟨⟨_, hfound⟩, .inr (SectionTable.name_of_read hread hfound)⟩
  rw [List.mem_filter, horder.mem_iff, SectionTable.mem_sections_iff, RecordSection, ← hnames,
    and_assoc]
  refine and_congr_right fun _ => ?_
  simp only [holdsRecords, Bool.and_eq_true, decide_eq_true_eq]
  simp only [recordSections, recordType, List.mem_cons, List.not_mem_nil, or_false]
  exact and_comm

/-- **The records of an image.** They are refused exactly when those of some section are too small
or not inside the file, and then this is what is reported of it. Otherwise they give the addresses
for which a section with records has one of the absolute type, and nothing else. -/
theorem recordedAddresses_exact (hread : SectionTable.read file = .ok table)
    (horder : order.Perm table.sections) :
    ((∃ fault, recordedAddresses table.machine file order = .error fault) ↔
      ∃ s, RecordSection table s ∧
      (RecordsTooSmall s ∨ file.size < s.offset.toNat + s.size.toNat)) ∧
    (∀ fault, recordedAddresses table.machine file order = .error fault →
      ∃ s, RecordSection table s ∧ RecordsRefused file s fault) ∧
    ∀ found, recordedAddresses table.machine file order = .ok found →
      ∀ address, address ∈ found ↔ ∃ s, RecordSection table s ∧ HasRecord file s address := by
  have hmem : ∀ s, s ∈ order.filter holdsRecords ↔ RecordSection table s :=
    fun s => mem_filter_holdsRecords_iff hread horder
  have hfault : ∀ fault, recordedAddresses table.machine file order = .error fault →
      ∃ s, RecordSection table s ∧ RecordsRefused file s fault := by
    intro fault h
    obtain ⟨s, hs, hrefused⟩ := exists_mem_of_mapM_eq_error (map_eq_error_iff.mp h)
    exact ⟨s, (hmem s).mp hs, sectionAddresses_eq_error_iff.mp hrefused⟩
  refine ⟨⟨?_, ?_⟩, hfault, ?_⟩
  · rintro ⟨fault, h⟩
    obtain ⟨s, hs, hrefused⟩ := hfault fault h
    exact ⟨s, hs, exists_recordsRefused_iff.mp ⟨fault, hrefused⟩⟩
  · rintro ⟨s, hs, hwrong⟩
    cases h : recordedAddresses table.machine file order with
    | error fault => exact ⟨fault, rfl⟩
    | ok found =>
      -- What was found includes the addresses of this section, but they are refused.
      obtain ⟨lists, hlists, _⟩ := map_eq_ok_iff.mp h
      obtain ⟨fault, hrefused⟩ := exists_recordsRefused_iff.mpr hwrong
      obtain ⟨list, hlist⟩ := exists_mapM_iff.mp ⟨lists, hlists⟩ s ((hmem s).mpr hs)
      cases hlist.symm.trans (sectionAddresses_eq_error_iff.mpr hrefused)
  · intro found h address
    obtain ⟨lists, hlists, rfl⟩ := map_eq_ok_iff.mp h
    rw [AddressSet.mem_ofList, mem_flatten_of_mapM hlists]
    simp only [hmem]
    refine exists_congr fun s => and_congr_right fun hs => ?_
    constructor
    · rintro ⟨list, hlist, haddress⟩
      exact (mem_sectionAddresses_iff hlist).mp haddress
    · intro hrecord
      obtain ⟨list, hlist⟩ := exists_mapM_iff.mp ⟨lists, hlists⟩ s ((hmem s).mpr hs)
      exact ⟨list, hlist, (mem_sectionAddresses_iff hlist).mpr hrecord⟩

/-- The sections of an image with records of two sizes: `.rela.data`, which is also the section that
holds the names, has room for two records of 16 bytes, and `.rela.rodata` for two of the usual size,
for which zero is stored. Both have a rest that is shorter than a record. -/
def mixedSections : List Section :=
  [⟨".rela.data", 0, 192, 40, 4, 16⟩, ⟨".rela.rodata", 0, 232, 50, 4, 0⟩]

/-- The image. Of its four records that for the address 0x2000 is of another type. -/
def mixedRecords : Bytes :=
  Elf.imageOf 0 (List.zipWith Section.headerBytes mixedSections [90, 101])
    ([LittleEndian.encode 8 0x1000, LittleEndian.encode 8 2, LittleEndian.encode 8 0x2000,
      LittleEndian.encode 8 3, List.replicate 8 0,
      LittleEndian.encode 8 0x3000, LittleEndian.encode 8 2, List.replicate 8 0,
      LittleEndian.encode 8 0x4000, LittleEndian.encode 8 2, List.replicate 8 0, [0, 0],
      ".rela.data".toUTF8.data.toList, [0], ".rela.rodata".toUTF8.data.toList, [0]].flatten)

theorem recordedAddresses_exact_mixedRecords :
    ∃ table found, SectionTable.read mixedRecords = .ok table ∧
      table.sections.reverse.Perm table.sections ∧ table.sections = mixedSections ∧
      recordedAddresses table.machine mixedRecords table.sections.reverse = .ok found ∧
      found.toList = [0x1000, 0x3000, 0x4000] ∧
      (∀ s, RecordSection table s → ¬ RecordsTooSmall s ∧ s.offset.toNat + s.size.toNat ≤ 306) ∧
      ∀ address, address ∈ found ↔
        ∃ s, RecordSection table s ∧ HasRecord mixedRecords s address := by
  have hsize : mixedRecords.size = 306 := by decide +kernel
  have hrecords : (SectionTable.read mixedRecords).map (fun table => (table.sections,
      (recordedAddresses table.machine mixedRecords table.sections.reverse).map fun found =>
        found.toList)) = .ok (mixedSections, .ok [0x1000, 0x3000, 0x4000]) := by
    decide +kernel
  obtain ⟨table, hread, hfound⟩ := map_eq_ok_iff.mp hrecords
  obtain ⟨hsections, hfound⟩ := Prod.mk.inj hfound
  obtain ⟨found, hok, hlist⟩ := map_eq_ok_iff.mp hfound
  have horder : table.sections.reverse.Perm table.sections := List.reverse_perm table.sections
  obtain ⟨hrefused, _, hexact⟩ := recordedAddresses_exact hread horder
  refine ⟨table, found, hread, horder, hsections, hok, hlist, fun s hs => ?_, hexact found hok⟩
  -- Nothing is reported, so nothing is wrong with any section.
  have hnothing : ¬ (RecordsTooSmall s ∨ mixedRecords.size < s.offset.toNat + s.size.toNat) := by
    intro hwrong
    obtain ⟨fault, hfault⟩ := hrefused.mpr ⟨s, hs, hwrong⟩
    cases hok.symm.trans hfault
  rw [hsize] at hnothing
  exact ⟨fun hsmall => hnothing (.inl hsmall), Nat.not_lt.mp fun hout => hnothing (.inr hout)⟩

end Rebase.Discovery
