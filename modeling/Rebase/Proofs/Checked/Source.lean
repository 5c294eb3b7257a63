import Rebase.Elf.SectionTable
import Rebase.Proofs.Checked.Basic

/-!
# Reading the source image on a machine

The header and the section table of the source image, read with operations that can stop the
machine. Every offset that is stored in the image is added to with a test, because it can be any
64-bit number; what is cut out of the file without a test was found to be inside of it before.

- **Header**: `elfHeader_endsAs`
- **Sections**: `sectionTable_endsAs`
-/

namespace Rebase.Checked

open Bytes Elf

/-! ## §1 The header -/

/-- The header at the start of a file. -/
def elfHeader (file : Bytes) : Guarded ElfHeaderFault Header :=
  if file.size < Header.byteSize then
    throw .badMagic
  else do
    let start ← cut file 0 4
    let magic ← start.word? UInt32 0
    if magic ≠ Header.magic then
      throw .badMagic
    else do
      let kind ← byteAt file 4
      if kind ≠ 2 then
        throw .not64Bit
      else do
        let order ← byteAt file 5
        if order ≠ 1 then
          throw .notLittleEndian
        else do
          let ident ← cut file 0 16
          let fileType ← file.word? UInt16 16
          let code ← file.word? UInt16 18
          let version ← file.word? UInt32 20
          let entry ← file.word? UInt64 24
          let programHeaderOffset ← file.word? UInt64 32
          let sectionHeaderOffset ← file.word? UInt64 40
          let flags ← file.word? UInt32 48
          let headerSize ← file.word? UInt16 52
          let programHeaderSize ← file.word? UInt16 54
          let programHeaderCount ← file.word? UInt16 56
          let sectionHeaderSize ← file.word? UInt16 58
          let sectionCount ← file.word? UInt16 60
          let nameTableIndex ← file.word? UInt16 62
          match Machine.ofCode? code with
          | none => throw (.unsupportedMachine code)
          | some machine => pure {
              machine
              ident
              fileType
              version
              entry
              programHeaderOffset
              sectionHeaderOffset
              flags
              headerSize
              programHeaderSize
              programHeaderCount
              sectionHeaderSize
              sectionCount
              nameTableIndex }

/-- Reading the header does not stop the machine: once the file is long enough, all fields are
there. -/
theorem elfHeader_endsAs (file : Bytes) : EndsAs (elfHeader file) (Header.read file) := by
  unfold elfHeader Header.read
  by_cases hsize : file.size < Header.byteSize
  · have hnone : file.slice? 0 Header.byteSize = none := slice?_eq_none_iff.mpr (by omega)
    rw [if_pos hsize, hnone]
    exact EndsAs.throw _
  obtain ⟨raw, hraw⟩ : ∃ raw, file.slice? 0 Header.byteSize = some raw :=
    ⟨_, slice?_eq_some_iff.mpr ⟨by omega, rfl⟩⟩
  -- The first four bytes are compared as a slice of their own.
  have hstart : file.slice? 0 4 = some (file.extract 0 4) :=
    slice?_eq_some_iff.mpr ⟨by simp only [Header.byteSize] at hsize; omega, rfl⟩
  have hmagic : Bytes.word? UInt32 (file.extract 0 4) 0 = some (raw.word UInt32 0) := by
    rw [← word?_congr (slice?_of_slice? hstart (show 0 + 4 ≤ 4 by decide))]
    exact word?_front hraw 0 (by decide)
  have hlarge : 64 ≤ file.size := by
    simp only [Header.byteSize] at hsize
    omega
  rw [if_neg hsize, hraw]
  refine .guard (cut_eq_some (by decide) (by omega)) ?_
  refine .guard hmagic ?_
  refine .ite (fun _ => .throw _) fun _ => ?_
  refine .guard (byte_front hraw 4 (by decide)) ?_
  refine .ite (fun _ => .throw _) fun _ => ?_
  refine .guard (byte_front hraw 5 (by decide)) ?_
  refine .ite (fun _ => .throw _) fun _ => ?_
  -- From here on nothing is left but to fetch the fields, each of which is there.
  refine .guard (cut_eq_some (by decide) (by omega)) ?_
  refine .guard (word?_front hraw 16 (by decide)) ?_
  refine .guard (word?_front hraw 18 (by decide)) ?_
  refine .guard (word?_front hraw 20 (by decide)) ?_
  refine .guard (word?_front hraw 24 (by decide)) ?_
  refine .guard (word?_front hraw 32 (by decide)) ?_
  refine .guard (word?_front hraw 40 (by decide)) ?_
  refine .guard (word?_front hraw 48 (by decide)) ?_
  refine .guard (word?_front hraw 52 (by decide)) ?_
  refine .guard (word?_front hraw 54 (by decide)) ?_
  refine .guard (word?_front hraw 56 (by decide)) ?_
  refine .guard (word?_front hraw 58 (by decide)) ?_
  refine .guard (word?_front hraw 60 (by decide)) ?_
  refine .guard (word?_front hraw 62 (by decide)) ?_
  cases Machine.ofCode? (raw.word UInt16 18) with
  | none => exact .throw _
  | some machine =>
    have hident : raw.extract 0 16 = file.extract 0 16 := by
      rw [(slice?_eq_some_iff.mp hraw).2, ByteArray.extract_extract]
      rfl
    rw [hident]
    exact .pure _

/-! ## §2 Section headers -/

/-- The fields of a section header that are read. -/
structure SectionFields where
  name : UInt32
  type : UInt32
  address : UInt64
  offset : UInt64
  size : UInt64
  entrySize : UInt64

namespace SectionFields

/-- The fields of a section header that was cut out whole. -/
def ofBytes (header : Bytes) : SectionFields where
  name := header.word UInt32 0
  type := header.word UInt32 4
  address := header.word UInt64 16
  offset := header.word UInt64 24
  size := header.word UInt64 32
  entrySize := header.word UInt64 56

/-- The section of a name, from the fields of its header. -/
def toSection (fields : SectionFields) (name : String) : Elf.Section where
  name
  address := fields.address
  offset := fields.offset
  size := fields.size
  type := fields.type
  entrySize := fields.entrySize

end SectionFields

/-- The field at a distance from the start of a header. -/
def field (α : Type) {width : Nat} [Word α width] (file : Bytes) (base distance : Nat) :
    Option α := do
  let offset ← word (base + distance)
  file.word? α offset

/-- The fields of the section header of an index. -/
def sectionFieldsAt (header : Header) (file : Bytes) (index : Nat) :
    Guarded ElfSectionFault SectionFields := do
  let distance ← orError (word (index * header.sectionHeaderSize.toNat)) .headerOffsetOverflow
  let base ← orError (word (header.sectionHeaderOffset.toNat + distance)) .headerOffsetOverflow
  let _ ← orError (file.slice? base Section.headerByteSize) (.headerOutsideFile base)
  let name ← field UInt32 file base 0
  let type ← field UInt32 file base 4
  let address ← field UInt64 file base 16
  let offset ← field UInt64 file base 24
  let size ← field UInt64 file base 32
  let entrySize ← field UInt64 file base 56
  pure { name, type, address, offset, size, entrySize }

private theorem field_eq_some {α : Type} {width : Nat} [Word α width] {file raw : Bytes}
    {base length distance : Nat} (hsize : file.size ≤ maxBufferSize)
    (hraw : file.slice? base length = some raw) (hin : distance + width ≤ length) :
    field α file base distance = some (raw.word α distance) := by
  have hinside := (slice?_eq_some_iff.mp hraw).1
  exact bind_eq_of_eq_some (word_eq_some_of_le hsize (by omega)) (word?_inside _ hraw hin)

/-- The section of an index, when the names start at `names` in the file. -/
def sectionAt (header : Header) (file : Bytes) (names index : Nat) :
    Guarded ElfSectionFault Elf.Section := do
  let fields ← sectionFieldsAt header file index
  let start ← orError (word (names + fields.name.toNat)) (.unterminatedName index)
  let stop ← orError (file.findZero? start) (.unterminatedName index)
  let text ← cut file start stop
  match String.fromUTF8? text with
  | none => throw (.malformedName index)
  | some name => pure (fields.toSection name)

/-- The sections of an image in the order of their headers. -/
def sections (header : Header) (file : Bytes) : Guarded ElfSectionFault (List Elf.Section) :=
  let size := header.sectionHeaderSize.toNat
  let index := header.nameTableIndex.toNat
  let count := header.sectionCount.toNat
  if header.sectionCount = 0 then
    pure []
  else if size < Section.headerByteSize then
    throw (.headerSizeTooSmall size)
  else if count ≤ index then
    throw (.nameTableOutOfRange index count)
  else do
    let names ← sectionFieldsAt header file index
    (List.range count).mapM (sectionAt header file names.offset.toNat)

/-- The section table of an image. -/
def sectionTable (file : Bytes) : Guarded Error SectionTable := do
  let header ← ExceptT.adapt Error.elfHeader (elfHeader file)
  let found ← ExceptT.adapt Error.elfSection (sections header file)
  pure (SectionTable.ofSections header.machine found)

section Sections

variable {header : Header} {file : Bytes} (hsize : file.size ≤ maxBufferSize)

include hsize

/-- Reading a section header does not stop the machine: the sums that are made without a test start
at a header that is inside the file. -/
private theorem sectionFieldsAt_endsAs (index : Nat) :
    EndsAs (sectionFieldsAt header file index)
      ((header.sectionHeaderAt file index).map SectionFields.ofBytes) := by
  unfold sectionFieldsAt Header.sectionHeaderAt
  by_cases hoffset : header.sectionHeaderOffset.toNat + index * header.sectionHeaderSize.toNat <
      UInt64.size
  · simp only [hoffset, if_true]
    refine .present (word_eq_some (by omega)) ?_
    refine .present (word_eq_some hoffset) ?_
    cases hraw : file.slice? (header.sectionHeaderOffset.toNat +
        index * header.sectionHeaderSize.toNat) Section.headerByteSize with
    | none => exact .missing rfl
    | some raw =>
      refine .present rfl ?_
      refine .guard (field_eq_some hsize hraw (by decide)) ?_
      refine .guard (field_eq_some hsize hraw (by decide)) ?_
      refine .guard (field_eq_some hsize hraw (by decide)) ?_
      refine .guard (field_eq_some hsize hraw (by decide)) ?_
      refine .guard (field_eq_some hsize hraw (by decide)) ?_
      refine .guard (field_eq_some hsize hraw (by decide)) ?_
      exact .pure _
  · simp only [hoffset, if_false]
    by_cases hdistance : index * header.sectionHeaderSize.toNat < UInt64.size
    · refine .present (word_eq_some hdistance) ?_
      exact .missing (word_eq_none (by omega))
    · exact .missing (word_eq_none (by omega))

/-- A name that is found ends inside the file, so it can be cut out. -/
private theorem sectionAt_endsAs (names index : Nat) :
    EndsAs (sectionAt header file names index) (header.sectionAt file names index) := by
  unfold sectionAt Header.sectionAt
  refine (sectionFieldsAt_endsAs hsize index).bindMap fun raw _ => ?_
  have hstart : names + (SectionFields.ofBytes raw).name.toNat = names + Section.nameOffset raw :=
    rfl
  by_cases hword : names + Section.nameOffset raw < UInt64.size
  · refine .present (word_eq_some hword) ?_
    cases hstop : file.findZero? (names + (SectionFields.ofBytes raw).name.toNat) with
    | none =>
      rw [cstring?, ← hstart, hstop]
      exact .missing rfl
    | some stop =>
      -- The zero byte that ends the name is inside the file, so the name is.
      obtain ⟨hle, hzero, _⟩ := findZero?_eq_some_iff.mp hstop
      obtain ⟨hlt, _⟩ := Array.getElem?_eq_some_iff.mp hzero
      rw [cstring?, ← hstart, hstop]
      refine .present rfl ?_
      refine .guard (cut_eq_some hle (Nat.le_of_lt hlt)) ?_
      simp only [Option.map_some]
      cases String.fromUTF8?
        (file.extract (names + (SectionFields.ofBytes raw).name.toNat) stop) with
      | none => exact .throw _
      | some name => exact .pure _
  · -- An offset that is no word is behind every file.
    have hnone : file.findZero? (names + Section.nameOffset raw) = none := by
      cases hstop : file.findZero? (names + Section.nameOffset raw) with
      | none => rfl
      | some stop =>
        obtain ⟨hle, hzero, _⟩ := findZero?_eq_some_iff.mp hstop
        obtain ⟨hlt, _⟩ := Array.getElem?_eq_some_iff.mp hzero
        simp only [maxBufferSize, size_data] at hsize hlt
        simp only [UInt64.size] at hword
        omega
    rw [cstring?, hnone]
    exact .missing (word_eq_none (by omega))

private theorem sections_endsAs (header : Header) :
    EndsAs (sections header file) (header.sections file) := by
  unfold sections Header.sections
  refine .ite (fun _ => .pure _) fun _ => ?_
  unfold Header.nameTable
  by_cases hsmall : header.sectionHeaderSize.toNat < Section.headerByteSize
  · simp only [hsmall, if_true]
    exact .throw _
  by_cases hrange : header.sectionCount.toNat ≤ header.nameTableIndex.toNat
  · simp only [hsmall, hrange, if_true, if_false]
    exact .throw _
  · simp only [hsmall, hrange, if_false, Fallible.map_bind]
    refine (sectionFieldsAt_endsAs hsize _).bindMap fun raw _ => ?_
    exact .mapM fun index _ => sectionAt_endsAs hsize _ index

/-- **Reading the section table does not stop the machine.** -/
theorem sectionTable_endsAs : EndsAs (sectionTable file) (SectionTable.read file) := by
  unfold sectionTable SectionTable.read
  refine ((elfHeader_endsAs file).adapt Error.elfHeader).bind fun header _ => ?_
  refine ((sections_endsAs hsize header).adapt Error.elfSection).bind fun found _ => ?_
  exact .pure _

end Sections

end Rebase.Checked
