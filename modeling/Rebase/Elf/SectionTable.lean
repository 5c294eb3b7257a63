import Rebase.Elf.Header
import Rebase.Elf.Section
import Std.Data.ExtTreeMap

/-!
# The section table of the source image

The section headers stand at equal distances in the file; one of the sections they describe holds
the names of all. `Header.sections` reads the headers in order and stops at the first that is wrong,
and `SectionTable.ofSections` makes a map of them: of two sections with one name the later counts.

The main statements are `SectionTable.get?_ofSections`, the look-up of a name, and
`mem_sections_iff`: the sections of a table are those that a look-up can give.
-/

namespace Rebase.Elf

/-! ## §1 Section headers -/

/-- The section header of an index. Its offset has to fit 64 bits and the header has to be inside
the file. -/
def Header.sectionHeaderAt (header : Header) (file : Bytes) (index : Nat) :
    Except ElfSectionFault Bytes :=
  let offset := header.sectionHeaderOffset.toNat + index * header.sectionHeaderSize.toNat
  if offset < UInt64.size then
    match file.slice? offset Section.headerByteSize with
    | some bytes => .ok bytes
    | none => .error (.headerOutsideFile offset)
  else
    .error .headerOffsetOverflow

/-- The section of an index, when the names start at `names` in the file. -/
def Header.sectionAt (header : Header) (file : Bytes) (names index : Nat) :
    Except ElfSectionFault Section := do
  let bytes ← header.sectionHeaderAt file index
  match file.cstring? (names + Section.nameOffset bytes) with
  | none => .error (.unterminatedName index)
  | some text =>
    match String.fromUTF8? text with
    | none => .error (.malformedName index)
    | some name => .ok (Section.ofHeader name bytes)

/-- Where the names of the sections start in the file. -/
def Header.nameTable (header : Header) (file : Bytes) : Except ElfSectionFault Nat :=
  let size := header.sectionHeaderSize.toNat
  let index := header.nameTableIndex.toNat
  let count := header.sectionCount.toNat
  if size < Section.headerByteSize then .error (.headerSizeTooSmall size)
  else if count ≤ index then .error (.nameTableOutOfRange index count)
  else (header.sectionHeaderAt file index).map fun bytes => (bytes.word UInt64 24).toNat

/-- The sections of an image in the order of their headers. -/
def Header.sections (header : Header) (file : Bytes) : Except ElfSectionFault (List Section) :=
  if header.sectionCount = 0 then
    .ok []
  else do
    let names ← header.nameTable file
    (List.range header.sectionCount.toNat).mapM (header.sectionAt file names)

/-! ## §2 Sections by name -/

/-- The sections of an image by name. -/
structure SectionTable where
  /-- The machine of the image. -/
  machine : Machine
  /-- The section of each name. -/
  byName : Std.ExtTreeMap String Section

namespace SectionTable

/-- The table of a list of sections; of two sections with one name the later counts. -/
def ofSections (machine : Machine) (sections : List Section) : SectionTable where
  machine
  byName := sections.foldl (fun table s => table.insert s.name s) ∅

/-- The section of a name. -/
def get? (table : SectionTable) (name : String) : Option Section := table.byName[name]?

/-- The number of names. -/
def size (table : SectionTable) : Nat := table.byName.size

/-- The sections of a table, in the order of their names. -/
def sections (table : SectionTable) : List Section := table.byName.toList.map (·.2)

/-- The section table of an image. -/
def read (file : Bytes) : Except Error SectionTable := do
  let header ← (Header.read file).mapError Error.elfHeader
  let sections ← (header.sections file).mapError Error.elfSection
  pure (ofSections header.machine sections)

/-- **A look-up** gives the last section of that name. -/
theorem get?_ofSections (machine : Machine) (sections : List Section) (name : String) :
    (ofSections machine sections).get? name = sections.findRev? (fun s => s.name = name) := by
  have general : ∀ (rest : List Section) (table : Std.ExtTreeMap String Section),
      (rest.foldl (fun table s => table.insert s.name s) table)[name]? =
        (rest.findRev? (fun s => s.name = name)).or table[name]? := by
    intro rest
    induction rest with
    | nil => simp [List.findRev?]
    | cons s rest ih =>
      intro table
      rw [List.foldl_cons, ih, Std.ExtTreeMap.getElem?_insert]
      simp only [Std.compare_eq_iff_eq, List.findRev?]
      cases rest.findRev? (fun s => s.name = name) with
      | some found => rfl
      | none => by_cases h : s.name = name <;> simp [h]
  have h := general sections ∅
  rw [Std.ExtTreeMap.getElem?_empty, Option.or_none] at h
  exact h

/-- **The sections of a table** are those that a look-up can give. -/
theorem mem_sections_iff (table : SectionTable) (s : Section) :
    s ∈ table.sections ↔ ∃ name, table.get? name = some s := by
  simp [sections, get?, Std.ExtTreeMap.mem_toList_iff_getElem?_eq_some]

end SectionTable

end Rebase.Elf
