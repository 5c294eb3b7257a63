import Rebase.Proofs.Elf.Format

/-!
# What an accepted image holds

An image that was accepted has been read to its end: every section header was found and every name
behind it. So the list of sections that reading gave is the one that the file holds, index by index,
and of two sections with one name it is the later that the section table keeps.

- **Steps**: `Header.sections_eq_ok_iff_steps`, what each step of the reading gave
- **Sections**: `Header.getElem?_sections_iff_holds`
- **Tables**: `SectionTable.exists_holds_of_read`, `Header.Keeps` and
  `SectionTable.Lists.exists_get?_iff_keeps`
-/

namespace Rebase.Elf

open Bytes Fallible

/-! ## §1 Steps -/

/-- A file has at most one name at an offset. -/
theorem NameAt.unique {file : Bytes} {start : Nat} {first second : String}
    (h : NameAt file start first) (h' : NameAt file start second) : first = second := by
  obtain ⟨text, htext, hfirst⟩ := fromUTF8?_cstring?_eq_some_iff.mpr h
  obtain ⟨text', htext', hsecond⟩ := fromUTF8?_cstring?_eq_some_iff.mpr h'
  cases Option.some.inj (htext.symm.trans htext')
  exact Option.some.inj (hfirst.symm.trans hsecond)

namespace Header

variable {file : Bytes} {header : Header} {found : List Section}

/-- A section header is read where its offset is a word and it is inside the file. -/
theorem sectionHeaderAt_eq_ok_iff_lt {i : Nat} {raw : Bytes} :
    header.sectionHeaderAt file i = .ok raw ↔ header.sectionHeaderStart i < UInt64.size ∧
      file.slice? (header.sectionHeaderStart i) Section.headerByteSize = some raw := by
  unfold sectionHeaderAt sectionHeaderStart
  generalize header.sectionHeaderOffset.toNat + i * header.sectionHeaderSize.toNat = start
  by_cases hword : start < UInt64.size
  · cases hraw : file.slice? start Section.headerByteSize <;> simp [hword, hraw]
  · simp [hword]

/-- The names are found through a section header that is in the table. -/
theorem nameTable_eq_ok_iff_lt {names : Nat} :
    header.nameTable file = .ok names ↔
      Section.headerByteSize ≤ header.sectionHeaderSize.toNat ∧
      header.nameTableIndex.toNat < header.sectionCount.toNat ∧
      ∃ raw, header.sectionHeaderAt file header.nameTableIndex.toNat = .ok raw ∧
        (raw.word UInt64 24).toNat = names := by
  unfold nameTable
  simp only
  split
  · next hsmall =>
    simp only [reduceCtorEq, false_iff]
    omega
  · next hlarge =>
    split
    · next hrange =>
      simp only [reduceCtorEq, false_iff]
      omega
    · next hrange =>
      simp only [map_eq_ok_iff, Nat.not_lt.mp hlarge, Nat.not_le.mp hrange, true_and]

/-- A section is read in two steps: its section header, and its name behind it. -/
theorem sectionAt_eq_ok_iff_steps {names i : Nat} {s : Section} :
    header.sectionAt file names i = .ok s ↔
      ∃ raw name, header.sectionHeaderAt file i = .ok raw ∧
        NameAt file (names + Section.nameOffset raw) name ∧ Section.ofHeader name raw = s := by
  unfold sectionAt
  rw [bind_eq_ok_iff]
  simp only [← fromUTF8?_cstring?_eq_some_iff]
  constructor
  · rintro ⟨raw, hraw, h⟩
    split at h
    · cases h
    next text htext =>
    split at h
    · cases h
    next name hname =>
    cases h
    exact ⟨raw, name, hraw, ⟨text, htext, hname⟩, rfl⟩
  · rintro ⟨raw, name, hraw, ⟨text, htext, hname⟩, rfl⟩
    refine ⟨raw, hraw, ?_⟩
    simp only [htext, hname]

/-- **The sections of an image are read** step by step, with nothing to read where it has none. -/
theorem sections_eq_ok_iff_steps :
    header.sections file = .ok found ↔
      found.length = header.sectionCount.toNat ∧ (header.sectionCount ≠ 0 →
        ∃ names, header.nameTable file = .ok names ∧
          ∀ i s, found[i]? = some s → header.sectionAt file names i = .ok s) := by
  unfold sections
  split
  · next hnone =>
    simp only [Except.ok.injEq, hnone, ne_eq, not_true_eq_false, false_implies, and_true,
      UInt16.toNat_zero, List.length_eq_zero_iff]
    exact eq_comm
  · next hsome =>
    simp only [bind_eq_ok_iff, mapM_range_eq_ok_iff, ne_eq, hsome, not_false_eq_true, true_implies]
    constructor
    · rintro ⟨names, hnames, hlength, hall⟩
      exact ⟨hlength, names, hnames, hall⟩
    · rintro ⟨hlength, names, hnames, hall⟩
      exact ⟨names, hnames, hlength, hall⟩

/-! ## §2 Sections -/

/-- A file has at most one section at an index. -/
theorem Holds.unique {i : Nat} {s t : Section} (hs : header.Holds file i s)
    (ht : header.Holds file i t) :
    s = t := by
  obtain ⟨names, distance, hnames, hdistance, hname⟩ := hs.name
  obtain ⟨names', distance', hnames', hdistance', hname'⟩ := ht.name
  cases Option.some.inj (hnames.symm.trans hnames')
  cases Option.some.inj (hdistance.symm.trans hdistance')
  exact hs.stored.unique ht.stored (hname.unique hname')

/-- A section that was read is the one that the file has at its index. -/
private theorem holds_of_sectionAt {names i : Nat} {s : Section}
    (hnames : header.nameTable file = .ok names)
    (hi : i < header.sectionCount.toNat) (hs : header.sectionAt file names i = .ok s) :
    header.Holds file i s := by
  obtain ⟨_, _, table, htable, rfl⟩ := nameTable_eq_ok_iff_lt.mp hnames
  obtain ⟨raw, name, hraw, hname, rfl⟩ := sectionAt_eq_ok_iff_steps.mp hs
  have htable := (sectionHeaderAt_eq_ok_iff_lt.mp htable).2
  have hraw := (sectionHeaderAt_eq_ok_iff_lt.mp hraw).2
  have hdistance := word?_inside UInt32 hraw (show 0 + 4 ≤ Section.headerByteSize by decide)
  exact {
    index := hi
    stored := Section.storedAt_ofHeader name hraw
    name := ⟨_, _, word?_inside _ htable (by decide), hdistance, hname⟩ }

/-- **The sections that were read** are those that the file has, index by index. -/
theorem getElem?_sections_iff_holds (h : header.sections file = .ok found) (i : Nat) (s : Section) :
    found[i]? = some s ↔ header.Holds file i s := by
  obtain ⟨hlength, hsteps⟩ := sections_eq_ok_iff_steps.mp h
  have hholds : ∀ i s, found[i]? = some s → header.Holds file i s := by
    intro i s hs
    have hi : i < header.sectionCount.toNat := hlength ▸ (List.getElem?_eq_some_iff.mp hs).1
    have hsome : header.sectionCount ≠ 0 := by
      intro hnone
      rw [hnone] at hi
      exact Nat.not_lt_zero i hi
    obtain ⟨names, hnames, hall⟩ := hsteps hsome
    exact holds_of_sectionAt hnames hi (hall i s hs)
  refine ⟨hholds i s, fun hs => ?_⟩
  -- The index is one of the list, and what was read there is what the file has.
  have hi : i < found.length := hlength ▸ hs.index
  have hread := List.getElem?_eq_getElem hi
  rw [hread, (hholds i _ hread).unique hs]

end Header

/-! ## §3 Tables -/

/-- A file has a section at an index, and none of that name at a later one. -/
def Header.Keeps (header : Header) (file : Bytes) (i : Nat) (s : Section) : Prop :=
  header.Holds file i s ∧ ∀ j t, i < j → header.Holds file j t → t.name ≠ s.name

namespace SectionTable

variable {file : Bytes} {table : SectionTable}

/-- A table is read in two steps: the header, and the sections that it counts. -/
theorem read_eq_ok_iff_steps :
    read file = .ok table ↔ ∃ (header : Header) (found : List Section),
      Header.read file = .ok header ∧
      header.sections file = .ok found ∧ ofSections header.machine found = table := by
  unfold read
  simp only [bind_eq_ok_iff, mapError_eq_ok_iff, pure_eq_ok, Except.ok.injEq]
  constructor
  · rintro ⟨header, hheader, found, hfound, htable⟩
    exact ⟨header, found, hheader, hfound, htable⟩
  · rintro ⟨header, found, hheader, hfound, htable⟩
    exact ⟨header, hheader, found, hfound, htable⟩

/-- **An accepted image** starts with a header and has a section at every index that the header
counts. -/
theorem exists_holds_of_read (h : read file = .ok table) :
    ∃ header : Header, header.StoredIn file ∧ table.Lists header file ∧
      ∀ i < header.sectionCount.toNat, ∃ s, header.Holds file i s := by
  obtain ⟨header, found, hheader, hfound, rfl⟩ := read_eq_ok_iff_steps.mp h
  have hholds := Header.getElem?_sections_iff_holds hfound
  refine ⟨header, (Header.read_eq_ok_iff.mp hheader).2, lists_ofSections hholds, fun i hi => ?_⟩
  have hin : i < found.length := (Header.sections_eq_ok_iff_steps.mp hfound).1 ▸ hi
  exact ⟨_, (hholds i _).mp (List.getElem?_eq_getElem hin)⟩

/-- A table has exactly the sections behind which no other of the same name follows. -/
theorem Lists.exists_get?_iff_keeps {header : Header} (h : table.Lists header file) {s : Section} :
    (∃ name, table.get? name = some s) ↔ ∃ i, header.Keeps file i s := by
  constructor
  · rintro ⟨name, hfound⟩
    obtain ⟨i, hi, rfl, hlast⟩ := (h.found name s).mp hfound
    exact ⟨i, hi, hlast⟩
  · rintro ⟨i, hi, hlast⟩
    exact ⟨s.name, (h.found s.name s).mpr ⟨i, hi, rfl, hlast⟩⟩

end SectionTable

/-! ## §4 Images made of sections -/

/-- The section header of a section whose name stands at an offset among the names. -/
def Section.headerBytes (s : Section) (nameOffset : Nat) : List UInt8 :=
  [LittleEndian.encode 4 nameOffset, LittleEndian.encode 4 s.type.toNat, List.replicate 8 0,
    LittleEndian.encode 8 s.address.toNat, LittleEndian.encode 8 s.offset.toNat,
    LittleEndian.encode 8 s.size.toNat, List.replicate 16 0,
    LittleEndian.encode 8 s.entrySize.toNat].flatten

/-- A source image with the given section headers behind its header, and further bytes behind
them. -/
def imageOf (nameTableIndex : Nat) (sectionHeaders : List (List UInt8)) (rest : List UInt8) :
    Bytes :=
  ⟨⟨[[0x7F, 0x45, 0x4C, 0x46, 2, 1, 1], List.replicate 9 0, [2, 0, 243, 0, 1], List.replicate 19 0,
    LittleEndian.encode 8 64, List.replicate 4 0, [64, 0, 0, 0, 0, 0, 64, 0],
    LittleEndian.encode 2 sectionHeaders.length, LittleEndian.encode 2 nameTableIndex,
    sectionHeaders.flatten, rest].flatten⟩⟩

end Rebase.Elf
