import Mathlib.Data.Set.Card
import Rebase.Elf.SectionTable
import Rebase.Proofs.Bytes.Slice
import Rebase.Proofs.Fallible

/-!
# What a source image is

A source image is read by following offsets that it stores itself, and reading stops at the first
that is wrong. Here the format is said without the order of reading: `HasHeader` is what a file has
to start with, `Header.Readable` what has to be in it for its sections to be found, and
`Header.Holds` which section it has at an index. `SectionTable.read_format` says that reading
accepts exactly this, and what it gives.

- **The header**: `Header.read_eq_ok_iff`
- **Names**: `fromUTF8?_cstring?_eq_some_iff`
- **Sections**: `Header.sections_eq_ok_iff`
- **Sections by name**: `SectionTable.lists_ofSections`
-/

namespace Rebase.Elf

open Bytes Fallible

/-! ## §1 The header -/

/-- A file starts with the header of a 64-bit image, stored with the least significant byte first
and made for a supported machine. -/
structure HasHeader (file : Bytes) : Prop where
  size : 64 ≤ file.size
  magic : file.slice? 0 4 = some ⟨#[0x7F, 0x45, 0x4C, 0x46]⟩
  wide : file.data[4]? = some 2
  littleEndian : file.data[5]? = some 1
  machine : file.word? UInt16 18 = some 0xF3 ∨ file.word? UInt16 18 = some 0x102

namespace Header

/-- A file stores the fields of a header, each at its place. -/
structure StoredIn (header : Header) (file : Bytes) : Prop where
  machine : file.word? UInt16 18 = some header.machine.code
  ident : file.slice? 0 16 = some header.ident
  fileType : file.word? UInt16 16 = some header.fileType
  version : file.word? UInt32 20 = some header.version
  entry : file.word? UInt64 24 = some header.entry
  programHeaderOffset : file.word? UInt64 32 = some header.programHeaderOffset
  sectionHeaderOffset : file.word? UInt64 40 = some header.sectionHeaderOffset
  flags : file.word? UInt32 48 = some header.flags
  headerSize : file.word? UInt16 52 = some header.headerSize
  programHeaderSize : file.word? UInt16 54 = some header.programHeaderSize
  programHeaderCount : file.word? UInt16 56 = some header.programHeaderCount
  sectionHeaderSize : file.word? UInt16 58 = some header.sectionHeaderSize
  sectionCount : file.word? UInt16 60 = some header.sectionCount
  nameTableIndex : file.word? UInt16 62 = some header.nameTableIndex

variable {file : Bytes} {header : Header}

/-- The magic number is spelled by the first four bytes. -/
theorem word32?_eq_magic_iff :
    file.word? UInt32 0 = some magic ↔ file.slice? 0 4 = some ⟨#[0x7F, 0x45, 0x4C, 0x46]⟩ := by
  have hbytes : ofWord magic = ⟨#[0x7F, 0x45, 0x4C, 0x46]⟩ := by rfl
  rw [← hbytes]
  exact ⟨slice?_of_word?, word?_of_slice?⟩

/-- A machine is supported if it has one of the two codes. -/
theorem exists_ofCode?_iff {code : UInt16} :
    (∃ machine, Machine.ofCode? code = some machine) ↔ code = 0xF3 ∨ code = 0x102 := by
  simp only [Machine.ofCode?_eq_some_iff]
  constructor
  · rintro ⟨machine, rfl⟩
    cases machine
    · exact .inl rfl
    · exact .inr rfl
  · rintro (rfl | rfl)
    · exact ⟨.riscv64, rfl⟩
    · exact ⟨.loongarch64, rfl⟩

/-- The header of a machine, from the bytes at the start of a file. -/
def ofBytes (machine : Machine) (raw : Bytes) : Header where
  machine
  ident := raw.extract 0 16
  fileType := raw.word UInt16 16
  version := raw.word UInt32 20
  entry := raw.word UInt64 24
  programHeaderOffset := raw.word UInt64 32
  sectionHeaderOffset := raw.word UInt64 40
  flags := raw.word UInt32 48
  headerSize := raw.word UInt16 52
  programHeaderSize := raw.word UInt16 54
  programHeaderCount := raw.word UInt16 56
  sectionHeaderSize := raw.word UInt16 58
  sectionCount := raw.word UInt16 60
  nameTableIndex := raw.word UInt16 62

/-- A file stores the header that is made of its first bytes. -/
private theorem storedIn_ofBytes {raw : Bytes} {machine : Machine}
    (hraw : file.slice? 0 byteSize = some raw)
    (hmachine : Machine.ofCode? (raw.word UInt16 18) = some machine) :
    (ofBytes machine raw).StoredIn file where
  machine := by
    rw [ofBytes, Machine.ofCode?_eq_some_iff.mp hmachine]
    exact word?_front hraw 18 (by decide)
  ident := slice?_extract_zero hraw (by decide)
  fileType := word?_front hraw 16 (by decide)
  version := word?_front hraw 20 (by decide)
  entry := word?_front hraw 24 (by decide)
  programHeaderOffset := word?_front hraw 32 (by decide)
  sectionHeaderOffset := word?_front hraw 40 (by decide)
  flags := word?_front hraw 48 (by decide)
  headerSize := word?_front hraw 52 (by decide)
  programHeaderSize := word?_front hraw 54 (by decide)
  programHeaderCount := word?_front hraw 56 (by decide)
  sectionHeaderSize := word?_front hraw 58 (by decide)
  sectionCount := word?_front hraw 60 (by decide)
  nameTableIndex := word?_front hraw 62 (by decide)

/-- A file stores at most one header. -/
theorem StoredIn.unique {other : Header} (h : header.StoredIn file) (ho : other.StoredIn file) :
    header = other := by
  have hmachine : header.machine = other.machine := by
    have hcode := Machine.ofCode?_code header.machine
    rw [Option.some.inj (h.machine.symm.trans ho.machine), Machine.ofCode?_code] at hcode
    exact (Option.some.inj hcode).symm
  have hident := Option.some.inj (h.ident.symm.trans ho.ident)
  have hfileType := Option.some.inj (h.fileType.symm.trans ho.fileType)
  have hversion := Option.some.inj (h.version.symm.trans ho.version)
  have hentry := Option.some.inj (h.entry.symm.trans ho.entry)
  have hprogramHeaderOffset :=
    Option.some.inj (h.programHeaderOffset.symm.trans ho.programHeaderOffset)
  have hsectionHeaderOffset :=
    Option.some.inj (h.sectionHeaderOffset.symm.trans ho.sectionHeaderOffset)
  have hflags := Option.some.inj (h.flags.symm.trans ho.flags)
  have hheaderSize := Option.some.inj (h.headerSize.symm.trans ho.headerSize)
  have hprogramHeaderSize := Option.some.inj (h.programHeaderSize.symm.trans ho.programHeaderSize)
  have hprogramHeaderCount :=
    Option.some.inj (h.programHeaderCount.symm.trans ho.programHeaderCount)
  have hsectionHeaderSize := Option.some.inj (h.sectionHeaderSize.symm.trans ho.sectionHeaderSize)
  have hsectionCount := Option.some.inj (h.sectionCount.symm.trans ho.sectionCount)
  have hnameTableIndex := Option.some.inj (h.nameTableIndex.symm.trans ho.nameTableIndex)
  cases header
  cases other
  simp_all only

/-- What a file starts with is a header, if the fields that are checked have the right values. -/
theorem hasHeader_iff {raw : Bytes} (hraw : file.slice? 0 byteSize = some raw) :
    HasHeader file ↔ raw.word UInt32 0 = magic ∧ raw.byte 4 = 2 ∧ raw.byte 5 = 1 ∧
      ∃ machine, Machine.ofCode? (raw.word UInt16 18) = some machine := by
  have hsize : 64 ≤ file.size := (slice?_eq_some_iff.mp hraw).1
  have hmagic : file.word? UInt32 0 = some (raw.word UInt32 0) := word?_front hraw 0 (by decide)
  have hwide : file.data[4]? = some (raw.byte 4) := byte_front hraw 4 (by decide)
  have horder : file.data[5]? = some (raw.byte 5) := byte_front hraw 5 (by decide)
  have hcode : file.word? UInt16 18 = some (raw.word UInt16 18) := word?_front hraw 18 (by decide)
  rw [exists_ofCode?_iff]
  constructor
  · intro h
    have hspelled := word32?_eq_magic_iff.mpr h.magic
    have hmachine := h.machine
    rw [hcode, Option.some.injEq, Option.some.injEq] at hmachine
    exact ⟨Option.some.inj (hmagic.symm.trans hspelled), Option.some.inj (hwide.symm.trans h.wide),
      Option.some.inj (horder.symm.trans h.littleEndian), hmachine⟩
  · rintro ⟨hspelled, hclass, hencoding, hmachine⟩
    rw [hspelled] at hmagic
    rw [hclass] at hwide
    rw [hencoding] at horder
    rw [← Option.some.injEq, ← hcode, ← Option.some.injEq (raw.word UInt16 18), ← hcode] at hmachine
    exact ⟨hsize, word32?_eq_magic_iff.mp hmagic, hwide, horder, hmachine⟩

/-- A file that starts with a header has one that can be read. -/
theorem exists_read_of_hasHeader (h : HasHeader file) :
    ∃ header, read file = .ok header ∧ header.StoredIn file := by
  have hraw : file.slice? 0 byteSize = some (file.extract 0 byteSize) :=
    slice?_eq_some_iff.mpr ⟨h.size, rfl⟩
  obtain ⟨hmagic, hwide, horder, machine, hmachine⟩ := (hasHeader_iff hraw).mp h
  refine ⟨_, ?_, storedIn_ofBytes hraw hmachine⟩
  unfold read
  rw [hraw]
  simp only [hmagic, hwide, horder, hmachine, ne_eq, not_true_eq_false, if_false]
  rfl

/-- A header that was read is the one that the file starts with. -/
private theorem hasHeader_of_read (h : read file = .ok header) :
    HasHeader file ∧ header.StoredIn file := by
  unfold read at h
  split at h
  · cases h
  next raw hraw =>
  -- Each check that did not fail says something about the file.
  split at h
  · cases h
  next hmagic =>
  split at h
  · cases h
  next hwide =>
  split at h
  · cases h
  next horder =>
  split at h
  · cases h
  next machine hmachine =>
  cases h
  exact ⟨(hasHeader_iff hraw).mpr ⟨not_not.mp hmagic, not_not.mp hwide, not_not.mp horder, machine,
    hmachine⟩, storedIn_ofBytes hraw hmachine⟩

/-- **Reading finds a header** exactly when the file starts with one; its fields are those that the
file stores. -/
theorem read_eq_ok_iff : read file = .ok header ↔ HasHeader file ∧ header.StoredIn file := by
  refine ⟨hasHeader_of_read, fun ⟨h, hstored⟩ => ?_⟩
  obtain ⟨found, hread, hfound⟩ := exists_read_of_hasHeader h
  rw [hread, hfound.unique hstored]

end Header

/-! ## §2 Names -/

/-- A file has a name at an offset: its bytes, with no zero byte among them, and a zero byte
behind. -/
def NameAt (file : Bytes) (start : Nat) (name : String) : Prop :=
  ∃ stop, start ≤ stop ∧ file.data[stop]? = some 0 ∧
    (∀ i, start ≤ i → i < stop → file.data[i]? ≠ some 0) ∧ file.extract start stop = name.toUTF8

/-- Bytes are decoded to the text that they encode. -/
theorem fromUTF8?_eq_some_iff {bytes : Bytes} {name : String} :
    String.fromUTF8? bytes = some name ↔ bytes = name.toUTF8 := by
  unfold String.fromUTF8?
  constructor
  · intro h
    split at h
    · cases h
      rfl
    · cases h
  · rintro rfl
    exact dif_pos name.isValidUTF8

/-- **A name is read** exactly where the file has one. -/
theorem fromUTF8?_cstring?_eq_some_iff {file : Bytes} {start : Nat} {name : String} :
    (∃ text, file.cstring? start = some text ∧ String.fromUTF8? text = some name) ↔
      NameAt file start name := by
  simp only [cstring?, Option.map_eq_some_iff, findZero?_eq_some_iff, fromUTF8?_eq_some_iff]
  constructor
  · rintro ⟨text, ⟨stop, ⟨hle, hzero, hbefore⟩, rfl⟩, htext⟩
    exact ⟨stop, hle, hzero, hbefore, htext⟩
  · rintro ⟨stop, hle, hzero, hbefore, htext⟩
    exact ⟨_, ⟨stop, ⟨hle, hzero, hbefore⟩, rfl⟩, htext⟩

/-! ## §3 Sections -/

/-- A file holds the fields of a section, other than its name, in a section header at an offset. -/
structure Section.StoredAt (s : Section) (file : Bytes) (start : Nat) : Prop where
  type : file.word? UInt32 (start + 4) = some s.type
  address : file.word? UInt64 (start + 16) = some s.address
  offset : file.word? UInt64 (start + 24) = some s.offset
  size : file.word? UInt64 (start + 32) = some s.size
  entrySize : file.word? UInt64 (start + 56) = some s.entrySize

namespace Section

/-- The section header of a section is inside the file. -/
theorem StoredAt.exists_slice? {s : Section} {file : Bytes} {start : Nat}
    (h : s.StoredAt file start) :
    ∃ raw, file.slice? start headerByteSize = some raw := by
  have hlast : start + 56 + 8 ≤ file.size := le_size_of_word? h.entrySize
  exact ⟨_, slice?_eq_some_iff.mpr ⟨hlast, rfl⟩⟩

theorem storedAt_ofHeader {file raw : Bytes} {start : Nat} (name : String)
    (hraw : file.slice? start headerByteSize = some raw) :
    (ofHeader name raw).StoredAt file start where
  type := word?_inside _ hraw (by decide)
  address := word?_inside _ hraw (by decide)
  offset := word?_inside _ hraw (by decide)
  size := word?_inside _ hraw (by decide)
  entrySize := word?_inside _ hraw (by decide)

/-- A file holds at most one section of a name in a section header. -/
theorem StoredAt.unique {s t : Section} {file : Bytes} {start : Nat} (hs : s.StoredAt file start)
    (ht : t.StoredAt file start) (hname : s.name = t.name) : s = t := by
  have type := Option.some.inj (hs.type.symm.trans ht.type)
  have address := Option.some.inj (hs.address.symm.trans ht.address)
  have offset := Option.some.inj (hs.offset.symm.trans ht.offset)
  have size := Option.some.inj (hs.size.symm.trans ht.size)
  have entrySize := Option.some.inj (hs.entrySize.symm.trans ht.entrySize)
  cases s
  cases t
  simp_all only

end Section

namespace Header

/-- Where the section header of an index starts. -/
def sectionHeaderStart (header : Header) (i : Nat) : Nat :=
  header.sectionHeaderOffset.toNat + i * header.sectionHeaderSize.toNat

/-- A file has a name for the section of an index: the section that holds the names says where they
start, and the section header of the index where among them its own is. -/
def Names (header : Header) (file : Bytes) (i : Nat) (name : String) : Prop :=
  ∃ (names : UInt64) (distance : UInt32),
    file.word? UInt64 (header.sectionHeaderStart header.nameTableIndex.toNat + 24) = some names ∧
    file.word? UInt32 (header.sectionHeaderStart i) = some distance ∧
    NameAt file (names.toNat + distance.toNat) name

/-- A file has a section at an index of the table of section headers. -/
structure Holds (header : Header) (file : Bytes) (i : Nat) (s : Section) : Prop where
  index : i < header.sectionCount.toNat
  stored : s.StoredAt file (header.sectionHeaderStart i)
  name : header.Names file i s.name

/-- A file has everything that its header says about its sections: section headers that are not cut
short, among them that of the section that holds the names, and a name for each. -/
structure Readable (header : Header) (file : Bytes) : Prop where
  size : 64 ≤ header.sectionHeaderSize.toNat
  nameTable : header.nameTableIndex.toNat < header.sectionCount.toNat
  inside : ∀ i < header.sectionCount.toNat, header.sectionHeaderStart i + 64 ≤ file.size
  named : ∀ i < header.sectionCount.toNat, ∃ name, header.Names file i name

variable {file : Bytes} {header : Header}

/-- A section header is read where it is inside the file. Its offset fits 64 bits then, because the
size of the file does. -/
theorem sectionHeaderAt_eq_ok_iff (hsize : file.size < UInt64.size) {i : Nat} {raw : Bytes} :
    header.sectionHeaderAt file i = .ok raw ↔
      file.slice? (header.sectionHeaderStart i) Section.headerByteSize = some raw := by
  unfold sectionHeaderAt sectionHeaderStart
  generalize header.sectionHeaderOffset.toNat + i * header.sectionHeaderSize.toNat = start
  cases hraw : file.slice? start Section.headerByteSize with
  | none => by_cases hword : start < UInt64.size <;> simp [hword, hraw]
  | some found =>
    have hinside := (slice?_eq_some_iff.mp hraw).1
    have hword : start < UInt64.size := by omega
    simp [hword, hraw]

/-- The names are found if the section that holds them is in the table and its section header in the
file. -/
theorem nameTable_eq_ok_iff (hsize : file.size < UInt64.size) {start : Nat} :
    header.nameTable file = .ok start ↔
      Section.headerByteSize ≤ header.sectionHeaderSize.toNat ∧
      header.nameTableIndex.toNat < header.sectionCount.toNat ∧
      ∃ raw, file.slice? (header.sectionHeaderStart header.nameTableIndex.toNat)
        Section.headerByteSize = some raw ∧ (raw.word UInt64 24).toNat = start := by
  unfold nameTable
  simp only
  split
  · next hsmall =>
    simp only [reduceCtorEq, false_iff]
    omega
  · next hlarge =>
    split
    · next hrange =>
      simp only [reduceCtorEq, false_iff]
      omega
    · next hrange =>
      simp only [map_eq_ok_iff, sectionHeaderAt_eq_ok_iff hsize, Nat.not_lt.mp hlarge,
        Nat.not_le.mp hrange, true_and]

/-- **A section is read** where its section header is inside the file and its name behind it is a
name. -/
theorem sectionAt_eq_ok_iff (hsize : file.size < UInt64.size) {start i : Nat} {s : Section} :
    header.sectionAt file start i = .ok s ↔
      s.StoredAt file (header.sectionHeaderStart i) ∧ ∃ distance : UInt32,
        file.word? UInt32 (header.sectionHeaderStart i) = some distance ∧
        NameAt file (start + distance.toNat) s.name := by
  unfold sectionAt
  rw [bind_eq_ok_iff]
  simp only [sectionHeaderAt_eq_ok_iff hsize, ← fromUTF8?_cstring?_eq_some_iff]
  constructor
  · rintro ⟨raw, hraw, h⟩
    have hdistance := word?_inside UInt32 hraw (show 0 + 4 ≤ Section.headerByteSize by decide)
    split at h
    · cases h
    next text htext =>
    split at h
    · cases h
    next name hname =>
    cases h
    exact ⟨Section.storedAt_ofHeader name hraw, _, hdistance, text, htext, hname⟩
  · rintro ⟨hstored, distance, hdistance, text, htext, hname⟩
    -- The section header that is read is the only one there, so the section is the stored one.
    obtain ⟨raw, hraw⟩ := hstored.exists_slice?
    have hfound := word?_inside UInt32 hraw (show 0 + 4 ≤ Section.headerByteSize by decide)
    obtain rfl : raw.word UInt32 0 = distance := Option.some.inj (hfound.symm.trans hdistance)
    refine ⟨raw, hraw, ?_⟩
    rw [← Section.nameOffset] at htext
    simp only [htext, hname, Except.ok.injEq]
    exact (Section.storedAt_ofHeader s.name hraw).unique hstored rfl

/-- Where the names start is stored in the section header of the section that holds them, so what is
read for an index is the section that the file has there. -/
theorem sectionAt_eq_ok_iff_holds (hsize : file.size < UInt64.size) {start : Nat}
    (hstart : header.nameTable file = .ok start) (i : Nat) (s : Section) :
    i < header.sectionCount.toNat ∧ header.sectionAt file start i = .ok s ↔
      header.Holds file i s := by
  obtain ⟨_, _, raw, hraw, rfl⟩ := (nameTable_eq_ok_iff hsize).mp hstart
  have hnames := word?_inside UInt64 hraw (show 24 + 8 ≤ Section.headerByteSize by decide)
  rw [sectionAt_eq_ok_iff hsize]
  constructor
  · rintro ⟨hi, hstored, distance, hdistance, hname⟩
    exact ⟨hi, hstored, _, distance, hnames, hdistance, hname⟩
  · rintro ⟨hi, hstored, names, distance, hfound, hdistance, hname⟩
    cases Option.some.inj (hfound.symm.trans hnames)
    exact ⟨hi, hstored, distance, hdistance, hname⟩

/-- A file has a section at an index when the section header is inside and there is a name for
it. -/
theorem exists_holds_iff {i : Nat} (hi : i < header.sectionCount.toNat) :
    (∃ s, header.Holds file i s) ↔
      header.sectionHeaderStart i + 64 ≤ file.size ∧ ∃ name, header.Names file i name := by
  constructor
  · rintro ⟨s, _, hstored, hname⟩
    obtain ⟨raw, hraw⟩ := hstored.exists_slice?
    exact ⟨(slice?_eq_some_iff.mp hraw).1, _, hname⟩
  · rintro ⟨hinside, name, hname⟩
    have hraw := slice?_eq_some_iff.mpr ⟨hinside, rfl⟩
    exact ⟨_, hi, Section.storedAt_ofHeader name hraw, hname⟩

/-- In a file that has everything the names are found, and a section for each index. -/
theorem Readable.exists_sectionAt (hr : header.Readable file) (hsize : file.size < UInt64.size) :
    ∃ start, header.nameTable file = .ok start ∧
      ∀ i < header.sectionCount.toNat, ∃ s, header.sectionAt file start i = .ok s := by
  have hraw := slice?_eq_some_iff.mpr ⟨hr.inside _ hr.nameTable, rfl⟩
  have hstart := (nameTable_eq_ok_iff hsize).mpr ⟨hr.size, hr.nameTable, _, hraw, rfl⟩
  refine ⟨_, hstart, fun i hi => ?_⟩
  obtain ⟨s, hs⟩ := (exists_holds_iff hi).mpr ⟨hr.inside i hi, hr.named i hi⟩
  exact ⟨s, ((sectionAt_eq_ok_iff_holds hsize hstart i s).mpr hs).2⟩

/-- **The sections of an image are read** exactly when the file has everything that its header says
about them, or the header says that there are none. They are the ones that the file has, in their
order. -/
theorem sections_eq_ok_iff (hsize : file.size < UInt64.size) {found : List Section} :
    header.sections file = .ok found ↔
      (header.sectionCount = 0 ∨ header.Readable file) ∧
        ∀ i s, found[i]? = some s ↔ header.Holds file i s := by
  unfold sections
  split
  · next hnone =>
    -- There is no index below zero, so the file has no section at any.
    have hnothing : ∀ i s, ¬ header.Holds file i s := by
      intro i s h
      have hi := h.index
      rw [hnone] at hi
      exact absurd hi (Nat.not_lt_zero i)
    simp only [hnone, true_or, true_and, hnothing, iff_false, Except.ok.injEq]
    constructor
    · rintro rfl i s h
      cases h
    · intro h
      cases found with
      | nil => rfl
      | cons s rest => exact absurd rfl (h 0 s)
  · next hsome =>
    simp only [hsome, false_or, bind_eq_ok_iff]
    constructor
    · rintro ⟨start, hstart, hfound⟩
      obtain ⟨hlarge, hindex, _⟩ := (nameTable_eq_ok_iff hsize).mp hstart
      obtain ⟨hall, hplaces⟩ := mapM_range_eq_ok_iff_getElem?.mp hfound
      simp only [sectionAt_eq_ok_iff_holds hsize hstart] at hplaces
      have hholds : ∀ i < header.sectionCount.toNat, ∃ s, header.Holds file i s := by
        intro i hi
        obtain ⟨s, hs⟩ := hall i hi
        exact ⟨s, (sectionAt_eq_ok_iff_holds hsize hstart i s).mp ⟨hi, hs⟩⟩
      exact ⟨{
        size := hlarge
        nameTable := hindex
        inside := fun i hi => ((exists_holds_iff hi).mp (hholds i hi)).1
        named := fun i hi => ((exists_holds_iff hi).mp (hholds i hi)).2 }, hplaces⟩
    · rintro ⟨hr, hplaces⟩
      obtain ⟨start, hstart, hall⟩ := hr.exists_sectionAt hsize
      simp only [← sectionAt_eq_ok_iff_holds hsize hstart] at hplaces
      exact ⟨start, hstart, mapM_range_eq_ok_iff_getElem?.mpr ⟨hall, hplaces⟩⟩

/-- Sections can be read exactly when the file has everything that its header says about them, or
the header says that there are none. -/
theorem exists_sections_iff (hsize : file.size < UInt64.size) :
    (∃ found, header.sections file = .ok found) ↔
      header.sectionCount = 0 ∨ header.Readable file := by
  constructor
  · rintro ⟨found, hfound⟩
    exact ((sections_eq_ok_iff hsize).mp hfound).1
  · rintro (hnone | hr)
    · exact ⟨[], if_pos hnone⟩
    · obtain ⟨start, hstart, hall⟩ := hr.exists_sectionAt hsize
      obtain ⟨found, hfound⟩ := exists_mapM_iff.mpr fun i hi => hall i (List.mem_range.mp hi)
      -- Where there are sections to read, the section that holds the names comes first.
      have hsome : header.sectionCount ≠ 0 := by
        intro hnone
        have hindex := hr.nameTable
        rw [hnone] at hindex
        exact Nat.not_lt_zero _ hindex
      exact ⟨found, by rw [sections, if_neg hsome, bind_eq_ok_iff]; exact ⟨start, hstart, hfound⟩⟩

end Header

/-! ## §4 Sections by name -/

/-- The last element of a list that has a property is the one with the greatest index. -/
private theorem findRev?_eq_some_iff {α : Type} {xs : List α} {p : α → Bool} {x : α} :
    xs.findRev? p = some x ↔
      ∃ i, xs[i]? = some x ∧ p x ∧ ∀ (j : Nat) y, i < j → xs[j]? = some y → ¬ p y := by
  rw [List.findRev?_eq_find?_reverse, List.find?_eq_some_iff_append]
  constructor
  · rintro ⟨hx, after, before, hsplit, hafter⟩
    -- Behind the element are those that come before it in the reverse.
    obtain rfl : xs = before.reverse ++ x :: after.reverse := by
      rw [← List.reverse_reverse xs, hsplit]
      simp
    refine ⟨before.length, by simp, hx, fun j y hj hy => ?_⟩
    have hindex : j - before.length = j - before.length - 1 + 1 := by omega
    rw [List.getElem?_append_right (by simp; omega), List.length_reverse, hindex,
      List.getElem?_cons_succ] at hy
    simpa using hafter y (List.mem_reverse.mp (List.mem_of_getElem? hy))
  · rintro ⟨i, hi, hx, hafter⟩
    obtain ⟨hlt, rfl⟩ := List.getElem?_eq_some_iff.mp hi
    have hsplit : xs = xs.take i ++ xs[i] :: xs.drop (i + 1) := by
      rw [List.getElem_cons_drop, List.take_append_drop]
    refine ⟨hx, (xs.drop (i + 1)).reverse, (xs.take i).reverse, ?_, fun y hy => ?_⟩
    · calc xs.reverse = (xs.take i ++ xs[i] :: xs.drop (i + 1)).reverse := congrArg _ hsplit
        _ = _ := by simp
    · obtain ⟨k, hk⟩ := List.mem_iff_getElem?.mp (List.mem_reverse.mp hy)
      rw [List.getElem?_drop] at hk
      simpa using hafter _ y (by omega) hk

namespace SectionTable

/-- **A table of the sections that a file has**: a name stands for the last section that has it, and
there are as many entries as there are names. -/
structure Lists (table : SectionTable) (header : Header) (file : Bytes) : Prop where
  machine : table.machine = header.machine
  found : ∀ name s, table.get? name = some s ↔ ∃ i, header.Holds file i s ∧ s.name = name ∧
    ∀ j t, i < j → header.Holds file j t → t.name ≠ name
  missing : ∀ name, table.get? name = none ↔ ∀ i s, header.Holds file i s → s.name ≠ name
  size : {name | ∃ i s, header.Holds file i s ∧ s.name = name}.encard = table.size

/-- A name is missing from a table of sections when none of them has it. -/
theorem get?_ofSections_eq_none_iff {machine : Machine} {sections : List Section} {name : String} :
    (ofSections machine sections).get? name = none ↔ ∀ s ∈ sections, s.name ≠ name := by
  rw [get?_ofSections, List.findRev?_eq_find?_reverse, List.find?_eq_none]
  simp

/-- The section that stands under a name has it. -/
private theorem name_of_get?_ofSections {machine : Machine} {sections : List Section}
    {name : String}
    {s : Section} (h : (ofSections machine sections).get? name = some s) : s.name = name := by
  rw [get?_ofSections, List.findRev?_eq_find?_reverse] at h
  simpa using List.find?_some h

/-- There are as many entries as there are names. -/
private theorem encard_names (table : SectionTable) :
    {name | table.get? name ≠ none}.encard = table.size := by
  have hkeys : {name | table.get? name ≠ none} = table.byName.keys.toFinset := by
    ext name
    rw [Finset.mem_coe, List.mem_toFinset, Std.ExtTreeMap.mem_keys,
      Std.ExtTreeMap.mem_iff_isSome_getElem?, Option.isSome_iff_ne_none]
    rfl
  rw [hkeys, Set.encard_coe_eq_coe_finsetCard,
    List.toFinset_card_of_nodup Std.ExtTreeMap.nodup_keys, Std.ExtTreeMap.length_keys]
  rfl

/-- The table of the sections that a file has. -/
theorem lists_ofSections {header : Header} {file : Bytes} {sections : List Section}
    (h : ∀ i s, sections[i]? = some s ↔ header.Holds file i s) :
    (ofSections header.machine sections).Lists header file := by
  have hmissing : ∀ name, (ofSections header.machine sections).get? name = none ↔
      ∀ i s, header.Holds file i s → s.name ≠ name := by
    intro name
    rw [get?_ofSections_eq_none_iff]
    simp only [List.mem_iff_getElem?, h, forall_exists_index]
    exact forall_comm
  refine ⟨rfl, fun name s => ?_, hmissing, ?_⟩
  · rw [get?_ofSections, findRev?_eq_some_iff]
    simp only [h, decide_eq_true_eq]
  · rw [← encard_names]
    congr 1
    ext name
    rw [Set.mem_ofPred_eq, Set.mem_ofPred_eq, ne_eq, hmissing]
    simp

/-! ## §5 Reading -/

/-- Behind a header that can be read the rest of the reading is that of the sections. -/
theorem read_eq_of_header {file : Bytes} {header : Header} (h : Header.read file = .ok header) :
    read file =
      ((header.sections file).mapError Error.elfSection).map (ofSections header.machine) := by
  unfold read
  rw [h]
  change ((header.sections file).mapError Error.elfSection >>=
    fun found => pure (ofSections header.machine found)) = _
  cases header.sections file <;> rfl

/-- In a table that was read the section that stands under a name has it. -/
theorem name_of_read {file : Bytes} {table : SectionTable} {name : String} {s : Section}
    (hread : read file = .ok table) (h : table.get? name = some s) : s.name = name := by
  obtain ⟨header, _, hsections⟩ := bind_eq_ok_iff.mp hread
  obtain ⟨sections, _, htable⟩ := bind_eq_ok_iff.mp hsections
  cases htable
  exact name_of_get?_ofSections h

/-- **What is read as a source image.** A file that does not start with a header is refused for
that, and no other is. One that does is accepted exactly when its sections can be found, and the
table is that of the sections that it has; otherwise a fault of a section is reported. -/
theorem read_format {file : Bytes} (hsize : file.size < UInt64.size) :
    ((∃ fault, read file = .error (.elfHeader fault)) ↔ ¬ HasHeader file) ∧
      (HasHeader file → ∃ header : Header, header.StoredIn file ∧
        ((∃ table, read file = .ok table) ↔ header.sectionCount = 0 ∨ header.Readable file) ∧
        (∀ e, read file = .error e → ∃ fault, e = .elfSection fault) ∧
        ∀ table, read file = .ok table → table.Lists header file) := by
  cases hheader : Header.read file with
  | error fault =>
    have hnone : ¬ HasHeader file := by
      intro h
      obtain ⟨header, hread, _⟩ := Header.exists_read_of_hasHeader h
      cases hheader.symm.trans hread
    have hread : read file = .error (.elfHeader fault) := by
      unfold read
      rw [hheader]
      rfl
    exact ⟨⟨fun _ => hnone, fun _ => ⟨fault, hread⟩⟩, fun h => absurd h hnone⟩
  | ok header =>
    obtain ⟨hhas, hstored⟩ := Header.read_eq_ok_iff.mp hheader
    rw [read_eq_of_header hheader]
    -- Behind the header only the sections can be wrong.
    have hfault : ∀ e, ((header.sections file).mapError Error.elfSection).map
        (ofSections header.machine) = .error e → ∃ fault, e = .elfSection fault := by
      intro e h
      cases hsections : header.sections file with
      | error fault =>
        rw [hsections] at h
        cases h
        exact ⟨fault, rfl⟩
      | ok found =>
        rw [hsections] at h
        cases h
    refine ⟨⟨?_, fun h => absurd hhas h⟩, fun _ => ⟨header, hstored, ?_, hfault, ?_⟩⟩
    · rintro ⟨fault, h⟩
      obtain ⟨_, he⟩ := hfault _ h
      cases he
    · rw [← Header.exists_sections_iff hsize]
      simp only [map_eq_ok_iff, mapError_eq_ok_iff]
      constructor
      · rintro ⟨table, found, hfound, _⟩
        exact ⟨found, hfound⟩
      · rintro ⟨found, hfound⟩
        exact ⟨_, found, hfound, rfl⟩
    · intro table h
      obtain ⟨found, hfound, rfl⟩ := map_eq_ok_iff.mp h
      exact lists_ofSections ((Header.sections_eq_ok_iff hsize).mp (mapError_eq_ok_iff.mp hfound)).2

/-- A source image with two sections of one name, at the addresses 0x1000 and 0x2000. The first of
them also holds the names. -/
def namesakes : Bytes :=
  ⟨⟨[0x7F, 0x45, 0x4C, 0x46, 2, 1, 1, 0] ++ List.replicate 8 0 ++ [2, 0, 243, 0, 1, 0, 0, 0] ++
    List.replicate 16 0 ++ [64, 0, 0, 0, 0, 0, 0, 0] ++ List.replicate 4 0 ++ [64, 0] ++
    List.replicate 4 0 ++ [64, 0, 2, 0, 0, 0] ++
    [0, 0, 0, 0, 1, 0, 0, 0] ++ List.replicate 8 0 ++ [0, 0x10, 0, 0, 0, 0, 0, 0] ++
    [192, 0, 0, 0, 0, 0, 0, 0] ++ List.replicate 32 0 ++
    [0, 0, 0, 0, 1, 0, 0, 0] ++ List.replicate 8 0 ++ [0, 0x20, 0, 0, 0, 0, 0, 0] ++
    List.replicate 40 0 ++ [46, 100, 97, 116, 97, 0]⟩⟩

/-- The name stands for the second of the two sections. -/
theorem read_format_namesakes :
    namesakes.size < UInt64.size ∧ HasHeader namesakes ∧
      ∃ (header : Header) (table : SectionTable), header.StoredIn namesakes ∧
        header.Readable namesakes ∧ read namesakes = .ok table ∧ table.Lists header namesakes ∧
        table.size = 1 ∧ (table.get? ".data").map Section.address = some 0x2000 := by
  have hsize : namesakes.size < UInt64.size := by decide +kernel
  have hfound : (read namesakes).map
      (fun table => (table.size, (table.get? ".data").map Section.address)) =
      .ok (1, some 0x2000) := by
    decide +kernel
  obtain ⟨table, htable, hentries⟩ := map_eq_ok_iff.mp hfound
  obtain ⟨hcount, haddress⟩ := Prod.mk.inj hentries
  obtain ⟨hrefused, haccepted⟩ := read_format hsize
  have hheader : HasHeader namesakes := by
    by_contra hnone
    obtain ⟨fault, hfault⟩ := hrefused.mpr hnone
    cases htable.symm.trans hfault
  obtain ⟨header, hstored, hiff, _, hlists⟩ := haccepted hheader
  have hsome : namesakes.word? UInt16 60 = some 2 := by decide +kernel
  rcases hiff.mp ⟨table, htable⟩ with hnone | hreadable
  · have hcount := hstored.sectionCount
    rw [hnone] at hcount
    cases hsome.symm.trans hcount
  · exact ⟨hsize, hheader, header, table, hstored, hreadable, htable, hlists table htable, hcount,
      haddress⟩

end SectionTable

end Rebase.Elf
