import Rebase.Pe.Headers
import Rebase.Proofs.Bytes.Slice
import Rebase.Proofs.Fallible

/-!
# What the headers of an image are

Headers are read by following offsets. Here is the same said at once: `Headers.Describes` lists,
field by field, what has to stand where in a file for it to have given headers, and `read_eq_ok_iff`
says that reading finds headers exactly when they describe the file.

- **Sections**: `Section.StoredAt`, a section header as the fields of a file at an offset
- **Headers**: `Headers.Describes`
- **Order**: the file header, the optional header with the slot of the base relocation directory,
  and the section table follow each other
-/

namespace Rebase.Pe

open Bytes Fallible

/-! ## §1 Section headers -/

/-- A file holds the header of a section at an offset. -/
structure Section.StoredAt (s : Section) (file : Bytes) (offset : Nat) : Prop where
  name : (file.slice? offset 8).map (fun bytes => Text.lossy (trimZeros bytes)) = some s.name
  virtualSize : file.word? UInt32 (offset + 8) = some s.virtualSize
  virtualAddress : file.word? UInt32 (offset + 12) = some s.virtualAddress
  rawSize : file.word? UInt32 (offset + 16) = some s.rawSize
  rawOffset : file.word? UInt32 (offset + 20) = some s.rawOffset
  characteristics : file.word? UInt32 (offset + 36) = some s.characteristics

namespace Section

theorem StoredAt.le_size {s : Section} {file : Bytes} {offset : Nat} (h : s.StoredAt file offset) :
    offset + headerSize ≤ file.size := by
  have hlast := le_size_of_word? h.characteristics
  rw [headerSize]
  omega

/-- A file holds at most one section header at an offset. -/
theorem StoredAt.unique {s t : Section} {file : Bytes} {offset : Nat} (hs : s.StoredAt file offset)
    (ht : t.StoredAt file offset) : s = t := by
  -- Each field of the one is read at the place where that of the other is.
  have name := Option.some.inj (hs.name.symm.trans ht.name)
  have virtualSize := Option.some.inj (hs.virtualSize.symm.trans ht.virtualSize)
  have virtualAddress := Option.some.inj (hs.virtualAddress.symm.trans ht.virtualAddress)
  have rawSize := Option.some.inj (hs.rawSize.symm.trans ht.rawSize)
  have rawOffset := Option.some.inj (hs.rawOffset.symm.trans ht.rawOffset)
  have characteristics := Option.some.inj (hs.characteristics.symm.trans ht.characteristics)
  cases s
  cases t
  simp only at name virtualSize virtualAddress rawSize rawOffset characteristics
  simp only [name, virtualSize, virtualAddress, rawSize, rawOffset, characteristics]

/-- The section of a header that was cut out of a file is the one that the file holds there. -/
theorem storedAt_ofHeader {file header : Bytes} {offset : Nat}
    (h : file.slice? offset headerSize = some header) : (ofHeader header).StoredAt file offset where
  name := by
    rw [slice?_extract_zero h (show 8 ≤ headerSize by decide), Option.map_some, ofHeader]
  virtualSize := word?_inside _ h (by decide)
  virtualAddress := word?_inside _ h (by decide)
  rawSize := word?_inside _ h (by decide)
  rawOffset := word?_inside _ h (by decide)
  characteristics := word?_inside _ h (by decide)

end Section

namespace Headers

/-! ## §2 Headers -/

deriving instance DecidableEq for Headers

/-- The least size of an optional header that has a slot for the base relocation directory. -/
def leastOptionalSize : Nat := directoriesOffset + (relocationDirectoryIndex + 1) * directorySize

/-- A file has the given headers, field by field. -/
structure Describes (h : Headers) (file : Bytes) : Prop where
  /-- Following the first offset leads to the signature, and behind it is the file header. -/
  signed : ∃ e : UInt32, file.word? UInt32 signatureField = some e ∧
    file.word? UInt32 e.toNat = some signature ∧ h.fileHeaderOffset = e.toNat + 4
  count : ∃ n : UInt16, file.word? UInt16 h.sectionCountOffset = some n ∧ h.sectionCount = n.toNat
  optionalHeader : h.optionalHeaderOffset = h.fileHeaderOffset + 20
  /-- The section table is behind the optional header, which has the size that is stored. -/
  sectionTable : ∃ z : UInt16, file.word? UInt16 (h.fileHeaderOffset + 16) = some z ∧
    leastOptionalSize ≤ z.toNat ∧ h.sectionTableOffset = h.optionalHeaderOffset + z.toNat
  characteristics : file.word? UInt16 h.characteristicsOffset = some h.characteristics
  magic : file.word? UInt16 h.optionalHeaderOffset = some 0x20B
  sizeOfImage : file.word? UInt32 h.sizeOfImageOffset = some h.sizeOfImage
  sizeOfHeaders : file.word? UInt32 (h.optionalHeaderOffset + 60) = some h.sizeOfHeaders
  directories : ∃ n : UInt32, file.word? UInt32 (h.optionalHeaderOffset + 108) = some n ∧
    relocationDirectoryIndex < n.toNat
  sections : ∀ (i : Nat) (s : Section), h.sections[i]? = some s →
    s.StoredAt file (h.sectionHeaderOffset i)

private theorem required_eq_ok_iff {α : Type} {o : Option α} {value : α} :
    required o = .ok value ↔ o = some value := by
  cases o <;> simp [required]

private theorem checkSignature_eq_ok_iff {found : Option UInt32} :
    checkSignature found = .ok () ↔ found = some signature := by
  unfold checkSignature
  split <;> simp_all

private theorem checkMagic_eq_ok_iff {magic : UInt16} :
    checkMagic magic = .ok () ↔ magic = 0x20B := by
  unfold checkMagic
  split
  · simp_all
  · split <;> simp_all

private theorem checkDirectory_eq_ok_iff {directoryCount : UInt32} {optionalHeaderSize : UInt16} :
    checkDirectory directoryCount optionalHeaderSize = .ok () ↔
      relocationDirectoryIndex < directoryCount.toNat ∧
        leastOptionalSize ≤ optionalHeaderSize.toNat := by
  unfold checkDirectory leastOptionalSize
  split
  · simp only [reduceCtorEq, false_iff]
    omega
  · simp only [true_iff]
    omega

private theorem readSection_eq_ok_iff {file : Bytes} {table index : Nat} {s : Section} :
    readSection file table index = .ok s ↔
      s.StoredAt file (table + index * Section.headerSize) := by
  unfold readSection
  split
  · next header hheader =>
    have hstored := Section.storedAt_ofHeader hheader
    constructor
    · intro h
      cases h
      exact hstored
    · intro h
      rw [hstored.unique h]
  · next hnone =>
    -- A header that the file held here would end inside the file.
    simp only [reduceCtorEq, false_iff]
    intro h
    have := h.le_size
    rw [slice?_eq_none_iff] at hnone
    omega

/-- Headers that were read describe the file. -/
private theorem describes_of_read {file : Bytes} {h : Headers} (hread : read file = .ok h) :
    h.Describes file := by
  -- Every step that went through says something about the file.
  unfold read at hread
  obtain ⟨e, he, hread⟩ := bind_eq_ok_iff.mp hread
  obtain ⟨⟨⟩, hsig, hread⟩ := bind_eq_ok_iff.mp hread
  obtain ⟨count, hcount, hread⟩ := bind_eq_ok_iff.mp hread
  obtain ⟨size, hsize, hread⟩ := bind_eq_ok_iff.mp hread
  obtain ⟨flags, hflags, hread⟩ := bind_eq_ok_iff.mp hread
  obtain ⟨magic, hmagic, hread⟩ := bind_eq_ok_iff.mp hread
  obtain ⟨⟨⟩, hkind, hread⟩ := bind_eq_ok_iff.mp hread
  obtain ⟨image, himage, hread⟩ := bind_eq_ok_iff.mp hread
  obtain ⟨area, harea, hread⟩ := bind_eq_ok_iff.mp hread
  obtain ⟨directories, hdirectories, hread⟩ := bind_eq_ok_iff.mp hread
  obtain ⟨⟨⟩, hslot, hread⟩ := bind_eq_ok_iff.mp hread
  obtain ⟨sections, hsections, hread⟩ := bind_eq_ok_iff.mp hread
  rw [required_eq_ok_iff] at he hcount hsize hflags hmagic himage harea hdirectories
  rw [checkSignature_eq_ok_iff] at hsig
  rw [checkMagic_eq_ok_iff] at hkind
  rw [checkDirectory_eq_ok_iff] at hslot
  obtain ⟨hlen, hsections⟩ := mapM_range_eq_ok_iff.mp hsections
  cases hread
  exact {
    signed := ⟨e, he, hsig, rfl⟩
    count := ⟨count, hcount, hlen⟩
    optionalHeader := rfl
    sectionTable := ⟨size, hsize, hslot.2, rfl⟩
    characteristics := hflags
    magic := by rw [hmagic, hkind]
    sizeOfImage := himage
    sizeOfHeaders := harea
    directories := ⟨directories, hdirectories, hslot.1⟩
    sections := fun i s hs => readSection_eq_ok_iff.mp (hsections i s hs) }

/-- Headers that describe a file are read from it. -/
private theorem read_of_describes {file : Bytes} {h : Headers} (hd : h.Describes file) :
    read file = .ok h := by
  -- In the other direction every step finds what it looks for, at the offsets that the headers
  -- have.
  obtain ⟨e, he, hsig, hfile⟩ := hd.signed
  obtain ⟨count, hcount, hlen⟩ := hd.count
  obtain ⟨size, hsize, hleast, htable⟩ := hd.sectionTable
  obtain ⟨directories, hdirectories, hslot⟩ := hd.directories
  have hoptional := hd.optionalHeader
  have hsections : (List.range count.toNat).mapM (readSection file h.sectionTableOffset) =
      .ok h.sections :=
    mapM_range_eq_ok_iff.mpr
      ⟨hlen, fun i s hs => readSection_eq_ok_iff.mpr (hd.sections i s hs)⟩
  have hflags := hd.characteristics
  have hmagic := hd.magic
  have himage := hd.sizeOfImage
  have harea := hd.sizeOfHeaders
  obtain ⟨fileHeader, optionalHeader, table, flags, image, area, sections⟩ := h
  simp only [sectionCountOffset, characteristicsOffset, sizeOfImageOffset, sectionCount] at *
  subst hfile hoptional htable
  unfold read
  refine bind_eq_ok_iff.mpr ⟨e, required_eq_ok_iff.mpr he, ?_⟩
  refine bind_eq_ok_iff.mpr ⟨(), checkSignature_eq_ok_iff.mpr hsig, ?_⟩
  refine bind_eq_ok_iff.mpr ⟨count, required_eq_ok_iff.mpr hcount, ?_⟩
  refine bind_eq_ok_iff.mpr ⟨size, required_eq_ok_iff.mpr hsize, ?_⟩
  refine bind_eq_ok_iff.mpr ⟨flags, required_eq_ok_iff.mpr hflags, ?_⟩
  refine bind_eq_ok_iff.mpr ⟨_, required_eq_ok_iff.mpr hmagic, ?_⟩
  refine bind_eq_ok_iff.mpr ⟨(), checkMagic_eq_ok_iff.mpr rfl, ?_⟩
  refine bind_eq_ok_iff.mpr ⟨image, required_eq_ok_iff.mpr himage, ?_⟩
  refine bind_eq_ok_iff.mpr ⟨area, required_eq_ok_iff.mpr harea, ?_⟩
  refine bind_eq_ok_iff.mpr ⟨directories, required_eq_ok_iff.mpr hdirectories, ?_⟩
  refine bind_eq_ok_iff.mpr ⟨(), checkDirectory_eq_ok_iff.mpr ⟨hslot, hleast⟩, ?_⟩
  exact bind_eq_ok_iff.mpr ⟨sections, hsections, rfl⟩

/-- **Reading finds headers** exactly when they describe the file. -/
theorem read_eq_ok_iff {file : Bytes} {h : Headers} : read file = .ok h ↔ h.Describes file :=
  ⟨describes_of_read, read_of_describes⟩

/-- Where the first offset does not lead to the signature nothing is read. -/
theorem read_of_not_signed {file : Bytes} {e : UInt32}
    (he : file.word? UInt32 signatureField = some e)
    (hsig : file.word? UInt32 e.toNat ≠ some signature) : read file = .error .badSignature := by
  unfold read
  rw [he]
  simp only [required, checkSignature, if_neg hsig, bind, Except.bind]

/-! ## §3 The order of the fields -/

variable {file : Bytes} {h : Headers}

/-- Where the fields that plans write to stand in the headers. -/
theorem fieldOffsets (h : Headers) :
    h.sectionCountOffset = h.fileHeaderOffset + 2 ∧
      h.characteristicsOffset = h.fileHeaderOffset + 18 ∧
      h.sizeOfImageOffset = h.optionalHeaderOffset + 56 ∧
      h.relocationDirectoryOffset = h.optionalHeaderOffset + 152 :=
  ⟨rfl, rfl, rfl, rfl⟩

theorem le_sectionHeaderOffset (i : Nat) : h.sectionTableOffset ≤ h.sectionHeaderOffset i :=
  Nat.le_add_right _ _

/-- The section headers of a table are inside the table. -/
theorem sectionHeaderOffset_add_le {i : Nat} (hi : i < h.sectionCount) :
    h.sectionHeaderOffset i + Section.headerSize ≤ h.sectionTableEnd := by
  simp only [sectionTableEnd, sectionHeaderOffset, Section.headerSize]
  omega

/-- The section headers of a table do not overlap. -/
theorem sectionHeaderOffset_add_le_of_lt {i j : Nat} (hij : i < j) :
    h.sectionHeaderOffset i + Section.headerSize ≤ h.sectionHeaderOffset j := by
  simp only [sectionHeaderOffset, Section.headerSize]
  omega

namespace Describes

/-- The base relocation directory ends before the section table starts. -/
theorem le_sectionTable (hd : h.Describes file) :
    h.optionalHeaderOffset + 160 ≤ h.sectionTableOffset := by
  obtain ⟨z, _, hleast, htable⟩ := hd.sectionTable
  have : leastOptionalSize = 160 := rfl
  omega

theorem count_lt (hd : h.Describes file) : h.sectionCount < UInt16.size := by
  obtain ⟨n, _, hn⟩ := hd.count
  rw [hn]
  exact n.toNat_lt

/-- The whole section table is inside the file, unless it is empty. -/
theorem sectionTableEnd_le (hd : h.Describes file) (hne : h.sections ≠ []) :
    h.sectionTableEnd ≤ file.size := by
  -- The last section header is inside the file, and the table ends with it.
  have hpos : 0 < h.sections.length := List.length_pos_iff.mpr hne
  have hlast : h.sections.length - 1 < h.sections.length := by omega
  have hle := (hd.sections _ _ (List.getElem?_eq_getElem hlast)).le_size
  have hend : h.sectionTableEnd =
      h.sectionHeaderOffset (h.sections.length - 1) + Section.headerSize := by
    simp only [sectionTableEnd, sectionHeaderOffset, sectionCount, Section.headerSize]
    omega
  omega

end Describes

end Headers

end Rebase.Pe
