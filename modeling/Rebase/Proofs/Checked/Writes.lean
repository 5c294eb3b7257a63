import Rebase.Proofs.Checked.Destination
import Rebase.Proofs.Pe.Frame

/-!
# Writing on a machine

A plan is carried out by writes that test nothing: each of them relies on what was found out when
the headers were read and the plan was made. The slot of the base relocation directory is inside the
image because the section table is behind it, and an image that has a plan ends behind its section
table, also where it has no sections (`Pe.Plan.Suits.sectionTableEnd_le`).

- **The new header**: `newHeader_eq_some`, written field by field it is that of the plan
- **The image**: `writeSection_eq_some`, `writeDirectory_eq_some`, and `applyPlan_eq_some` for all
  of it
-/

namespace Rebase.Checked

open Bytes Edit Pe
open Pe.Section (headerSize)

/-! ## §1 The header of a new section -/

/-- The header of a new section, written into a slot of its size. -/
def newHeader (place : NewSection) (tableSize : UInt32) (discardable : Bool) (slot : Bytes) :
    Option Bytes := do
  let blank ← write slot 0 (zeros slot.size)
  let named ← write blank 0 relocationSectionName.toUTF8
  let sized ← write named 8 (ofWord tableSize)
  let placed ← write sized 12 (ofWord place.virtualAddress)
  let stored ← write placed 16 (ofWord place.rawSize)
  let located ← write stored 20 (ofWord place.rawOffset)
  write located 36 (ofWord (NewSection.characteristics discardable))

/-- A write to the zero bytes at the end of a buffer, `gap` bytes behind their start, leaves `rest`
of them. -/
private theorem write_append_zeros {a data : Bytes} {offset n : Nat} (gap rest : Nat)
    (h : offset = a.size + gap ∧ n = gap + data.size + rest ∧ a.size + n ≤ maxBufferSize) :
    write (a ++ zeros n) offset data = some (a ++ zeros gap ++ data ++ zeros rest) := by
  obtain ⟨hoffset, hn, hsize⟩ := h
  rw [write_eq_some, overwrite_append_zeros gap rest hoffset hn]
  · rw [ByteArray.size_append, size_zeros]
    exact hsize
  · rw [ByteArray.size_append, size_zeros]
    omega

/-- **The header of a new section** is that of the plan. -/
theorem newHeader_eq_some (place : NewSection) (tableSize : UInt32) (discardable : Bool)
    {slot : Bytes} (hslot : slot.size = headerSize) :
    newHeader place tableSize discardable slot =
      some (place.header tableSize discardable) := by
  have hname : relocationSectionName.utf8ByteSize = 6 := by decide
  have hnothing : zeros 0 = ByteArray.empty := rfl
  have hblank : write slot 0 (zeros slot.size) = some (ByteArray.empty ++ zeros 40) := by
    rw [write_eq_some (by rw [hslot]; decide) (by rw [size_zeros]; omega), hslot, Bytes.overwrite,
      if_pos (by rw [size_zeros, hslot]; decide), size_zeros]
    rw [ByteArray.extract_eq_empty_iff.mpr (by omega),
      ByteArray.extract_eq_empty_iff.mpr (by omega), ByteArray.append_empty]
    rfl
  -- The fields are written in order, so what is not written yet are zero bytes at the end.
  refine bind_eq_of_eq_some hblank ?_
  refine bind_eq_of_eq_some (write_append_zeros 0 34 (by simp [hname, maxBufferSize])) ?_
  refine bind_eq_of_eq_some (write_append_zeros 2 28 (by simp [hname, maxBufferSize])) ?_
  refine bind_eq_of_eq_some (write_append_zeros 0 24 (by simp [hname, maxBufferSize])) ?_
  refine bind_eq_of_eq_some (write_append_zeros 0 20 (by simp [hname, maxBufferSize])) ?_
  refine bind_eq_of_eq_some (write_append_zeros 0 16 (by simp [hname, maxBufferSize])) ?_
  rw [write_append_zeros 12 0 (by simp [hname, maxBufferSize])]
  simp only [hnothing, ByteArray.append_empty, ByteArray.empty_append]
  rfl

/-! ## §2 The image -/

/-- Adds zero bytes until a buffer has at least the given size. -/
def growTo (b : Bytes) (size : Nat) : Option Bytes :=
  if b.size < size then resize b size else some b

/-- Writes the fields of the headers that describe a new section. -/
def writeNewFields (h : Headers) (place : NewSection) (tableSize : UInt32) (discardable : Bool)
    (file : Bytes) : Option Bytes := do
  let slotEnd ← word (place.headerOffset + headerSize)
  let slot ← cut file place.headerOffset slotEnd
  let header ← newHeader place tableSize discardable slot
  let described ← write file place.headerOffset header
  let sections ← narrow16 h.sectionCount
  let count ← narrow16 (sections.toNat + 1)
  let countField ← word (h.fileHeaderOffset + 2)
  let counted ← write described countField (ofWord count)
  let image ← imageSize place.virtualAddress tableSize.toNat
  let sizeOfImage ← image
  let imageField ← word (h.optionalHeaderOffset + 56)
  write counted imageField (ofWord sizeOfImage)

/-- Adds the contents of a new section at the end. -/
def writeNewContents (place : NewSection) (table file : Bytes) : Option Bytes := do
  let grown ← growTo file place.rawOffset.toNat
  let extended ← extend grown table
  let last ← word (place.rawOffset.toNat + place.rawSize.toNat)
  resize extended last

/-- Writes the table and the fields of its section. -/
def writeSection (h : Headers) (table : Bytes) (tableSize : UInt32) (discardable : Bool)
    (file : Bytes) :
    Plan → Option Bytes
  | .replace index target => do
    let last ← word (target.rawOffset.toNat + target.rawSize.toNat)
    let written ← write file target.rawOffset.toNat table
    let middle ← word (target.rawOffset.toNat + table.size)
    let rest ← sub last middle
    let filled ← write written middle (zeros rest)
    let header ← sectionHeaderOffset h index
    let sizeField ← word (header + 8)
    write filled sizeField (ofWord tableSize)
  | .append place => do
    let described ← writeNewFields h place tableSize discardable file
    writeNewContents place table described

/-- Tells the loader of the table. -/
def writeDirectory (h : Headers) (tableSize : UInt32) (plan : Plan) (file : Bytes) :
    Option Bytes := do
  let directories ← word (h.optionalHeaderOffset + Headers.directoriesOffset)
  let directory ← word (directories + Headers.relocationDirectoryIndex * Headers.directorySize)
  let addressed ← write file directory (ofWord plan.virtualAddress)
  let sizeField ← word (directory + 4)
  let sized ← write addressed sizeField (ofWord tableSize)
  let flagsField ← word (h.fileHeaderOffset + 18)
  write sized flagsField (ofWord (withRelocations h.characteristics))

/-- The file after a plan was carried out. -/
def applyPlan (plan : Plan) (h : Headers) (table : Bytes) (discardable : Bool) (file : Bytes) :
    Option Bytes := do
  let tableSize ← narrow32 table.size
  let written ← writeSection h table tableSize discardable file plan
  writeDirectory h tableSize plan written

/-- A buffer that is padded to a size that it has already is what it was. -/
private theorem growTo_eq_some {b : Bytes} {size : Nat} (hsize : size ≤ maxBufferSize)
    (hle : b.size ≤ size) :
    growTo b size = some (b.padTo size) := by
  unfold growTo
  split
  · exact resize_eq_some hsize hle
  · next hge =>
    have hsame : size - b.size = 0 := by omega
    have hnothing : zeros 0 = ByteArray.empty := rfl
    rw [Bytes.padTo, hsame, hnothing, ByteArray.append_empty]

/-- A new section ends below 4 GiB. -/
private theorem rawEnd_le_of_suits {h : Headers} {place : NewSection} {fileSize tableSize : Nat}
    (hsuits : (Plan.append place).Suits h fileSize tableSize) :
    place.rawOffset.toNat + place.rawSize.toNat ≤ maxBufferSize := by
  obtain ⟨_, _, _, hraw, _, _, _, hrawOffset, hrawSize⟩ := Headers.newSection_eq_ok_iff.mp hsuits.2
  rw [hrawOffset, hrawSize]
  exact Nat.le_trans (Nat.le_of_lt hraw) (by decide)

/-- The offset of a section header inside the image is computed without leaving a word. -/
private theorem sectionHeaderOffset_eq_some_of_le {h : Headers} {index size : Nat}
    (hsize : size ≤ maxBufferSize) (hle : h.sectionHeaderOffset index ≤ size) :
    sectionHeaderOffset h index = some (h.sectionHeaderOffset index) := by
  simp only [Headers.sectionHeaderOffset] at hle
  refine bind_eq_of_eq_some (word_eq_some_of_le hsize (by omega)) ?_
  exact word_eq_some_of_le hsize hle

/-- The contents of a new section: the image is only ever made longer, up to less than 4 GiB. -/
private theorem writeNewContents_eq_some {h : Headers} {file table : Bytes} {place : NewSection}
    (hsuits : (Plan.append place).Suits h file.size table.size) {fields : Bytes}
    (hfields : fields.size = file.size) :
    writeNewContents place table fields =
      some (Bytes.padTo (fields.padTo place.rawOffset.toNat ++ table)
        (place.rawOffset.toNat + place.rawSize.toNat)) := by
  obtain ⟨_, _, hoffset, hsize⟩ := hsuits.newSection_bounds
  have hlarge := rawEnd_le_of_suits hsuits
  -- The image is padded up to the section, and the table that follows fits the section.
  have hpadded : (fields.padTo place.rawOffset.toNat).size = place.rawOffset.toNat := by
    rw [size_padTo, hfields, Nat.max_eq_right hoffset]
  refine bind_eq_of_eq_some (growTo_eq_some (by omega) (by rw [hfields]; exact hoffset)) ?_
  refine bind_eq_of_eq_some (extend_eq_some (by rw [hpadded]; omega)) ?_
  refine bind_eq_of_eq_some (word_eq_some_of_le hlarge (Nat.le_refl _)) ?_
  exact resize_eq_some hlarge (by rw [ByteArray.size_append, hpadded]; omega)

/-- **The directory and the characteristics are inside the image**, whatever was added at its
end. -/
theorem writeDirectory_eq_some {h : Headers} {plan : Plan} {file table written : Bytes}
    (hd : h.Describes file) (hsuits : plan.Suits h file.size table.size)
    (hle : file.size ≤ written.size) (hwritten : written.size ≤ maxBufferSize) :
    writeDirectory h (UInt32.ofNat table.size) plan written =
      some (applyAll (plan.directoryEdits h table) written) := by
  obtain ⟨hoptional, htableOffset, hstart, hend⟩ := hsuits.inOrder hd
  obtain ⟨_, _, _, hdir⟩ := h.fieldOffsets
  -- The address and the size are two writes next to each other.
  have hboth : h.relocationDirectoryOffset + (ofWord plan.virtualAddress).size +
      (ofWord (UInt32.ofNat table.size)).size ≤ written.size := by
    rw [size_ofWord, size_ofWord]
    omega
  have hjoined := overwrite_append written hboth
  rw [size_ofWord] at hjoined
  have hdirectories : word (h.optionalHeaderOffset + Headers.directoriesOffset) =
      some (h.optionalHeaderOffset + 112) :=
    word_eq_some_of_le hwritten (show h.optionalHeaderOffset + 112 ≤ written.size by omega)
  have hdirectory : word (h.optionalHeaderOffset + 112 +
      Headers.relocationDirectoryIndex * Headers.directorySize) =
        some h.relocationDirectoryOffset :=
    word_eq_some_of_le hwritten (show h.relocationDirectoryOffset ≤ written.size by omega)
  refine bind_eq_of_eq_some hdirectories ?_
  refine bind_eq_of_eq_some hdirectory ?_
  refine bind_eq_of_eq_some (write_eq_some hwritten (by rw [size_ofWord]; omega)) ?_
  refine bind_eq_of_eq_some (word_eq_some_of_le hwritten (by omega)) ?_
  refine bind_eq_of_eq_some (write_eq_some (by rw [size_overwrite]; exact hwritten)
    (by rw [size_overwrite, size_ofWord]; omega)) ?_
  refine bind_eq_of_eq_some (word_eq_some_of_le hwritten (by omega)) ?_
  rw [hjoined]
  exact write_eq_some (by rw [size_overwrite]; exact hwritten)
    (by rw [size_overwrite, size_ofWord]; omega)

section Image

variable {h : Headers} {file table : Bytes} (hfile : file.size ≤ maxBufferSize)
  (hd : h.Describes file)

include hfile hd

/-- A section that is written over: its contents are inside the image, and so is its header. -/
private theorem writeSection_replace {index : Nat} {target : Pe.Section} (tableSize : UInt32)
    (hsuits : (Plan.replace index target).Suits h file.size table.size) (discardable : Bool) :
    writeSection h table tableSize discardable file (.replace index target) =
      some ((file.overwrite target.rawOffset.toNat
        (table ++ zeros (target.rawSize.toNat - table.size))).overwrite
          (h.sectionHeaderOffset index + 8) (ofWord tableSize)) := by
  obtain ⟨_, _, _, hend⟩ := hsuits.inOrder hd
  obtain ⟨hfound, hfits, hinside⟩ := hsuits
  obtain ⟨hindex, _⟩ := List.getElem?_eq_some_iff.mp
    (Headers.relocationSection?_eq_some_iff.mp hfound).1
  have hheader := Headers.sectionHeaderOffset_add_le hindex
  rw [headerSize] at hheader
  -- Behind the table there are zero bytes up to the end of the section.
  have hrest : target.rawOffset.toNat + target.rawSize.toNat -
      (target.rawOffset.toNat + table.size) = target.rawSize.toNat - table.size :=
    Nat.add_sub_add_left _ _ _
  refine bind_eq_of_eq_some (word_eq_some_of_le hfile hinside) ?_
  refine bind_eq_of_eq_some (write_eq_some hfile (by omega)) ?_
  refine bind_eq_of_eq_some (word_eq_some_of_le hfile (by omega)) ?_
  refine bind_eq_of_eq_some (sub_eq_some (by omega)) ?_
  rw [hrest]
  refine bind_eq_of_eq_some (write_eq_some (by rw [size_overwrite]; exact hfile)
    (by rw [size_overwrite, size_zeros]; omega)) ?_
  rw [overwrite_append _ (by rw [size_zeros]; omega)]
  refine bind_eq_of_eq_some (sectionHeaderOffset_eq_some_of_le hfile (by omega)) ?_
  refine bind_eq_of_eq_some (word_eq_some_of_le hfile (by omega)) ?_
  exact write_eq_some (by rw [size_overwrite]; exact hfile)
    (by rw [size_overwrite, size_ofWord]; omega)

/-- The fields of a new section: there is room for its header, its number fits 16 bits and the size
of the image 32 bits, so no other value is ever taken for it. -/
private theorem writeNewFields_eq_some {place : NewSection} (htable : table.size < UInt32.size)
    (hsuits : (Plan.append place).Suits h file.size table.size) (discardable : Bool) :
    writeNewFields h place (UInt32.ofNat table.size) discardable file =
      some (((file.overwrite place.headerOffset
          (place.header (UInt32.ofNat table.size) discardable)).overwrite
        h.sectionCountOffset (ofWord (UInt16.ofNat (h.sectionCount + 1)))).overwrite
        h.sizeOfImageOffset
          (ofWord (UInt32.ofNat (place.virtualAddress.toNat + mappedSize table.size)))) := by
  obtain ⟨hoptional, htableOffset, hstart, hend⟩ := hsuits.inOrder hd
  obtain ⟨_, hroom, _, _⟩ := hsuits.newSection_bounds
  obtain ⟨hcount, _, _, _, himage, _, haddress, _, _⟩ := Headers.newSection_eq_ok_iff.mp hsuits.2
  rw [← haddress] at himage
  -- The plan was made only because one section more can be counted.
  have hmore : h.sectionCount + 1 < UInt16.size := Nat.succ_lt_succ hcount
  have hsections : (UInt16.ofNat h.sectionCount).toNat = h.sectionCount :=
    UInt16.toNat_ofNat_of_lt' (Nat.lt_of_succ_lt hmore)
  have hslot : (file.extract place.headerOffset (place.headerOffset + headerSize)).size =
      headerSize := by
    rw [ByteArray.size_extract]
    omega
  refine bind_eq_of_eq_some (word_eq_some_of_le hfile hroom) ?_
  refine bind_eq_of_eq_some (cut_eq_some (Nat.le_add_right _ _) hroom) ?_
  refine bind_eq_of_eq_some (newHeader_eq_some place _ discardable hslot) ?_
  refine bind_eq_of_eq_some (write_eq_some hfile (by rw [Plan.size_header]; exact hroom)) ?_
  refine bind_eq_of_eq_some (narrow16_eq_some (Nat.lt_of_succ_lt hmore)) ?_
  rw [hsections]
  refine bind_eq_of_eq_some (narrow16_eq_some hmore) ?_
  refine bind_eq_of_eq_some (word_eq_some_of_le hfile (by omega)) ?_
  refine bind_eq_of_eq_some (write_eq_some (by rw [size_overwrite]; exact hfile)
    (by rw [size_overwrite, size_ofWord]; omega)) ?_
  rw [UInt32.toNat_ofNat_of_lt' htable]
  refine bind_eq_of_eq_some (imageSize_eq_some htable) ?_
  refine bind_eq_of_eq_some (narrow32_eq_some himage) ?_
  refine bind_eq_of_eq_some (word_eq_some_of_le hfile (by omega)) ?_
  exact write_eq_some (by rw [size_overwrite, size_overwrite]; exact hfile)
    (by rw [size_overwrite, size_overwrite, size_ofWord]; omega)

/-- **The table and the fields of its section are written inside the image**: each write was allowed
for when the plan was made. -/
theorem writeSection_eq_some {plan : Plan} (htable : table.size < UInt32.size)
    (hsuits : plan.Suits h file.size table.size) (discardable : Bool) :
    writeSection h table (UInt32.ofNat table.size) discardable file plan =
      some (applyAll (plan.sectionEdits h table discardable) file) := by
  cases plan with
  | replace index target => exact writeSection_replace hfile hd _ hsuits discardable
  | append place =>
    refine bind_eq_of_eq_some (writeNewFields_eq_some hfile hd htable hsuits discardable) ?_
    exact writeNewContents_eq_some hsuits (by rw [size_overwrite, size_overwrite, size_overwrite])

/-- An image that a plan was carried out on is not too large. -/
private theorem size_apply_le {plan : Plan} (hsuits : plan.Suits h file.size table.size)
    (discardable : Bool) : (plan.apply h table discardable file).size ≤ maxBufferSize := by
  cases plan with
  | replace index target =>
    rw [Plan.size_apply_replace]
    exact hfile
  | append place =>
    rw [(Plan.endsWith_append discardable hd hsuits).size]
    exact rawEnd_le_of_suits hsuits

/-- **Carrying out a plan does not stop the machine.** -/
theorem applyPlan_eq_some {plan : Plan} (htable : table.size < UInt32.size)
    (hsuits : plan.Suits h file.size table.size) (discardable : Bool) :
    applyPlan plan h table discardable file = some (plan.apply h table discardable file) := by
  have hsize := size_apply_le hfile hd hsuits discardable
  rw [Plan.apply, Plan.edits, applyAll_append] at hsize ⊢
  refine bind_eq_of_eq_some (narrow32_eq_some htable) ?_
  refine bind_eq_of_eq_some (writeSection_eq_some hfile hd htable hsuits discardable) ?_
  exact writeDirectory_eq_some hd hsuits (le_size_applyAll _ _)
    (Nat.le_trans (le_size_applyAll _ _) hsize)

end Image

end Rebase.Checked
