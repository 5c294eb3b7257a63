import Rebase.Pe.Patch
import Rebase.Proofs.Pe.Layout
import Rebase.Proofs.Pe.Selection

/-!
# What a plan changes

A plan is made for an image of a known size, and carried out by edits. This module says which bytes
of the image they can change, and what they put behind its end.

- **Plans**: `Plan.Suits`, what was found out when a plan was made
- **Places**: `Plan.places`, the ranges of the image that a plan writes to
- **Frame**: `Plan.apply_frame`, nothing else changes, and a new section is there as planned
-/

namespace Rebase.Pe

open Bytes Edit Fallible

/-- A range of bytes. -/
structure Span where
  first : Nat
  length : Nat

/-- A byte is in a range. -/
def Span.Covers (span : Span) (i : Nat) : Prop := span.first ≤ i ∧ i < span.first + span.length

/-- How an image ends after a new section for a table was added to it: with zero bytes up to the
contents of the section, the table, and zero bytes up to the end of the section. -/
structure NewSection.EndsWith (place : NewSection) (fileSize : Nat) (table after : Bytes) :
    Prop where
  size : after.size = place.rawOffset.toNat + place.rawSize.toNat
  gap : after.slice? fileSize (place.rawOffset.toNat - fileSize) =
    some (zeros (place.rawOffset.toNat - fileSize))
  contents : after.slice? place.rawOffset.toNat table.size = some table
  rest : after.slice? (place.rawOffset.toNat + table.size) (place.rawSize.toNat - table.size) =
    some (zeros (place.rawSize.toNat - table.size))

/-! ## §1 Plans -/

/-- **A patch is made** exactly when the image has headers and there is a plan for the table. -/
theorem Patch.make_eq_ok_iff {file : Bytes} {t : BaseRelocation.Table} {patch : Patch} :
    make file t = .ok patch ↔ Headers.read file = .ok patch.headers ∧
      Plan.make patch.headers file.size t.size = .ok patch.plan ∧ patch.table = t := by
  unfold make
  constructor
  · intro h
    obtain ⟨headers, hheaders, h⟩ := bind_eq_ok_iff.mp h
    obtain ⟨plan, hplan, h⟩ := bind_eq_ok_iff.mp h
    cases h
    exact ⟨mapError_eq_ok_iff.mp hheaders, hplan, rfl⟩
  · rintro ⟨hheaders, hplan, rfl⟩
    exact bind_eq_ok_iff.mpr
      ⟨patch.headers, mapError_eq_ok_iff.mpr hheaders, bind_eq_ok_iff.mpr ⟨patch.plan, hplan, rfl⟩⟩

namespace Plan

/-- What a plan relies on, for an image with given headers and sizes of the image and the table. -/
def Suits (h : Headers) (fileSize tableSize : Nat) : Plan → Prop
  | .replace index s =>
    h.relocationSection? = some (s, index) ∧ tableSize ≤ s.rawSize.toNat ∧
      s.rawOffset.toNat + s.rawSize.toNat ≤ fileSize
  | .append place =>
    h.usableSection? tableSize = none ∧ h.newSection fileSize tableSize = .ok place

/-- **A plan is made** exactly when the table is below 4 GiB and the image is one it relies on. -/
theorem make_eq_ok_iff {h : Headers} {fileSize tableSize : Nat} {plan : Plan} :
    make h fileSize tableSize = .ok plan ↔
      tableSize < UInt32.size ∧ plan.Suits h fileSize tableSize := by
  cases plan with
  | replace index s =>
    rw [make_eq_replace_iff, Headers.usableSection?_eq_some_iff, Suits, and_assoc]
  | append place =>
    unfold make
    by_cases hsize : tableSize < UInt32.size
    · rw [if_pos hsize]
      cases husable : h.usableSection? tableSize with
      | none =>
        -- Without a section to write over, a plan is made as soon as a new section fits.
        cases hnew : h.newSection fileSize tableSize <;>
          simp [Suits, Except.map, hsize, husable, hnew]
      | some found =>
        simp only [Suits, husable]
        split <;> simp
    · simp [hsize]

theorem lt_of_make {h : Headers} {fileSize tableSize : Nat} {plan : Plan}
    (hplan : make h fileSize tableSize = .ok plan) : tableSize < UInt32.size :=
  (make_eq_ok_iff.mp hplan).1

theorem suits_of_make {h : Headers} {fileSize tableSize : Nat} {plan : Plan}
    (hplan : make h fileSize tableSize = .ok plan) : plan.Suits h fileSize tableSize :=
  (make_eq_ok_iff.mp hplan).2

/-- The section table is inside an image that has a plan, also when it is empty: then the plan is to
add a section header behind it, for which there is room. -/
theorem Suits.sectionTableEnd_le {plan : Plan} {h : Headers} {file : Bytes} {tableSize : Nat}
    (hsuits : plan.Suits h file.size tableSize) (hd : h.Describes file) :
    h.sectionTableEnd ≤ file.size := by
  cases plan with
  | replace index s =>
    -- The section that is written over is in the table, so the table is not empty.
    obtain ⟨hfound, _, _⟩ := hsuits
    have hs := (Headers.relocationSection?_eq_some_iff.mp hfound).1
    exact hd.sectionTableEnd_le (List.ne_nil_of_mem (List.mem_of_getElem? hs))
  | append place =>
    obtain ⟨_, _, hroom, _⟩ := Headers.newSection_eq_ok_iff.mp hsuits.2
    omega

/-- The order of the fields in an image that has a plan, from the file header to the end of the
section table and of the image. -/
theorem Suits.inOrder {plan : Plan} {h : Headers} {file : Bytes} {tableSize : Nat}
    (hsuits : plan.Suits h file.size tableSize) (hd : h.Describes file) :
    h.optionalHeaderOffset = h.fileHeaderOffset + 20 ∧
      h.optionalHeaderOffset + 160 ≤ h.sectionTableOffset ∧
      h.sectionTableOffset ≤ h.sectionTableEnd ∧ h.sectionTableEnd ≤ file.size :=
  ⟨hd.optionalHeader, hd.le_sectionTable, Nat.le_add_right _ _, hsuits.sectionTableEnd_le hd⟩

/-! ## §2 Places -/

/-- The ranges of the image that a plan writes to. -/
def places (h : Headers) : Plan → List Span
  | .replace index s =>
    [⟨s.rawOffset.toNat, s.rawSize.toNat⟩, ⟨h.sectionHeaderOffset index + 8, 4⟩,
      ⟨h.optionalHeaderOffset + 152, 8⟩, ⟨h.fileHeaderOffset + 18, 2⟩]
  | .append place =>
    [⟨place.headerOffset, Section.headerSize⟩, ⟨h.fileHeaderOffset + 2, 2⟩,
      ⟨h.optionalHeaderOffset + 56, 4⟩, ⟨h.optionalHeaderOffset + 152, 8⟩,
        ⟨h.fileHeaderOffset + 18, 2⟩]

/-- A byte is in none of the ranges that a plan writes to. -/
def Spares (plan : Plan) (h : Headers) (i : Nat) : Prop := ∀ span ∈ plan.places h, ¬ span.Covers i

theorem size_header (place : NewSection) (tableSize : UInt32) (discardable : Bool) :
    (place.header tableSize discardable).size = Section.headerSize := by
  have hname : relocationSectionName.toUTF8.size = 6 := by decide
  simp only [NewSection.header, ByteArray.size_append, size_zeros, size_ofWord, hname,
    Section.headerSize]

/-- An edit of a plan writes to the places of the plan. -/
theorem not_touches_of_spares {plan : Plan} {h : Headers} {fileSize i : Nat} {table : Bytes}
    (hsuits : plan.Suits h fileSize table.size) (hspares : plan.Spares h i) (discardable : Bool) :
    ∀ edit ∈ plan.edits h table discardable, ¬ edit.Touches i := by
  cases plan with
  | replace index s =>
    obtain ⟨_, hfits, _⟩ := hsuits
    simp only [Spares, places, List.forall_mem_cons, Span.Covers] at hspares
    -- The table and the zero bytes behind it are as long as the section.
    simp only [edits, sectionEdits, directoryEdits, List.cons_append, List.nil_append,
      List.forall_mem_cons, Touches, ByteArray.size_append, size_zeros, size_ofWord,
      size_ofWord, Nat.add_sub_cancel' hfits]
    exact ⟨hspares.1, hspares.2.1, hspares.2.2.1, hspares.2.2.2.1, by simp⟩
  | append place =>
    simp only [Spares, places, List.forall_mem_cons, Span.Covers] at hspares
    simp only [edits, sectionEdits, directoryEdits, List.cons_append, List.nil_append,
      List.forall_mem_cons, Touches, ByteArray.size_append, size_ofWord,
      size_header, not_false_eq_true, true_and]
    exact ⟨hspares.1, hspares.2.1, hspares.2.2.1, hspares.2.2.2.1, hspares.2.2.2.2.1, by simp⟩

/-- **A slice that a plan does not write to** is what it was. -/
theorem slice?_apply {plan : Plan} {h : Headers} {table file : Bytes} {offset length : Nat}
    (hsuits : plan.Suits h file.size table.size) (discardable : Bool)
    (hsize : offset + length ≤ file.size)
    (hspares : ∀ i, offset ≤ i → i < offset + length → plan.Spares h i) :
    (plan.apply h table discardable file).slice? offset length = file.slice? offset length := by
  apply slice?_applyAll hsize
  intro i hlo hhi
  exact not_touches_of_spares hsuits (hspares i hlo hhi) discardable

/-! ## §3 What is written -/

section Written

variable {h : Headers} {file table : Bytes} {plan : Plan} (discardable : Bool)

/-- The edits that tell the loader of the table write to two fields. -/
theorem touches_directoryEdits {edit : Edit} {i : Nat} (hmem : edit ∈ plan.directoryEdits h table)
    (htouch : edit.Touches i) :
    (Span.mk h.relocationDirectoryOffset 8).Covers i ∨
      (Span.mk h.characteristicsOffset 2).Covers i := by
  simp only [directoryEdits, List.mem_cons, List.not_mem_nil, or_false] at hmem
  rcases hmem with rfl | rfl
  · simp only [Touches, ByteArray.size_append, size_ofWord] at htouch
    exact .inl htouch
  · simp only [Touches, size_ofWord] at htouch
    exact .inr htouch

/-- The edits that tell the loader of the table stay in front of the section table. -/
private theorem lt_of_touches_directoryEdits (hd : h.Describes file) {edit : Edit} {i : Nat}
    (hmem : edit ∈ plan.directoryEdits h table) (htouch : edit.Touches i) :
    i < h.sectionTableOffset := by
  have hoptional := hd.optionalHeader
  have htable := hd.le_sectionTable
  obtain ⟨_, hflags, _, hdir⟩ := h.fieldOffsets
  -- Both fields are in headers that the section table follows.
  rcases touches_directoryEdits hmem htouch with hcover | hcover
  · simp only [Span.Covers] at hcover
    omega
  · simp only [Span.Covers] at hcover
    omega

/-- The base relocation directory gets the address and the size of the table. -/
theorem slice?_relocationDirectory (hd : h.Describes file)
    (hsuits : plan.Suits h file.size table.size) :
    (plan.apply h table discardable file).slice? h.relocationDirectoryOffset 8 =
      some (ofWord plan.virtualAddress ++ ofWord (UInt32.ofNat table.size)) := by
  obtain ⟨hoptional, htable, hstart, hend⟩ := hsuits.inOrder hd
  obtain ⟨_, _, _, hdir⟩ := h.fieldOffsets
  -- Only the characteristics are written later, and they are in another header.
  apply slice?_applyAll_of_overwrite (plan.sectionEdits h table discardable) rfl
  · simp only [ByteArray.size_append, size_ofWord]
  · omega
  · intro i hlo hhi edit hmem
    obtain rfl := List.mem_singleton.mp hmem
    simp only [Touches, size_ofWord, Headers.characteristicsOffset]
    omega

/-- The characteristics are written last, without the flag of an image without relocations. -/
theorem word16?_characteristics (hd : h.Describes file)
    (hsuits : plan.Suits h file.size table.size) :
    (plan.apply h table discardable file).word? UInt16 h.characteristicsOffset =
      some (withRelocations h.characteristics) := by
  obtain ⟨hoptional, htable, hstart, hend⟩ := hsuits.inOrder hd
  obtain ⟨_, hflags, _, _⟩ := h.fieldOffsets
  -- The edit of the characteristics is brought to the end of the list.
  have hlast : plan.edits h table discardable =
      (plan.sectionEdits h table discardable ++ [.overwrite h.relocationDirectoryOffset
        (ofWord plan.virtualAddress ++ ofWord (UInt32.ofNat table.size))]) ++
      [.overwrite h.characteristicsOffset (ofWord (withRelocations h.characteristics))] := by
    rw [edits, directoryEdits, List.append_assoc]
    rfl
  apply word?_of_slice?
  apply slice?_applyAll_of_overwrite _ hlast (size_ofWord _)
  · omega
  · intro i _ _ edit hmem
    cases hmem

/-- A section that is replaced holds the table, with zero bytes behind it, if it is not part of the
headers: all later edits write to those. -/
theorem slice?_replaced {index : Nat} {s : Section} (hd : h.Describes file)
    (hsuits : (replace index s).Suits h file.size table.size)
    (hapart : s.rawOffset.toNat + s.rawSize.toNat ≤ h.fileHeaderOffset ∨
      h.sectionTableEnd ≤ s.rawOffset.toNat) :
    ((replace index s).apply h table discardable file).slice? s.rawOffset.toNat s.rawSize.toNat =
      some (table ++ zeros (s.rawSize.toNat - table.size)) := by
  obtain ⟨hoptional, htable, hstart, hend⟩ := hsuits.inOrder hd
  obtain ⟨_, hflags, _, hdir⟩ := h.fieldOffsets
  obtain ⟨hfound, hfits, hinside⟩ := hsuits
  obtain ⟨hindex, _⟩ := List.getElem?_eq_some_iff.mp
    (Headers.relocationSection?_eq_some_iff.mp hfound).1
  have hheader := Headers.sectionHeaderOffset_add_le hindex
  have hfirst := h.le_sectionHeaderOffset index
  apply slice?_applyAll_of_overwrite [] rfl
  · rw [ByteArray.size_append, size_zeros, Nat.add_sub_cancel' hfits]
  · exact hinside
  · intro i hlo hhi edit hmem htouch
    rcases List.mem_cons.mp hmem with rfl | hmem
    · simp only [Touches, size_ofWord, Section.headerSize] at htouch hheader
      omega
    · have := touches_directoryEdits hmem htouch
      simp only [Span.Covers] at this
      omega

/-- A section that is replaced states the size of the table. -/
theorem word32?_replaced {index : Nat} {s : Section} (hd : h.Describes file)
    (hsuits : (replace index s).Suits h file.size table.size) :
    ((replace index s).apply h table discardable file).word? UInt32
      (h.sectionHeaderOffset index + 8) =
      some (UInt32.ofNat table.size) := by
  obtain ⟨hoptional, htable, hstart, hend⟩ := hsuits.inOrder hd
  obtain ⟨hindex, _⟩ := List.getElem?_eq_some_iff.mp
    (Headers.relocationSection?_eq_some_iff.mp hsuits.1).1
  have hheader := Headers.sectionHeaderOffset_add_le hindex
  have hle := h.le_sectionHeaderOffset index
  rw [Section.headerSize] at hheader
  apply word?_of_slice?
  apply slice?_applyAll_of_overwrite [_] rfl (size_ofWord _)
  · omega
  · intro i hlo hhi edit hmem htouch
    have := lt_of_touches_directoryEdits hd hmem htouch
    omega

variable {place : NewSection}

/-- What is found out of the size of an image and of a table when a new section is planned. -/
theorem Suits.newSection_bounds {tableSize : Nat}
    (hsuits : (append place).Suits h file.size tableSize) :
    place.headerOffset = h.sectionTableEnd ∧
      place.headerOffset + Section.headerSize ≤ file.size ∧
      file.size ≤ place.rawOffset.toNat ∧ tableSize ≤ place.rawSize.toNat := by
  obtain ⟨_, _, hinside, _, _, hheader, _, hoffset, hsize⟩ :=
    Headers.newSection_eq_ok_iff.mp hsuits.2
  have hfile := le_alignUp file.size (show 0 < fileAlignment by decide)
  have htable := le_alignUp tableSize (show 0 < fileAlignment by decide)
  omega

/-- The header of a new section is behind the others. -/
theorem slice?_newHeader (hd : h.Describes file)
    (hsuits : (append place).Suits h file.size table.size) :
    ((append place).apply h table discardable file).slice? place.headerOffset Section.headerSize =
      some (place.header (UInt32.ofNat table.size) discardable) := by
  obtain ⟨hoptional, htable, hstart, hend⟩ := hsuits.inOrder hd
  obtain ⟨hheader, hinside, _, _⟩ := hsuits.newSection_bounds
  apply slice?_applyAll_of_overwrite [] rfl (size_header _ _ _) hinside
  intro i hlo hhi edit hmem htouch
  obtain ⟨hcount, _, himage, _⟩ := h.fieldOffsets
  rcases List.mem_cons.mp hmem with rfl | hmem
  · simp only [Touches, size_ofWord] at htouch
    omega
  rcases List.mem_cons.mp hmem with rfl | hmem
  · simp only [Touches, size_ofWord] at htouch
    omega
  -- What follows the header fields only adds bytes, up to the directory.
  simp only [List.append_eq, List.cons_append, List.nil_append, List.mem_cons] at hmem
  rcases hmem with rfl | rfl | rfl | hmem
  · exact htouch
  · exact htouch
  · exact htouch
  · have := lt_of_touches_directoryEdits hd hmem htouch
    omega

/-- One section more is counted. -/
theorem word16?_sectionCount (hd : h.Describes file)
    (hsuits : (append place).Suits h file.size table.size) :
    ((append place).apply h table discardable file).word? UInt16 h.sectionCountOffset =
      some (UInt16.ofNat (h.sectionCount + 1)) := by
  obtain ⟨hoptional, htable, hstart, hend⟩ := hsuits.inOrder hd
  obtain ⟨hcount, hflags, himage, hdir⟩ := h.fieldOffsets
  apply word?_of_slice?
  apply slice?_applyAll_of_overwrite [_] rfl (size_ofWord _)
  · omega
  intro i hlo hhi edit hmem htouch
  simp only [List.append_eq, List.cons_append, List.nil_append, List.mem_cons] at hmem
  rcases hmem with rfl | rfl | rfl | rfl | hmem
  · simp only [Touches, size_ofWord] at htouch
    omega
  · exact htouch
  · exact htouch
  · exact htouch
  · have := touches_directoryEdits hmem htouch
    simp only [Span.Covers] at this
    omega

/-- The image ends where the memory of the new section does. -/
theorem word32?_sizeOfImage (hd : h.Describes file)
    (hsuits : (append place).Suits h file.size table.size) :
    ((append place).apply h table discardable file).word? UInt32 h.sizeOfImageOffset =
      some (UInt32.ofNat (place.virtualAddress.toNat + mappedSize table.size)) := by
  obtain ⟨hoptional, htable, hstart, hend⟩ := hsuits.inOrder hd
  obtain ⟨_, hflags, himage, hdir⟩ := h.fieldOffsets
  apply word?_of_slice?
  apply slice?_applyAll_of_overwrite [_, _] rfl (size_ofWord _)
  · omega
  intro i hlo hhi edit hmem htouch
  simp only [List.append_eq, List.cons_append, List.nil_append, List.mem_cons] at hmem
  rcases hmem with rfl | rfl | rfl | hmem
  · exact htouch
  · exact htouch
  · exact htouch
  · have := touches_directoryEdits hmem htouch
    simp only [Span.Covers] at this
    omega

/-- Behind the end of the image come zero bytes, the table, and zero bytes again. What is written to
the image itself stays in front of them. -/
private theorem apply_append (hd : h.Describes file)
    (hsuits : (append place).Suits h file.size table.size) :
    ∃ front : Bytes, front.size = file.size ∧
      (append place).apply h table discardable file =
        front ++ (zeros (place.rawOffset.toNat - file.size) ++ table ++
          zeros (place.rawSize.toNat - table.size)) := by
  obtain ⟨hoptional, htable, hstart, hend⟩ := hsuits.inOrder hd
  obtain ⟨_, _, hoffset, hsize⟩ := hsuits.newSection_bounds
  obtain ⟨_, hflags, _, hdir⟩ := h.fieldOffsets
  simp only [apply, edits, sectionEdits, directoryEdits, applyAll_append, applyAll_cons,
    applyAll_nil, Edit.apply]
  -- What was written to the headers does not matter here, only that it left their size as it was.
  generalize hfields :
    ((file.overwrite place.headerOffset _).overwrite h.sectionCountOffset _).overwrite
    h.sizeOfImageOffset _ = fields
  have hsame : fields.size = file.size := by simp [← hfields]
  rw [padTo_append_padTo (by omega), hsame, Nat.add_sub_add_left, overwrite_append_left,
    overwrite_append_left]
  · exact ⟨_, by simp [hsame], rfl⟩
  · rw [size_overwrite, size_ofWord]
    omega
  · simp only [ByteArray.size_append, size_ofWord]
    omega

/-- A section that is replaced leaves the size of the image as it was. -/
theorem size_apply_replace {index : Nat} {s : Section} :
    ((replace index s).apply h table discardable file).size = file.size := by
  simp only [apply, edits, sectionEdits, directoryEdits, size_applyAll, List.cons_append,
    List.nil_append, List.foldl_cons, List.foldl_nil, sizeAfter]

/-- The image ends as it has to with a new section that holds the table. -/
theorem endsWith_append (hd : h.Describes file)
    (hsuits : (append place).Suits h file.size table.size) :
    place.EndsWith file.size table ((append place).apply h table discardable file) := by
  obtain ⟨_, _, hoffset, hsize⟩ := hsuits.newSection_bounds
  obtain ⟨front, hfront, happly⟩ := apply_append discardable hd hsuits
  -- Counted from the end of the old image, the parts follow each other.
  have hgap : place.rawOffset.toNat - file.size - (place.rawOffset.toNat - file.size) = 0 :=
    Nat.sub_self _
  have hrest : place.rawOffset.toNat + table.size - file.size -
      (place.rawOffset.toNat - file.size + table.size) = 0 := by omega
  rw [happly]
  refine ⟨?_, ?_, ?_, ?_⟩
  · simp only [ByteArray.size_append, size_zeros]
    omega
  · rw [slice?_append_right (by omega), hfront, Nat.sub_self, ByteArray.append_assoc,
      slice?_append_left (by rw [size_zeros]; omega), slice?_zeros]
  · rw [slice?_append_right (by omega), hfront, ByteArray.append_assoc,
      slice?_append_right (Nat.le_of_eq (size_zeros _)), size_zeros, hgap,
        slice?_append_left (by omega),
      slice?_self]
  · rw [slice?_append_right (by omega), hfront,
      slice?_append_right (by rw [ByteArray.size_append, size_zeros]; omega), ByteArray.size_append,
      size_zeros, hrest, slice?_zeros]

end Written

end Plan

/-! ## §4 The header of a new section -/

namespace NewSection

/-- The bytes of the name of a relocation section, filled up with zero bytes. -/
def nameField : Bytes := relocationSectionName.toUTF8 ++ zeros 2

/-- A file has the header of a new section where the plan puts it. The fields that the header does
not use are zero. -/
structure HeaderIn (place : NewSection) (tableSize : Nat) (discardable : Bool) (file : Bytes) :
    Prop where
  name : file.slice? place.headerOffset 8 = some nameField
  virtualSize : (file.word? UInt32 (place.headerOffset + 8)).map UInt32.toNat = some tableSize
  virtualAddress : file.word? UInt32 (place.headerOffset + 12) = some place.virtualAddress
  rawSize : file.word? UInt32 (place.headerOffset + 16) = some place.rawSize
  rawOffset : file.word? UInt32 (place.headerOffset + 20) = some place.rawOffset
  unused : file.slice? (place.headerOffset + 24) 12 = some (zeros 12)
  characteristics : file.word? UInt32 (place.headerOffset + 36) =
    some (if discardable then 0x42000040 else 0x40000040)

private theorem size_nameField : nameField.size = 8 := by decide

private theorem slice?_nameField : nameField.slice? 0 8 = some nameField := by
  rw [← size_nameField, slice?_self]

/-- The fields of the header, each where it belongs. -/
private theorem slice?_header (place : NewSection) (tableSize : UInt32) (discardable : Bool) :
    (place.header tableSize discardable).slice? 0 8 = some nameField ∧
      (place.header tableSize discardable).slice? 8 4 = some (ofWord tableSize) ∧
      (place.header tableSize discardable).slice? 12 4 = some (ofWord place.virtualAddress) ∧
      (place.header tableSize discardable).slice? 16 4 = some (ofWord place.rawSize) ∧
      (place.header tableSize discardable).slice? 20 4 = some (ofWord place.rawOffset) ∧
      (place.header tableSize discardable).slice? 24 12 = some (zeros 12) ∧
      (place.header tableSize discardable).slice? 36 4 =
        some (ofWord (characteristics discardable)) := by
  rw [header, ← nameField]
  -- Each field is found by stepping over the parts in front of it and leaving those behind it.
  refine ⟨?_, ?_, ?_, ?_, ?_, ?_, ?_⟩ <;>
    simp (disch :=
      (simp only [ByteArray.size_append, size_zeros, size_ofWord, size_nameField]; omega))
      only [slice?_append_left, slice?_append_right, ByteArray.size_append, size_zeros, size_ofWord,
        size_nameField, Nat.reduceAdd, Nat.reduceSub, slice?_nameField, slice?_ofWord, slice?_zeros]

/-- A file that has the header of a new section has all its fields. -/
theorem headerIn_of_slice? {place : NewSection} {tableSize : Nat} {discardable : Bool}
    {file : Bytes}
    (hlt : tableSize < UInt32.size) (h : file.slice? place.headerOffset Section.headerSize =
      some (place.header (UInt32.ofNat tableSize) discardable)) :
    place.HeaderIn tableSize discardable file := by
  obtain ⟨hname, hsize, haddress, hraw, hoffset, hunused, hflags⟩ :=
    slice?_header place (UInt32.ofNat tableSize) discardable
  -- A field of the file is the field of the header that was cut out of it.
  have hfield : ∀ start width, start + width ≤ Section.headerSize →
      file.slice? (place.headerOffset + start) width =
        (place.header (UInt32.ofNat tableSize) discardable).slice? start width :=
    fun start width hin => slice?_of_slice? h hin
  exact {
    name := (hfield 0 8 (by decide)).trans hname
    virtualSize := by
      rw [word?_of_slice? ((hfield 8 4 (by decide)).trans hsize), Option.map_some,
        UInt32.toNat_ofNat', Nat.mod_eq_of_lt hlt]
    virtualAddress := word?_of_slice? ((hfield 12 4 (by decide)).trans haddress)
    rawSize := word?_of_slice? ((hfield 16 4 (by decide)).trans hraw)
    rawOffset := word?_of_slice? ((hfield 20 4 (by decide)).trans hoffset)
    unused := (hfield 24 12 (by decide)).trans hunused
    characteristics := by
      rw [word?_of_slice? ((hfield 36 4 (by decide)).trans hflags)]
      cases discardable <;> rfl }

end NewSection

/-! ## §5 The frame -/

namespace Plan

/-- **The frame of a plan**: outside its places every byte of the image is what it was. A section
that is replaced leaves the size of the image as it was. A new section is at the end of the image,
together with zero bytes, and its header is behind the others. -/
theorem apply_frame {file : Bytes} {h : Headers} {table : BaseRelocation.Table} {plan : Plan}
    (hread : Headers.read file = .ok h) (hplan : make h file.size table.size = .ok plan)
    (discardable : Bool) :
    (∀ i, i < file.size → plan.Spares h i →
      (plan.apply h table.bytes discardable file).data[i]? = file.data[i]?) ∧
    (∀ index s, plan = .replace index s →
      (plan.apply h table.bytes discardable file).size = file.size) ∧
    (∀ place, plan = .append place →
      place.EndsWith file.size table.bytes (plan.apply h table.bytes discardable file) ∧
        place.HeaderIn table.size discardable (plan.apply h table.bytes discardable file)) := by
  have hd := Headers.read_eq_ok_iff.mp hread
  have hlt := lt_of_make hplan
  have hsuits := suits_of_make hplan
  rw [← table.size_eq] at hlt hsuits ⊢
  refine ⟨fun i hi hspares => ?_, ?_, ?_⟩
  · exact getElem?_applyAll hi (not_touches_of_spares hsuits hspares discardable)
  · rintro index s rfl
    exact size_apply_replace discardable
  · rintro place rfl
    have hheader := slice?_newHeader discardable hd hsuits
    exact ⟨endsWith_append discardable hd hsuits, NewSection.headerIn_of_slice? hlt hheader⟩

end Plan

/-- An image of 288 bytes without sections, with room for the header of one. -/
def bareImage : Bytes :=
  ⟨⟨List.replicate 0x3C 0 ++ [0x40, 0, 0, 0, 0x50, 0x45, 0, 0, 0x64, 0x86, 0, 0] ++
    List.replicate 12 0 ++ [160, 0, 0x23, 0, 0x0B, 2] ++ List.replicate 54 0 ++
    [0, 0x10, 0, 0, 0, 2, 0, 0] ++ List.replicate 44 0 ++ [6, 0, 0, 0] ++ List.replicate 88 0⟩⟩

/-- The headers of the image without sections. -/
def bareHeaders : Headers where
  fileHeaderOffset := 68
  optionalHeaderOffset := 88
  sectionTableOffset := 248
  characteristics := 0x23
  sizeOfImage := 0x1000
  sizeOfHeaders := 0x200
  sections := []

/-- An image with one section, a relocation section of 32 bytes at its end. -/
def sectionImage : Bytes :=
  ⟨⟨List.replicate 0x3C 0 ++ [0x40, 0, 0, 0, 0x50, 0x45, 0, 0, 0x64, 0x86, 1, 0] ++
    List.replicate 12 0 ++ [160, 0, 0x23, 0, 0x0B, 2] ++ List.replicate 54 0 ++
    [0, 0x10, 0, 0, 0, 2, 0, 0] ++ List.replicate 44 0 ++ [6, 0, 0, 0] ++ List.replicate 48 0 ++
    [46, 114, 101, 108, 111, 99, 0, 0, 16, 0, 0, 0, 0, 0x10, 0, 0, 32, 0, 0, 0, 0x20, 1, 0, 0] ++
    List.replicate 12 0 ++ [0x40, 0, 0, 0x42] ++ List.replicate 32 0xCC⟩⟩

/-- The section of that image. -/
def relocations : Section := ⟨".reloc", 16, 0x1000, 32, 0x120, 0x42000040⟩

/-- The headers of that image. -/
def sectionHeaders : Headers := { bareHeaders with sections := [relocations] }

theorem read_bareImage : Headers.read bareImage = .ok bareHeaders := by
  decide +kernel

theorem read_sectionImage : Headers.read sectionImage = .ok sectionHeaders := by
  decide +kernel

/-- A table of the addresses 0x1000 and 0x3008, in two blocks. -/
def twoPages : BaseRelocation.Table :=
  ⟨[⟨0x1000, [⟨0, .dir64⟩, .padding]⟩, ⟨0x3000, [⟨8, .dir64⟩, .padding]⟩]⟩

/-- The place of a new section in the image without sections. -/
def barePlace : NewSection where
  headerOffset := 248
  virtualAddress := 0x1000
  rawOffset := 0x200
  rawSize := 0x200

/-- The table gets a new section in the one image and is written over the section of the other. -/
theorem apply_frame_twoImages :
    Headers.read bareImage = .ok bareHeaders ∧
      Plan.make bareHeaders bareImage.size twoPages.size = .ok (.append barePlace) ∧
      (∀ i, i < bareImage.size → (Plan.append barePlace).Spares bareHeaders i →
        ((Plan.append barePlace).apply bareHeaders twoPages.bytes true bareImage).data[i]? =
          bareImage.data[i]?) ∧
      barePlace.EndsWith bareImage.size twoPages.bytes
        ((Plan.append barePlace).apply bareHeaders twoPages.bytes true bareImage) ∧
      barePlace.HeaderIn twoPages.size true
        ((Plan.append barePlace).apply bareHeaders twoPages.bytes true bareImage) ∧
      Headers.read sectionImage = .ok sectionHeaders ∧
      Plan.make sectionHeaders sectionImage.size twoPages.size = .ok (.replace 0 relocations) ∧
      (∀ i, i < sectionImage.size → (Plan.replace 0 relocations).Spares sectionHeaders i →
        ((Plan.replace 0 relocations).apply sectionHeaders twoPages.bytes true
          sectionImage).data[i]? =
          sectionImage.data[i]?) ∧
      ((Plan.replace 0 relocations).apply sectionHeaders twoPages.bytes true sectionImage).size =
        sectionImage.size := by
  have hnew : Plan.make bareHeaders bareImage.size twoPages.size = .ok (.append barePlace) := by
    decide +kernel
  have hover : Plan.make sectionHeaders sectionImage.size twoPages.size =
      .ok (.replace 0 relocations) := by
    decide +kernel
  obtain ⟨hframe, _, hplace⟩ := Plan.apply_frame read_bareImage hnew true
  obtain ⟨hframe', hsize, _⟩ := Plan.apply_frame read_sectionImage hover true
  obtain ⟨hend, hheader⟩ := hplace barePlace rfl
  exact ⟨read_bareImage, hnew, hframe, hend, hheader, read_sectionImage, hover, hframe',
    hsize 0 relocations rfl⟩

end Rebase.Pe
