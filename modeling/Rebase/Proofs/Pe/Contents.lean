import Rebase.Proofs.Pe.Frame

/-!
# The contents of the other sections

A new section needs a header, and the header goes behind the section table, where the header area of
an image is expected to have room. That there is room is found out from the stated size of the
header area; where the contents of the sections are does not matter for it. So the contents are safe
as long as they are not in the place of the header.

- **Contents**: `Plan.apply_append_contents`, the new header takes all that is changed of them
- **The limit**: `append_changes_contents`, an image with contents in the place of the header
-/

namespace Rebase.Pe

open Bytes Edit

/-- The contents of a section as a range of the file. -/
def Section.contents (s : Section) : Span := ⟨s.rawOffset.toNat, s.rawSize.toNat⟩

/-- The place of the header of a new section as a range of the file. -/
def NewSection.headerSlot (place : NewSection) : Span := ⟨place.headerOffset, Section.headerSize⟩

/-- All sections that have contents have them behind the section table. -/
def Headers.ContentsBehindTable (h : Headers) : Prop :=
  ∀ s ∈ h.sections, 0 < s.rawSize.toNat → h.sectionTableEnd ≤ s.rawOffset.toNat

instance (h : Headers) : Decidable h.ContentsBehindTable :=
  inferInstanceAs (Decidable (∀ s ∈ h.sections, _ → _))

instance (span : Span) (i : Nat) : Decidable (span.Covers i) :=
  inferInstanceAs (Decidable (_ ∧ _))

namespace Plan

variable {h : Headers} {file : Bytes} {place : NewSection} {tableSize i : Nat}

/-- Behind the section table a new section only takes the place of its header. -/
private theorem Suits.spares_of_le (hsuits : (append place).Suits h file.size tableSize)
    (hd : h.Describes file) (hbehind : h.sectionTableEnd ≤ i)
    (hslot : ¬ place.headerSlot.Covers i) : (append place).Spares h i := by
  obtain ⟨hoptional, htable, hstart, _⟩ := hsuits.inOrder hd
  obtain ⟨hcount, hflags, himage, hdir⟩ := h.fieldOffsets
  -- The other places are fields of headers in front of the table.
  simp only [Spares, places, List.forall_mem_cons, Span.Covers]
  exact ⟨hslot, by omega, by omega, by omega, by omega, by simp⟩

/-- **The contents of the other sections** are what they were, outside the place of the new header.
This place is behind the section table and in the header area, and the header is all that is written
there. So contents that start behind it, or even behind the header area, are kept as a whole. -/
theorem apply_append_contents {table : BaseRelocation.Table} (hread : Headers.read file = .ok h)
    (hbehind : h.ContentsBehindTable) (hplan : make h file.size table.size = .ok (.append place))
    (discardable : Bool) :
    place.headerSlot = ⟨h.sectionTableEnd, Section.headerSize⟩ ∧
    h.sectionTableEnd + Section.headerSize ≤ h.sizeOfHeaders.toNat ∧
    place.HeaderIn table.size discardable ((append place).apply h table.bytes discardable file) ∧
    (∀ s ∈ h.sections, ∀ i < file.size, s.contents.Covers i → ¬ place.headerSlot.Covers i →
      ((append place).apply h table.bytes discardable file).data[i]? = file.data[i]?) ∧
    ∀ s ∈ h.sections, h.sectionTableEnd + Section.headerSize ≤ s.rawOffset.toNat →
      ∀ i < file.size, s.contents.Covers i →
        ((append place).apply h table.bytes discardable file).data[i]? = file.data[i]? := by
  have hd := Headers.read_eq_ok_iff.mp hread
  have hlt := lt_of_make hplan
  have hsuits := suits_of_make hplan
  rw [← table.size_eq] at hlt hsuits ⊢
  obtain ⟨_, hroom, _, _, _, hheader, _⟩ := Headers.newSection_eq_ok_iff.mp hsuits.2
  -- All that is written in front of the contents is in the headers, but for the slot.
  have hkept : ∀ s ∈ h.sections, ∀ i < file.size, s.contents.Covers i →
      ¬ place.headerSlot.Covers i →
      ((append place).apply h table.bytes discardable file).data[i]? = file.data[i]? := by
    intro s hs i hi hcover hslot
    have hstart : h.sectionTableEnd ≤ s.rawOffset.toNat := by
      refine hbehind s hs ?_
      simp only [Section.contents, Span.Covers] at hcover
      omega
    have hspares := hsuits.spares_of_le hd (Nat.le_trans hstart hcover.1) hslot
    exact getElem?_applyAll hi (not_touches_of_spares hsuits hspares discardable)
  refine ⟨by rw [NewSection.headerSlot, hheader], hroom, ?_, hkept, ?_⟩
  · exact NewSection.headerIn_of_slice? hlt (slice?_newHeader discardable hd hsuits)
  · intro s hs hstart i hi hcover
    refine hkept s hs i hi hcover ?_
    simp only [Section.contents, NewSection.headerSlot, Span.Covers] at hcover ⊢
    omega

end Plan

/-- An image with one section called `.data`, whose contents are 40 bytes at the end of the file.
They start the given number of bytes behind the section table. -/
def dataImage (gap : UInt8) : Bytes :=
  ⟨⟨List.replicate 0x3C 0 ++ [0x40, 0, 0, 0, 0x50, 0x45, 0, 0, 0x64, 0x86, 1, 0] ++
    List.replicate 12 0 ++ [160, 0, 0x23, 0, 0x0B, 2] ++ List.replicate 54 0 ++
    [0, 0x20, 0, 0, 0, 2, 0, 0] ++ List.replicate 44 0 ++ [6, 0, 0, 0] ++ List.replicate 48 0 ++
    [46, 100, 97, 116, 97, 0, 0, 0, 40, 0, 0, 0, 0, 0x10, 0, 0, 40, 0, 0, 0, 0x20 + gap, 1, 0, 0] ++
    List.replicate 12 0 ++ [0x40, 0, 0, 0xC0] ++ List.replicate gap.toNat 0 ++
    List.replicate 40 0xAA⟩⟩

/-- The headers of such an image, by where its contents start. -/
def dataHeaders (rawOffset : UInt32) : Headers :=
  { bareHeaders with
    sizeOfImage := 0x2000
    sections := [⟨".data", 40, 0x1000, 40, rawOffset, 0xC0000040⟩] }

/-- The place of a new section in such an image. -/
def dataPlace : NewSection where
  headerOffset := 0x120
  virtualAddress := 0x2000
  rawOffset := 0x200
  rawSize := 0x200

/-- The contents are as far behind the section table as a header is long. -/
theorem apply_append_contents_dataImage :
    Headers.read (dataImage 40) = .ok (dataHeaders 0x148) ∧
      (dataHeaders 0x148).ContentsBehindTable ∧
      Plan.make (dataHeaders 0x148) (dataImage 40).size twoPages.size = .ok (.append dataPlace) ∧
      dataPlace.HeaderIn twoPages.size true ((Plan.append dataPlace).apply (dataHeaders 0x148)
        twoPages.bytes true (dataImage 40)) ∧
      ∀ s ∈ (dataHeaders 0x148).sections, ∀ i < (dataImage 40).size, s.contents.Covers i →
        ((Plan.append dataPlace).apply (dataHeaders 0x148) twoPages.bytes true
          (dataImage 40)).data[i]? = (dataImage 40).data[i]? := by
  have hread : Headers.read (dataImage 40) = .ok (dataHeaders 0x148) := by decide +kernel
  have hbehind : (dataHeaders 0x148).ContentsBehindTable := by decide
  have hplan : Plan.make (dataHeaders 0x148) (dataImage 40).size twoPages.size =
      .ok (.append dataPlace) := by
    decide +kernel
  obtain ⟨_, _, hheader, _, hkept⟩ := Plan.apply_append_contents hread hbehind hplan true
  have hstart : ∀ s ∈ (dataHeaders 0x148).sections,
      (dataHeaders 0x148).sectionTableEnd + Section.headerSize ≤ s.rawOffset.toNat := by
    decide
  exact ⟨hread, hbehind, hplan, hheader, fun s hs => hkept s hs (hstart s hs)⟩

/-- The contents follow the section table at once: they are not safe, as the new header is written
over them. -/
theorem append_changes_contents :
    Headers.read (dataImage 0) = .ok (dataHeaders 0x120) ∧
      (dataHeaders 0x120).ContentsBehindTable ∧
      Plan.make (dataHeaders 0x120) (dataImage 0).size twoPages.size = .ok (.append dataPlace) ∧
      ∃ s ∈ (dataHeaders 0x120).sections, ∃ i < (dataImage 0).size, s.contents.Covers i ∧
        ((Plan.append dataPlace).apply (dataHeaders 0x120) twoPages.bytes true
          (dataImage 0)).data[i]? ≠ (dataImage 0).data[i]? := by
  have hread : Headers.read (dataImage 0) = .ok (dataHeaders 0x120) := by decide +kernel
  have hplan : Plan.make (dataHeaders 0x120) (dataImage 0).size twoPages.size =
      .ok (.append dataPlace) := by
    decide +kernel
  refine ⟨hread, by decide, hplan, _, List.mem_cons_self, 0x120, by decide +kernel, by decide, ?_⟩
  -- The first byte of the contents becomes the first byte of the header.
  have hsuits := Plan.suits_of_make hplan
  rw [← twoPages.size_eq] at hsuits
  have hheader := Plan.slice?_newHeader true (Headers.read_eq_ok_iff.mp hread) hsuits
  have hbyte := getElem?_of_slice? hheader (show 0 < Section.headerSize by decide)
  rw [← show dataPlace.headerOffset + 0 = 0x120 from rfl, ← hbyte]
  decide +kernel

end Rebase.Pe
