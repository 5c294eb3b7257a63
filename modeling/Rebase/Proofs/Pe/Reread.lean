import Rebase.Proofs.Pe.Frame

/-!
# Reading a changed image

An image that a plan was carried out on is an image again. `Plan.headersAfter` says from the old
headers and the plan alone what its headers are, and `Plan.read_apply` that these are the ones that
are read.

For this the writes must stay away from the headers and from the field that leads to them
(`Plan.KeepsHeaders`). They do when the headers follow the first 64 bytes, where that field is
(`HeadersFollow`), and a section whose contents are replaced is behind the section table
(`Plan.Clears`).

- **Headers**: `Plan.read_apply`
- **Section**: `Plan.relocationSection?_headersAfter` and `Plan.stored?_apply`, the relocation
  section is the one of the plan, and it holds the table
- **Directory**: `Plan.relocationDirectory?_apply`
- **Collisions**: `Plan.read_apply_of_covers` and `Plan.word32?_signatureField_of_counted`, what
  happens to the headers that are written over
-/

namespace Rebase.Pe

open Bytes Edit

/-! ## §1 Headers after a plan -/

/-- The headers of an image follow the 64 bytes that it starts with. -/
def HeadersFollow (file : Bytes) : Prop :=
  ∀ e : UInt32, file.word? UInt32 Headers.signatureField = some e → 0x40 ≤ e.toNat

/-- The address and the size in the base relocation directory. -/
def Headers.relocationDirectory? (h : Headers) (file : Bytes) : Option (UInt32 × UInt32) := do
  let address ← file.word? UInt32 (h.optionalHeaderOffset + 152)
  let size ← file.word? UInt32 (h.optionalHeaderOffset + 156)
  pure (address, size)

/-- A new section as it is read back. -/
def NewSection.toSection (place : NewSection) (tableSize : Nat) (discardable : Bool) : Section where
  name := relocationSectionName
  virtualSize := UInt32.ofNat tableSize
  virtualAddress := place.virtualAddress
  rawSize := place.rawSize
  rawOffset := place.rawOffset
  characteristics := NewSection.characteristics discardable

namespace Plan

/-- The section that holds the table after a plan was carried out. -/
def sectionAfter (tableSize : Nat) (discardable : Bool) : Plan → Section
  | .replace _ s => { s with virtualSize := UInt32.ofNat tableSize }
  | .append place => place.toSection tableSize discardable

/-- The index of the section that holds the table. -/
def sectionIndex (h : Headers) : Plan → Nat
  | .replace index _ => index
  | .append _ => h.sectionCount

/-- The headers of an image after a plan was carried out. -/
def headersAfter (plan : Plan) (h : Headers) (tableSize : Nat) (discardable : Bool) : Headers where
  fileHeaderOffset := h.fileHeaderOffset
  optionalHeaderOffset := h.optionalHeaderOffset
  sectionTableOffset := h.sectionTableOffset
  characteristics := withRelocations h.characteristics
  sizeOfImage := match plan with
    | .replace _ _ => h.sizeOfImage
    | .append place => UInt32.ofNat (place.virtualAddress.toNat + mappedSize tableSize)
  sizeOfHeaders := h.sizeOfHeaders
  sections := match plan with
    | .replace index _ => h.sections.set index (plan.sectionAfter tableSize discardable)
    | .append _ => h.sections ++ [plan.sectionAfter tableSize discardable]

/-- The size of an image of a given size after a plan was carried out. -/
def fileSizeAfter (fileSize : Nat) : Plan → Nat
  | .replace _ _ => fileSize
  | .append place => place.rawOffset.toNat + place.rawSize.toNat

/-- A section whose contents are replaced is behind the section table. -/
def Clears (h : Headers) : Plan → Prop
  | .replace _ s => h.sectionTableEnd ≤ s.rawOffset.toNat
  | .append _ => True

/-- A plan does not write over what leads to the section table. The contents of a section that are
replaced have no part in the field of the first offset, nor in anything from the signature to the
end of the section table; the number of sections, which is written for a new section, has none in
that field. -/
def KeepsHeaders (h : Headers) : Plan → Prop
  | .replace _ s =>
    (s.rawOffset.toNat + s.rawSize.toNat ≤ Headers.signatureField ∨
      Headers.signatureField + 4 ≤ s.rawOffset.toNat) ∧
    (s.rawOffset.toNat + s.rawSize.toNat + 4 ≤ h.fileHeaderOffset ∨
      h.sectionTableEnd ≤ s.rawOffset.toNat)
  | .append _ =>
    h.sectionCountOffset + 2 ≤ Headers.signatureField ∨
      Headers.signatureField + 4 ≤ h.sectionCountOffset

end Plan

theorem headersFollow_iff {file : Bytes} {h : Headers} (hd : h.Describes file) :
    HeadersFollow file ↔ 0x44 ≤ h.fileHeaderOffset := by
  obtain ⟨e, he, _, hoffset⟩ := hd.signed
  constructor
  · intro hfollow
    have := hfollow e he
    omega
  · intro hle e' he'
    rw [he] at he'
    cases he'
    omega

theorem headersFollow_bareImage : HeadersFollow bareImage :=
  (headersFollow_iff (Headers.read_eq_ok_iff.mp read_bareImage)).mpr (by decide)

theorem headersFollow_sectionImage : HeadersFollow sectionImage :=
  (headersFollow_iff (Headers.read_eq_ok_iff.mp read_sectionImage)).mpr (by decide)

/-- Behind the first 64 bytes and the section table there are no headers to keep. -/
theorem Plan.keepsHeaders {plan : Plan} {h : Headers} {file : Bytes} (hd : h.Describes file)
    (hclears : plan.Clears h) (hfollow : HeadersFollow file) : plan.KeepsHeaders h := by
  have hfirst := (headersFollow_iff hd).mp hfollow
  have hpointer : Headers.signatureField = 0x3C := rfl
  obtain ⟨hcount, _, _, _⟩ := h.fieldOffsets
  have hoptional := hd.optionalHeader
  have htable := hd.le_sectionTable
  have hstart : h.sectionTableOffset ≤ h.sectionTableEnd := h.le_sectionHeaderOffset _
  cases plan with
  | replace index s =>
    simp only [Clears] at hclears
    exact ⟨.inr (by omega), .inr hclears⟩
  | append place => exact .inr (by omega)

/-- The flag of an image without relocations is cleared. -/
theorem withRelocations_and_one (characteristics : UInt16) :
    withRelocations characteristics &&& 1 = 0 := by
  have hflag : ~~~relocationsStripped &&& 1 = 0 := by decide
  rw [withRelocations, UInt16.and_assoc, hflag, UInt16.and_zero]

/-- No other flag is changed. -/
theorem withRelocations_or_one (characteristics : UInt16) :
    withRelocations characteristics ||| 1 = characteristics ||| 1 := by
  apply UInt16.toBitVec_inj.mp
  apply BitVec.eq_of_getLsbD_eq
  intro i hi
  simp only [withRelocations, relocationsStripped, UInt16.toBitVec_or, UInt16.toBitVec_and,
    UInt16.toBitVec_not, BitVec.getLsbD_or, BitVec.getLsbD_and, BitVec.getLsbD_not, hi, decide_true,
    Bool.true_and, Bool.or_and_distrib_right, Bool.not_or_self, Bool.and_true]

/-- The flag is in the lowest bit. -/
private theorem toNat_withRelocations (characteristics : UInt16) :
    (withRelocations characteristics).toNat = characteristics.toNat / 2 * 2 := by
  have hbit := congrArg UInt16.toNat (withRelocations_and_one characteristics)
  have hrest := congrArg (fun value => value.toNat / 2) (withRelocations_or_one characteristics)
  simp only [UInt16.toNat_and, UInt16.toNat_or, UInt16.toNat_ofNat, Nat.reducePow, Nat.reduceMod,
    Nat.and_one_is_mod, Nat.or_div_two, Nat.reduceDiv, Nat.or_zero] at hbit hrest
  omega

/-- Only the first byte of the characteristics can change, and only if the flag was set. -/
private theorem getElem?_ofWord16_withRelocations {characteristics : UInt16} {k : Nat}
    (h : k = 0 → characteristics.toNat % 2 = 0) :
    (ofWord (withRelocations characteristics)).data[k]? = (ofWord characteristics).data[k]? := by
  have hnat := toNat_withRelocations characteristics
  have hhigh : (withRelocations characteristics).toNat / 256 = characteristics.toNat / 256 := by
    omega
  by_cases hk : k = 0
  · have hlow := h hk
    have hsame : withRelocations characteristics = characteristics := by
      apply UInt16.toNat.inj
      omega
    rw [hsame]
  · obtain ⟨k, rfl⟩ := Nat.exists_eq_succ_of_ne_zero hk
    simp only [ofWord, Word.toNat_uint16, LittleEndian.encode, hhigh, List.data_toByteArray,
      List.getElem?_toArray, List.getElem?_cons_succ]

/-! ## §2 Section headers -/

namespace Section.StoredAt

variable {s : Section} {file after : Bytes} {offset : Nat}

/-- A section header of which only the size in memory was written over. -/
private theorem with_virtualSize (hs : s.StoredAt file offset) {size : UInt32}
    (hsize : after.word? UInt32 (offset + 8) = some size)
    (hsame : ∀ start width, start + width ≤ 8 ∨ 12 ≤ start → start + width ≤ headerSize →
      after.slice? (offset + start) width = file.slice? (offset + start) width) :
    ({ s with virtualSize := size } : Section).StoredAt after offset where
  name := by
    have hname := hsame 0 8 (by decide) (by decide)
    rw [Nat.add_zero] at hname
    rw [hname]
    exact hs.name
  virtualSize := hsize
  virtualAddress := (word?_congr (hsame 12 4 (by decide) (by decide))).trans hs.virtualAddress
  rawSize := (word?_congr (hsame 16 4 (by decide) (by decide))).trans hs.rawSize
  rawOffset := (word?_congr (hsame 20 4 (by decide) (by decide))).trans hs.rawOffset
  characteristics := (word?_congr (hsame 36 4 (by decide) (by decide))).trans hs.characteristics

/-- A section header that was not written over. -/
theorem congr (hs : s.StoredAt file offset)
    (hsame : ∀ start width, start + width ≤ headerSize →
      after.slice? (offset + start) width = file.slice? (offset + start) width) :
    s.StoredAt after offset := by
  have hsize := (word?_congr (hsame 8 4 (by decide))).trans hs.virtualSize
  exact hs.with_virtualSize hsize fun start width _ hin => hsame start width hin

end Section.StoredAt

/-- The header of a new section is that of the section it is read back as. -/
private theorem NewSection.HeaderIn.storedAt {place : NewSection} {tableSize : Nat}
    {discardable : Bool} {file : Bytes} (hin : place.HeaderIn tableSize discardable file) :
    (place.toSection tableSize discardable).StoredAt file place.headerOffset where
  name := by
    -- The two zero bytes that fill up the name are not part of it.
    have htrim : Section.trimZeros nameField = relocationSectionName.toUTF8 := by decide
    rw [hin.name, Option.map_some, htrim, Text.lossy_toUTF8]
    rfl
  virtualSize := by
    obtain ⟨value, hvalue, hnat⟩ := Option.map_eq_some_iff.mp hin.virtualSize
    rw [hvalue, toSection, ← hnat, UInt32.ofNat_toNat]
  virtualAddress := hin.virtualAddress
  rawSize := hin.rawSize
  rawOffset := hin.rawOffset
  characteristics := by
    rw [hin.characteristics]
    cases discardable <;> rfl

namespace Plan

/-! ## §3 What is not written to -/

section Reread

variable {plan : Plan} {h : Headers} {file table : Bytes} (discardable : Bool)

/-- A field between the signature and the section table that is none of those that the plan writes
to. -/
private theorem word?_apply_field {α : Type} {width : Nat} [Word α width] (hd : h.Describes file)
    (hsuits : plan.Suits h file.size table.size) (hkeeps : plan.KeepsHeaders h) {offset : Nat}
    (hstart : h.fileHeaderOffset ≤ offset + 4) (hend : offset + width ≤ h.sectionTableOffset)
    (hflags : offset + width ≤ h.characteristicsOffset ∨ h.characteristicsOffset + 2 ≤ offset)
    (hdir : offset + width ≤ h.relocationDirectoryOffset ∨
      h.relocationDirectoryOffset + 8 ≤ offset)
    (hnew : plan.placement = .appended →
      (offset + width ≤ h.sectionCountOffset ∨ h.sectionCountOffset + 2 ≤ offset) ∧
        (offset + width ≤ h.sizeOfImageOffset ∨ h.sizeOfImageOffset + 4 ≤ offset)) :
    (plan.apply h table discardable file).word? α offset = file.word? α offset := by
  -- Of the places that the plan writes to, those in front of the section table are named in the
  -- hypotheses, and all others are apart from the headers or in the section table.
  obtain ⟨_, _, htable, hfile⟩ := hsuits.inOrder hd
  obtain ⟨hcount, hcharacteristics, himage, hslot⟩ := h.fieldOffsets
  refine word?_congr (slice?_apply hsuits discardable (by omega) fun i hlo hhi => ?_)
  cases plan with
  | replace index s =>
    have hindex := h.le_sectionHeaderOffset index
    obtain ⟨_, hapart⟩ := hkeeps
    simp only [Spares, places, List.forall_mem_cons, Span.Covers]
    exact ⟨by omega, by omega, by omega, by omega, by simp⟩
  | append place =>
    obtain ⟨hcount, himage⟩ := hnew rfl
    obtain ⟨hheader, _, _, _⟩ := hsuits.newSection_bounds
    simp only [Spares, places, List.forall_mem_cons, Span.Covers]
    exact ⟨by omega, by omega, by omega, by omega, by omega, by simp⟩

/-- The field of the first offset is written to at most by the characteristics. -/
private theorem spares_signatureField (hd : h.Describes file)
    (hsuits : plan.Suits h file.size table.size)
    (hkeeps : plan.KeepsHeaders h) {i : Nat} (hlo : Headers.signatureField ≤ i)
    (hhi : i < Headers.signatureField + 4)
    (hflags : i < h.characteristicsOffset ∨ h.characteristicsOffset + 2 ≤ i) : plan.Spares h i := by
  have hpointer : Headers.signatureField = 0x3C := rfl
  obtain ⟨_, _, _, hfirst⟩ := hd.signed
  obtain ⟨hoptional, htable, hstart, _⟩ := hsuits.inOrder hd
  obtain ⟨_, _, himage, hdir⟩ := h.fieldOffsets
  cases plan with
  | replace index s =>
    have hindex := h.le_sectionHeaderOffset index
    obtain ⟨hapart, _⟩ := hkeeps
    simp only [Spares, places, List.forall_mem_cons, Span.Covers]
    exact ⟨by omega, by omega, by omega, by omega, by simp⟩
  | append place =>
    obtain ⟨hheader, _, _, _⟩ := hsuits.newSection_bounds
    simp only [KeepsHeaders] at hkeeps
    simp only [Spares, places, List.forall_mem_cons, Span.Covers]
    exact ⟨by omega, by omega, by omega, by omega, by omega, by simp⟩

/-- Where the first byte of the characteristics is part of the field of the first offset, it is
even: the offset is less than 64, and leads to the place of that byte. -/
private theorem even_characteristics (hd : h.Describes file)
    (hlo : Headers.signatureField ≤ h.characteristicsOffset)
    (hhi : h.characteristicsOffset < Headers.signatureField + 4) :
    h.characteristics.toNat % 2 = 0 := by
  obtain ⟨e, he, _, hfirst⟩ := hd.signed
  obtain ⟨_, hflags, _, _⟩ := h.fieldOffsets
  have hpointer : Headers.signatureField = 0x3C := rfl
  obtain ⟨j, hj⟩ : ∃ j, h.characteristicsOffset = Headers.signatureField + j :=
    ⟨_, (Nat.add_sub_cancel' hlo).symm⟩
  have hpart := getElem?_of_slice? (slice?_of_word? he) (show j < 4 by omega)
  have hbyte := getElem?_of_slice? (slice?_of_word? hd.characteristics) (show 0 < 2 by decide)
  rw [← hj] at hpart
  rw [Nat.add_zero, ← hpart] at hbyte
  have hnat : e.toNat = 38 + j := by omega
  simp only [ofWord, Word.toNat_uint16, Word.toNat_uint32, hnat, LittleEndian.encode,
    List.data_toByteArray, List.getElem?_toArray] at hbyte
  -- Of the four bytes of the offset the first is 38, and the others are zero.
  have hcases : j = 0 ∨ j = 1 ∨ j = 2 ∨ j = 3 := by omega
  rcases hcases with rfl | rfl | rfl | rfl <;>
    simp only [List.getElem?_cons_zero, List.getElem?_cons_succ, Option.some.injEq,
      ← UInt8.toNat_inj, UInt8.toNat_ofNat'] at hbyte <;> omega

/-- **The field of the first offset** still leads to the signature. -/
theorem word32?_signatureField_apply (hd : h.Describes file)
    (hsuits : plan.Suits h file.size table.size) (hkeeps : plan.KeepsHeaders h) :
    (plan.apply h table discardable file).word? UInt32 Headers.signatureField =
      file.word? UInt32 Headers.signatureField := by
  obtain ⟨e, he, _, _⟩ := hd.signed
  have hinside := le_size_of_word? he
  have hgrows := le_size_applyAll (plan.edits h table discardable) file
  refine word?_congr (slice?_congr ⟨fun _ => hinside, fun _ => Nat.le_trans hinside hgrows⟩ ?_)
  intro i hlo hhi
  by_cases hflags : h.characteristicsOffset ≤ i ∧ i < h.characteristicsOffset + 2
  · -- The characteristics are written over, by a word that differs at most in its first byte.
    obtain ⟨k, rfl⟩ : ∃ k, i = h.characteristicsOffset + k :=
      ⟨_, (Nat.add_sub_cancel' hflags.1).symm⟩
    have hk : k < 2 := by omega
    have hafter := slice?_of_word? (word16?_characteristics discardable hd hsuits)
    rw [← getElem?_of_slice? hafter hk,
      ← getElem?_of_slice? (slice?_of_word? hd.characteristics) hk]
    apply getElem?_ofWord16_withRelocations
    rintro rfl
    exact even_characteristics hd hlo hhi
  · exact getElem?_applyAll (by omega) (not_touches_of_spares hsuits
      (spares_signatureField hd hsuits hkeeps hlo hhi (by omega)) discardable)

/-- Of a section header only the size in memory is written to, if it is the one of the plan. -/
private theorem slice?_apply_sectionHeader (hd : h.Describes file)
    (hsuits : plan.Suits h file.size table.size) (hkeeps : plan.KeepsHeaders h)
    {i start width : Nat} (hi : i < h.sectionCount) (hin : start + width ≤ Section.headerSize)
    (hskip : plan.sectionIndex h = i → start + width ≤ 8 ∨ 12 ≤ start) :
    (plan.apply h table discardable file).slice? (h.sectionHeaderOffset i + start) width =
      file.slice? (h.sectionHeaderOffset i + start) width := by
  obtain ⟨hoptional, htable, _, hend⟩ := hsuits.inOrder hd
  have hlast := Headers.sectionHeaderOffset_add_le hi
  have hfirst := h.le_sectionHeaderOffset i
  obtain ⟨hcount, hflags, himage, hdir⟩ := h.fieldOffsets
  apply slice?_apply hsuits discardable (by omega)
  intro k hlo hhi
  cases plan with
  | replace index s =>
    obtain ⟨_, hapart⟩ := hkeeps
    simp only [sectionIndex] at hskip
    -- The header that is written to is this one, or one in front of it, or one behind it.
    have hother : ¬ (h.sectionHeaderOffset index + 8 ≤ k ∧
        k < h.sectionHeaderOffset index + 8 + 4) := by
      rcases Nat.lt_trichotomy index i with hlt | rfl | hgt
      · have := h.sectionHeaderOffset_add_le_of_lt hlt
        simp only [Section.headerSize] at this
        omega
      · have := hskip rfl
        omega
      · have := h.sectionHeaderOffset_add_le_of_lt hgt
        simp only [Section.headerSize] at this hin
        omega
    simp only [Spares, places, List.forall_mem_cons, Span.Covers]
    exact ⟨by omega, hother, by omega, by omega, by simp⟩
  | append place =>
    obtain ⟨hheader, _, _, _⟩ := hsuits.newSection_bounds
    simp only [Spares, places, List.forall_mem_cons, Span.Covers]
    exact ⟨by omega, by omega, by omega, by omega, by omega, by simp⟩

/-! ## §4 Reading the headers again -/

/-- The section of the plan is the one that its section header describes. -/
theorem storedAt_sectionAfter (hd : h.Describes file) (hsuits : plan.Suits h file.size table.size)
    (hkeeps : plan.KeepsHeaders h) (hlt : table.size < UInt32.size) :
    (plan.sectionAfter table.size discardable).StoredAt (plan.apply h table discardable file)
      (h.sectionHeaderOffset (plan.sectionIndex h)) := by
  cases plan with
  | replace index s =>
    have hs := (Headers.relocationSection?_eq_some_iff.mp hsuits.1).1
    obtain ⟨hindex, _⟩ := List.getElem?_eq_some_iff.mp hs
    apply (hd.sections index s hs).with_virtualSize
    · exact word32?_replaced discardable hd hsuits
    · intro start width hskip hin
      exact slice?_apply_sectionHeader discardable hd hsuits hkeeps hindex hin fun _ => hskip
  | append place =>
    obtain ⟨hheader, _, _, _⟩ := hsuits.newSection_bounds
    have hnew := slice?_newHeader discardable hd hsuits
    have hstored := (NewSection.headerIn_of_slice? hlt hnew).storedAt
    rw [hheader] at hstored
    exact hstored

/-- The section of an index after a plan is the one of the plan, or one that was there before. -/
private theorem getElem?_sections_headersAfter {tableSize i : Nat} {t : Section}
    (ht : (plan.headersAfter h tableSize discardable).sections[i]? = some t) :
    plan.sectionIndex h = i ∧ t = plan.sectionAfter tableSize discardable ∨
      plan.sectionIndex h ≠ i ∧ h.sections[i]? = some t := by
  cases plan with
  | replace index s =>
    simp only [headersAfter, List.getElem?_set, sectionIndex] at ht ⊢
    grind
  | append place =>
    simp only [headersAfter, Headers.getElem?_concat_eq_some_iff, sectionIndex,
      Headers.sectionCount] at ht ⊢
    rcases ht with hold | ⟨rfl, rfl⟩
    · obtain ⟨hi, _⟩ := List.getElem?_eq_some_iff.mp hold
      exact .inr ⟨by omega, hold⟩
    · exact .inl ⟨rfl, rfl⟩

/-- The number of sections that is stored is the one after the plan. -/
private theorem word16?_sectionCount_apply (hd : h.Describes file)
    (hsuits : plan.Suits h file.size table.size) (hkeeps : plan.KeepsHeaders h) :
    ∃ n : UInt16, (plan.apply h table discardable file).word? UInt16 h.sectionCountOffset = some n ∧
      (plan.headersAfter h table.size discardable).sectionCount = n.toNat := by
  obtain ⟨hoptional, htable, _, _⟩ := hsuits.inOrder hd
  obtain ⟨hcount, hflags, _, hdir⟩ := h.fieldOffsets
  cases plan with
  | replace index s =>
    -- The number of sections stays as it was, and so does the field it is stored in.
    obtain ⟨n, hn, hlength⟩ := hd.count
    rw [← word?_apply_field discardable hd hsuits hkeeps (by omega) (by omega) (by omega) (by omega)
      (by simp [placement])] at hn
    refine ⟨n, hn, ?_⟩
    rw [Headers.sectionCount, headersAfter, List.length_set]
    exact hlength
  | append place =>
    refine ⟨_, word16?_sectionCount discardable hd hsuits, ?_⟩
    -- One section more can still be counted, as the plan was made only if it can.
    obtain ⟨hless, _⟩ := Headers.newSection_eq_ok_iff.mp hsuits.2
    rw [maxSectionCount] at hless
    rw [UInt16.toNat_ofNat', Nat.mod_eq_of_lt (by omega), Headers.sectionCount, headersAfter,
      List.length_append]
    rfl

/-- The size of the image that is stored is the one after the plan. -/
private theorem word32?_sizeOfImage_apply (hd : h.Describes file)
    (hsuits : plan.Suits h file.size table.size) (hkeeps : plan.KeepsHeaders h) :
    (plan.apply h table discardable file).word? UInt32 h.sizeOfImageOffset =
      some (plan.headersAfter h table.size discardable).sizeOfImage := by
  obtain ⟨hoptional, htable, _, _⟩ := hsuits.inOrder hd
  obtain ⟨_, hflags, himage, hdir⟩ := h.fieldOffsets
  cases plan with
  | replace index s =>
    rw [word?_apply_field discardable hd hsuits hkeeps (by omega) (by omega) (by omega) (by omega)
      (by simp [placement])]
    exact hd.sizeOfImage
  | append place => exact word32?_sizeOfImage discardable hd hsuits

/-- **The headers after a plan** are those of the changed image. -/
theorem describes_headersAfter (hd : h.Describes file) (hsuits : plan.Suits h file.size table.size)
    (hkeeps : plan.KeepsHeaders h) (hlt : table.size < UInt32.size) :
    (plan.headersAfter h table.size discardable).Describes
      (plan.apply h table discardable file) := by
  obtain ⟨hoptional, htable, hstart, hend⟩ := hsuits.inOrder hd
  obtain ⟨hcount, hflags, himage, hdir⟩ := h.fieldOffsets
  obtain ⟨e, he, hsig, hoffset⟩ := hd.signed
  obtain ⟨z, hz, hleast, hbehind⟩ := hd.sectionTable
  obtain ⟨n, hn, hslot⟩ := hd.directories
  have hmagic := hd.magic
  have harea := hd.sizeOfHeaders
  rw [← word32?_signatureField_apply discardable hd hsuits hkeeps] at he
  -- Whatever is read on the way to the section table stands where plans do not write.
  rw [← word?_apply_field discardable hd hsuits hkeeps (by omega) (by omega) (by omega) (by omega)
    fun _ => by omega] at hsig hn harea hz hmagic
  exact {
    signed := ⟨e, he, hsig, hoffset⟩
    count := word16?_sectionCount_apply discardable hd hsuits hkeeps
    optionalHeader := hoptional
    sectionTable := ⟨z, hz, hleast, hbehind⟩
    characteristics := word16?_characteristics discardable hd hsuits
    magic := hmagic
    sizeOfImage := word32?_sizeOfImage_apply discardable hd hsuits hkeeps
    sizeOfHeaders := harea
    directories := ⟨n, hn, hslot⟩
    sections := by
      intro i t ht
      -- The section of the plan has the header that was written for it, all others keep theirs.
      rcases getElem?_sections_headersAfter discardable ht with ⟨rfl, rfl⟩ | ⟨hother, hold⟩
      · exact storedAt_sectionAfter discardable hd hsuits hkeeps hlt
      · obtain ⟨hi, _⟩ := List.getElem?_eq_some_iff.mp hold
        refine (hd.sections i t hold).congr fun start width hin => ?_
        exact slice?_apply_sectionHeader discardable hd hsuits hkeeps hi hin (absurd · hother) }

/-- The size of a changed image. -/
theorem size_apply (hd : h.Describes file) (hsuits : plan.Suits h file.size table.size) :
    (plan.apply h table discardable file).size = plan.fileSizeAfter file.size := by
  cases plan with
  | replace index s => exact size_apply_replace discardable
  | append place => exact (endsWith_append discardable hd hsuits).size

/-- **A changed image is read** as the headers after the plan. -/
theorem read_apply (hread : Headers.read file = .ok h)
    (hsuits : plan.Suits h file.size table.size) (hkeeps : plan.KeepsHeaders h)
    (hlt : table.size < UInt32.size) :
    Headers.read (plan.apply h table discardable file) =
      .ok (plan.headersAfter h table.size discardable) :=
  Headers.read_eq_ok_iff.mpr
    (describes_headersAfter discardable (Headers.read_eq_ok_iff.mp hread) hsuits hkeeps hlt)

/-! ## §5 The section with the table -/

/-- The section of the plan is in the section table after it. -/
private theorem getElem?_sectionIndex {fileSize tableSize : Nat}
    (hsuits : plan.Suits h fileSize tableSize) :
    (plan.headersAfter h tableSize discardable).sections[plan.sectionIndex h]? =
      some (plan.sectionAfter tableSize discardable) := by
  cases plan with
  | replace index s =>
    obtain ⟨hindex, _⟩ := List.getElem?_eq_some_iff.mp
      (Headers.relocationSection?_eq_some_iff.mp hsuits.1).1
    exact List.getElem?_set_self hindex
  | append place =>
    simp only [headersAfter, sectionIndex, Headers.sectionCount, List.getElem?_concat_length]

/-- Every section is found after a plan as it was, apart from the size in memory of the one that is
written over. -/
theorem getElem?_headersAfter {fileSize tableSize : Nat} (hsuits : plan.Suits h fileSize tableSize)
    {i : Nat} {s : Section} (hs : h.sections[i]? = some s) :
    (plan.headersAfter h tableSize discardable).sections[i]? = some s ∨
      plan.placement = .replaced ∧ h.relocationSection? = some (s, i) ∧
        (plan.headersAfter h tableSize discardable).sections[i]? =
          some { s with virtualSize := UInt32.ofNat tableSize } := by
  obtain ⟨hi, _⟩ := List.getElem?_eq_some_iff.mp hs
  cases plan with
  | replace index target =>
    have hfound := (Headers.relocationSection?_eq_some_iff.mp hsuits.1).1
    by_cases hsame : index = i
    · subst hsame
      cases hs.symm.trans hfound
      exact .inr ⟨rfl, hsuits.1, List.getElem?_set_self hi⟩
    · exact .inl ((List.getElem?_set_ne hsame).trans hs)
  | append place => exact .inl ((List.getElem?_append_left hi).trans hs)

/-- **The relocation section** after a plan is the one of the plan. -/
theorem relocationSection?_headersAfter {fileSize tableSize : Nat}
    (hsuits : plan.Suits h fileSize tableSize) :
    (plan.headersAfter h tableSize discardable).relocationSection? =
      some (plan.sectionAfter tableSize discardable, plan.sectionIndex h) := by
  refine Headers.relocationSection?_eq_some_iff.mpr
    ⟨getElem?_sectionIndex discardable hsuits, ?_, ?_⟩
  · cases plan with
    | replace index s => exact (Headers.relocationSection?_eq_some_iff.mp hsuits.1).2.1
    | append place => rfl
  · intro j t hj ht
    -- A section behind the one of the plan was there before, and behind the one that was chosen.
    rcases getElem?_sections_headersAfter discardable ht with ⟨rfl, _⟩ | ⟨_, hold⟩
    · exact absurd hj (Nat.lt_irrefl _)
    · cases plan with
      | replace index s =>
        exact (Headers.relocationSection?_eq_some_iff.mp hsuits.1).2.2 j t hj hold
      | append place =>
        obtain ⟨hlength, _⟩ := List.getElem?_eq_some_iff.mp hold
        exact absurd hj (Nat.not_lt.mpr (Nat.le_of_lt hlength))

/-- **The section of the plan holds the table.** -/
theorem stored?_apply (hd : h.Describes file) (hsuits : plan.Suits h file.size table.size)
    (hkeeps : plan.KeepsHeaders h) (hlt : table.size < UInt32.size) :
    (plan.sectionAfter table.size discardable).stored? (plan.apply h table discardable file) =
      some table := by
  have hsize : (UInt32.ofNat table.size).toNat = table.size := by
    rw [UInt32.toNat_ofNat', Nat.mod_eq_of_lt hlt]
  cases plan with
  | replace index s =>
    -- The contents are the first part of what is written over the section.
    have hfits : 0 + table.size ≤ s.rawSize.toNat := by
      rw [Nat.zero_add]
      exact hsuits.2.1
    have hapart : s.rawOffset.toNat + s.rawSize.toNat ≤ h.fileHeaderOffset ∨
        h.sectionTableEnd ≤ s.rawOffset.toNat := by
      obtain ⟨_, hapart⟩ := hkeeps
      omega
    have hpart := slice?_of_slice? (slice?_replaced discardable hd hsuits hapart) hfits
    rw [slice?_append_left (by omega), slice?_self, Nat.add_zero] at hpart
    simp only [sectionAfter, Section.stored?, hsize]
    exact hpart
  | append place =>
    simp only [sectionAfter, NewSection.toSection, Section.stored?, hsize]
    exact (endsWith_append discardable hd hsuits).contents

/-- The base relocation directory points to the section of the plan. -/
theorem relocationDirectory?_apply (hd : h.Describes file)
    (hsuits : plan.Suits h file.size table.size) :
    (plan.headersAfter h table.size discardable).relocationDirectory?
        (plan.apply h table discardable file) =
      some ((plan.sectionAfter table.size discardable).virtualAddress,
        (plan.sectionAfter table.size discardable).virtualSize) := by
  have hslot := slice?_relocationDirectory discardable hd hsuits
  have haddress := slice?_of_slice? hslot (show 0 + 4 ≤ 8 by decide)
  have hsize := slice?_of_slice? hslot (show 4 + 4 ≤ 8 by decide)
  rw [slice?_append_left (by simp), slice?_ofWord, Nat.add_zero] at haddress
  rw [slice?_append_right (by simp), size_ofWord, slice?_ofWord] at hsize
  have hoptional : (plan.headersAfter h table.size discardable).optionalHeaderOffset =
      h.optionalHeaderOffset := rfl
  obtain ⟨_, _, _, hplace⟩ := h.fieldOffsets
  rw [hplace] at haddress hsize
  rw [Headers.relocationDirectory?, hoptional, word?_of_slice? haddress, word?_of_slice? hsize]
  cases plan <;> rfl

/-! ## §6 Headers that are written over -/

/-- **Contents on the signature**: when the section that is written over begins where the signature
is, the image cannot be read any more, as the table is there now. -/
theorem read_apply_of_covers {index : Nat} {s : Section} (hd : h.Describes file)
    (hfollow : HeadersFollow file) (hsuits : (replace index s).Suits h file.size table.size)
    (hcovers : s.rawOffset.toNat + 4 = h.fileHeaderOffset) (hleast : 4 ≤ table.size)
    (hother : table.word? UInt32 0 ≠ some Headers.signature) :
    Headers.read ((replace index s).apply h table discardable file) = .error .badSignature := by
  have hfirst := (headersFollow_iff hd).mp hfollow
  have hpointer : Headers.signatureField = 0x3C := rfl
  obtain ⟨e, he, _, hoffset⟩ := hd.signed
  obtain ⟨hoptional, htable, hstart, hend⟩ := hsuits.inOrder hd
  obtain ⟨_, hflags, _, hdir⟩ := h.fieldOffsets
  have hheader := h.le_sectionHeaderOffset index
  have hplace : e.toNat = s.rawOffset.toNat := by omega
  refine Headers.read_of_not_signed (e := e) ?_ ?_
  · -- The field that leads to the signature is left alone.
    refine (word?_congr (slice?_apply hsuits discardable (by omega) fun i hlo hhi => ?_)).trans he
    simp only [Spares, places, List.forall_mem_cons, Span.Covers]
    exact ⟨by omega, by omega, by omega, by omega, by simp⟩
  · -- The table is written first, so the later fields are the ones to keep apart from it.
    obtain ⟨_, hfits, hinside⟩ := hsuits
    have hsplit : (replace index s).apply h table discardable file =
        applyAll (.overwrite (h.sectionHeaderOffset index + 8) (ofWord (UInt32.ofNat table.size)) ::
            (replace index s).directoryEdits h table)
          (file.overwrite s.rawOffset.toNat (table ++ zeros (s.rawSize.toNat - table.size))) := by
      simp only [apply, edits, sectionEdits, List.cons_append, List.nil_append,
        applyAll_cons, Edit.apply]
    rw [hsplit, hplace]
    obtain ⟨data, hdata⟩ : ∃ data, table ++ zeros (s.rawSize.toNat - table.size) = data := ⟨_, rfl⟩
    have hsize : data.size = s.rawSize.toNat := by
      rw [← hdata, ByteArray.size_append, size_zeros, Nat.add_sub_cancel' hfits]
    have hwritten : (file.overwrite s.rawOffset.toNat data).slice? s.rawOffset.toNat data.size =
        some data := slice?_overwrite_self (by omega)
    have hfront := slice?_of_slice? hwritten (show 0 + 4 ≤ data.size by omega)
    rw [Nat.add_zero] at hfront
    rw [hdata, word?_congr ((slice?_applyAll ?_ ?_).trans hfront), ← hdata,
      word?_congr (slice?_append_left (by omega))]
    · exact hother
    · rw [size_overwrite]
      omega
    · -- The fields that are written later are all behind the first bytes of the table.
      intro i hlo hhi edit hmem htouch
      rcases List.mem_cons.mp hmem with rfl | hmem
      · simp only [Touches] at htouch
        omega
      · have := touches_directoryEdits hmem htouch
        simp only [Span.Covers] at this
        omega

/-- **The count in the first offset**: when the number of sections is stored in the second and the
third byte of the field that leads to the signature, that leads somewhere else once a section was
appended. -/
theorem word32?_signatureField_of_counted {place : NewSection} (hd : h.Describes file)
    (hsuits : (append place).Suits h file.size table.size)
    (hcounted : h.sectionCountOffset = Headers.signatureField + 1) :
    file.word? UInt32 Headers.signatureField = some 0x37 ∧
      ((append place).apply h table discardable file).word? UInt32 Headers.signatureField =
        some 0x137 := by
  have hpointer : Headers.signatureField = 0x3C := rfl
  obtain ⟨e, he, _, hoffset⟩ := hd.signed
  obtain ⟨n, hn, hcount⟩ := hd.count
  obtain ⟨hoptional, htable, hstart, hend⟩ := hsuits.inOrder hd
  obtain ⟨hheader, _, _, _⟩ := hsuits.newSection_bounds
  obtain ⟨hcountOffset, hflags, himage, hdir⟩ := h.fieldOffsets
  obtain rfl : e = 0x37 := UInt32.toNat.inj (show e.toNat = 0x37 by omega)
  have hbefore := slice?_of_word? he
  -- The number of sections is made of bytes of the offset, which are zero.
  have hzero : file.word? UInt16 (Headers.signatureField + 1) = some 0 :=
    word?_of_slice? ((slice?_of_slice? hbefore (show 1 + 2 ≤ 4 by decide)).trans (by decide))
  rw [hcounted, hzero] at hn
  cases hn
  have hmiddle := slice?_of_word? (word16?_sectionCount discardable hd hsuits)
  rw [hcounted, hcount] at hmiddle
  -- The bytes on both sides of it are left alone.
  have hside : ∀ start, start = 0 ∨ start = 3 →
      ((append place).apply h table discardable file).slice? (Headers.signatureField + start) 1 =
        (ofWord (0x37 : UInt32)).slice? start 1 := by
    intro start hplace
    have hinside := le_size_of_word? he
    rw [← slice?_of_slice? hbefore (show start + 1 ≤ 4 by omega)]
    refine slice?_apply hsuits discardable (by omega) fun i hlo hhi => ?_
    simp only [Spares, places, List.forall_mem_cons, Span.Covers, Section.headerSize]
    exact ⟨by omega, by omega, by omega, by omega, by omega, by simp⟩
  have hfirst := (hside 0 (.inl rfl)).trans (show _ = some ⟨#[0x37]⟩ by decide)
  have hlast := (hside 3 (.inr rfl)).trans (show _ = some ⟨#[0]⟩ by decide)
  have hall := slice?_join (slice?_join hfirst hmiddle) hlast
  exact ⟨he, word?_of_slice? (hall.trans (by decide))⟩

end Reread

end Plan

end Rebase.Pe
