import Rebase.Proofs.Pe.Reread

/-!
# How an image grows

Each plan that appends leaves one relocation section more, and later plans write over the last of
them as long as the table fits. `Headers.Grown` is what holds of the headers of an image at every
point of such a history: the sections that were there at first, followed by relocation sections that
get larger and lie behind each other, both in the file and in memory.

- **Appending**: `Headers.Grown.append`
- **Replacing**: `Headers.Grown.replace`
- **Any plan**: `Headers.Grown.after`

The size of the image is written only when a section is appended, while the size of a section in
memory can grow with each table that is written over its contents. That the image stays large enough
comes from `alignUp_file_le_mappedSize`: the alignment in memory is a multiple of the one in the
file.
-/

namespace Rebase.Pe

open Bytes

/-! ## §1 The highest section -/

namespace Headers

variable {h : Headers}

theorem virtualEnd_le_mappedEnd {s : Section} {i : Nat} (hs : h.highestSection? = some (s, i)) :
    s.virtualEnd ≤ h.mappedEnd := by
  simp only [mappedEnd, hs, Option.map_some, Option.getD_some]
  exact Nat.le_max_left _ _

/-- No section starts behind the end of the memory of the image. -/
private theorem virtualAddress_le_mappedEnd {s : Section} (hs : s ∈ h.sections) :
    s.virtualAddress.toNat ≤ h.mappedEnd := by
  obtain ⟨j, hj⟩ := List.mem_iff_getElem?.mp hs
  cases hhighest : h.highestSection? with
  | none =>
    rw [highestSection?_eq_none_iff.mp hhighest] at hs
    cases hs
  | some found =>
    -- A section starts no higher than the highest one, which ends inside the memory of the image.
    obtain ⟨best, i⟩ := found
    have hle : s.virtualAddress ≤ best.virtualAddress :=
      (highestSection?_eq_some_iff.mp hhighest).2.1 j s hj
    have hend := virtualEnd_le_mappedEnd hhighest
    simp only [Section.virtualEnd] at hend
    have : s.virtualAddress.toNat ≤ best.virtualAddress.toNat := hle
    omega

end Headers

/-- The memory that a table takes up is at least its size in the file. -/
theorem alignUp_file_le_mappedSize (tableSize : Nat) :
    alignUp tableSize fileAlignment ≤ mappedSize tableSize := by
  -- The mapped size is itself a multiple of the alignment in the file, and rounding up finds the
  -- least.
  have hdvd : fileAlignment ∣ mappedSize tableSize :=
    Nat.dvd_trans (by decide) (dvd_alignUp (max tableSize 1) sectionAlignment)
  have hle : max tableSize 1 ≤ mappedSize tableSize := le_alignUp _ (by decide)
  exact alignUp_le (by decide) hdvd (by omega)

/-! ## §2 Sections behind each other -/

/-- A section is smaller than another one and lies before it, in the file and in memory. -/
structure Section.Before (s t : Section) : Prop where
  rawSize : s.rawSize < t.rawSize
  file : s.rawOffset.toNat + s.rawSize.toNat ≤ t.rawOffset.toNat
  memory : s.virtualEnd ≤ t.virtualAddress.toNat

theorem Section.Before.trans {s t u : Section} (hst : s.Before t) (htu : t.Before u) :
    s.Before u where
  rawSize := UInt32.lt_trans hst.rawSize htu.rawSize
  file := by
    have := hst.file
    have := htu.file
    omega
  memory := by
    have hs := hst.memory
    have ht := htu.memory
    simp only [Section.virtualEnd] at ht ⊢ hs
    omega

/-- What holds of the last relocation section that was appended to an image. -/
structure Headers.Ends (h : Headers) (fileSize : Nat) (last : Section) : Prop where
  /-- Its contents are in the file, behind the section table. -/
  behind : h.sectionTableEnd ≤ last.rawOffset.toNat
  inFile : last.rawOffset.toNat + last.rawSize.toNat ≤ fileSize
  /-- It has room for the table, and the image for its contents. -/
  fits : last.virtualSize.toNat ≤ last.rawSize.toNat
  inImage : last.virtualAddress.toNat + last.rawSize.toNat ≤ h.sizeOfImage.toNat
  highest : ∀ s ∈ h.sections, s.virtualAddress ≤ last.virtualAddress

/-- **The headers of an image that has grown** from one with the headers `h₀` by the sections
`added`. -/
structure Headers.Grown (h₀ h : Headers) (fileSize : Nat) (added : List Section) : Prop where
  table : h.sectionTableOffset = h₀.sectionTableOffset
  sections : h.sections = h₀.sections ++ added
  named : ∀ s ∈ added, s.name = relocationSectionName
  ordered : added.Pairwise Section.Before
  last : ∀ s, added.getLast? = some s → h.Ends fileSize s

namespace Headers.Grown

variable {h₀ h : Headers} {fileSize : Nat} {added : List Section}

/-! ## §3 The last section -/

/-- The last section that was appended is the relocation section. -/
theorem relocationSection?_eq {last : Section} (hg : Grown h₀ h fileSize (added ++ [last])) :
    h.relocationSection? = some (last, h₀.sections.length + added.length) := by
  have hsections := hg.sections
  rw [← List.append_assoc] at hsections
  refine Headers.relocationSection?_eq_some_iff.mpr ⟨?_, hg.named last (by simp), ?_⟩
  · rw [hsections, ← List.length_append, List.getElem?_concat_length]
  · intro j t hj ht
    -- It is the last of the table, so nothing is behind it.
    obtain ⟨hlt, _⟩ := List.getElem?_eq_some_iff.mp ht
    simp only [hsections, List.length_append, List.length_singleton] at hlt
    omega

/-- The last section that was appended is the highest one. -/
private theorem highestSection?_eq {last : Section} (hg : Grown h₀ h fileSize (added ++ [last])) :
    h.highestSection? = some (last, h₀.sections.length + added.length) := by
  have hsections := hg.sections
  rw [← List.append_assoc] at hsections
  have hends := hg.last last (by simp)
  refine Headers.highestSection?_eq_some_iff.mpr ⟨?_, ?_, ?_⟩
  · rw [hsections, ← List.length_append, List.getElem?_concat_length]
  · intro j t ht
    exact hends.highest t (List.mem_of_getElem? ht)
  · intro j t hj ht
    obtain ⟨hlt, _⟩ := List.getElem?_eq_some_iff.mp ht
    simp only [hsections, List.length_append, List.length_singleton] at hlt
    omega

/-- No section is called like the relocation section before the first one is appended. -/
private theorem relocationSection?_eq_none (hg : Grown h₀ h fileSize [])
    (hnone : ∀ s ∈ h₀.sections, s.name ≠ relocationSectionName) : h.relocationSection? = none := by
  rw [Headers.relocationSection?_eq_none_iff, hg.sections, List.append_nil]
  exact hnone

/-! ## §4 One plan more -/

variable {tableSize : Nat}

/-- A new section lies behind the last one that was appended. -/
private theorem before_toSection {last : Section} (hg : Grown h₀ h fileSize (added ++ [last]))
    {place : NewSection} (hsuits : (Plan.append place).Suits h fileSize tableSize)
    (discardable : Bool) : last.Before (place.toSection tableSize discardable) := by
  obtain ⟨husable, hnew⟩ := hsuits
  obtain ⟨_, _, _, _, _, _, haddress, hoffset, hsize⟩ := Headers.newSection_eq_ok_iff.mp hnew
  have hends := hg.last last (by simp)
  -- The table did not fit the last section, or it would have been written over it.
  have hsmaller : last.rawSize.toNat < tableSize := by
    apply Nat.lt_of_not_le
    intro hfits
    rw [Headers.usableSection?_eq_some_iff.mpr ⟨hg.relocationSection?_eq, hfits⟩] at husable
    cases husable
  refine ⟨?_, ?_, ?_⟩
  · have hle := le_alignUp tableSize (show 0 < fileAlignment by decide)
    rw [← hsize] at hle
    exact Nat.lt_of_lt_of_le hsmaller hle
  · have hle := le_alignUp fileSize (show 0 < fileAlignment by decide)
    rw [← hoffset] at hle
    exact Nat.le_trans hends.inFile hle
  · have hle := le_alignUp h.mappedEnd (show 0 < sectionAlignment by decide)
    rw [← haddress] at hle
    exact Nat.le_trans (Headers.virtualEnd_le_mappedEnd hg.highestSection?_eq) hle

/-- A new section is at the end of the image that it was appended to. -/
theorem ends_toSection {place : NewSection} (hlt : tableSize < UInt32.size)
    (hsuits : (Plan.append place).Suits h fileSize tableSize) (discardable : Bool) :
    ((Plan.append place).headersAfter h tableSize discardable).Ends
      (place.rawOffset.toNat + place.rawSize.toNat) (place.toSection tableSize discardable) := by
  obtain ⟨_, _, hroom, _, hmapped, _, haddress, hoffset, hsize⟩ :=
    Headers.newSection_eq_ok_iff.mp hsuits.2
  have hfile := le_alignUp fileSize (show 0 < fileAlignment by decide)
  have htable := le_alignUp tableSize (show 0 < fileAlignment by decide)
  have hmemory := le_alignUp h.mappedEnd (show 0 < sectionAlignment by decide)
  rw [← haddress] at hmapped hmemory
  -- The header of the new section is part of the section table from now on.
  have hend : ((Plan.append place).headersAfter h tableSize discardable).sectionTableEnd =
      h.sectionTableEnd + Section.headerSize := by
    simp only [Headers.sectionTableEnd, Headers.sectionHeaderOffset, Headers.sectionCount,
      Plan.headersAfter, List.length_append, List.length_singleton, Section.headerSize]
    omega
  exact {
    behind := by
      rw [hend]
      simp only [NewSection.toSection]
      omega
    inFile := Nat.le_refl _
    fits := by
      simp only [NewSection.toSection, UInt32.toNat_ofNat', Nat.mod_eq_of_lt hlt]
      omega
    inImage := by
      -- The image ends behind the memory of the section, which is no less than its contents.
      have hsmall := alignUp_file_le_mappedSize tableSize
      simp only [NewSection.toSection, Plan.headersAfter, UInt32.toNat_ofNat',
        Nat.mod_eq_of_lt hmapped]
      omega
    highest := by
      intro t ht
      rcases List.mem_append.mp ht with hold | hnew
      · exact Nat.le_trans (Headers.virtualAddress_le_mappedEnd hold) hmemory
      · rw [List.mem_singleton.mp hnew]
        exact UInt32.le_refl _ }

/-- **Appending a section** to an image that has grown. -/
theorem append {place : NewSection} (hg : Grown h₀ h fileSize added) (hlt : tableSize < UInt32.size)
    (hsuits : (Plan.append place).Suits h fileSize tableSize) (discardable : Bool) :
    Grown h₀ ((Plan.append place).headersAfter h tableSize discardable)
      (place.rawOffset.toNat + place.rawSize.toNat)
      (added ++ [place.toSection tableSize discardable]) where
  table := hg.table
  sections := by
    rw [← List.append_assoc, ← hg.sections]
    rfl
  named := by
    intro t ht
    rcases List.mem_append.mp ht with hold | hnew
    · exact hg.named t hold
    · rw [List.mem_singleton.mp hnew]
      rfl
  ordered := by
    refine List.pairwise_append.mpr ⟨hg.ordered, List.pairwise_singleton _ _, ?_⟩
    intro t ht u hu
    rw [List.mem_singleton.mp hu]
    rcases List.eq_nil_or_concat' added with rfl | ⟨earlier, last, rfl⟩
    · cases ht
    · have hlast := hg.before_toSection hsuits discardable
      rcases List.mem_append.mp ht with hearlier | hsame
      -- What is before the last section is before the new one as well.
      · have hbefore := (List.pairwise_append.mp hg.ordered).2.2 t hearlier last (by simp)
        exact hbefore.trans hlast
      · rw [List.mem_singleton.mp hsame]
        exact hlast
  last := by
    intro t ht
    rw [List.getLast?_concat] at ht
    cases ht
    exact ends_toSection hlt hsuits discardable

/-- What holds of the last section still holds after a table that fits it was written over it. -/
private theorem ends_replace {index : Nat} {s : Section} (hends : h.Ends fileSize s)
    (hlt : tableSize < UInt32.size) (hfits : tableSize ≤ s.rawSize.toNat) (discardable : Bool) :
    ((Plan.replace index s).headersAfter h tableSize discardable).Ends fileSize
      { s with virtualSize := UInt32.ofNat tableSize } where
  behind := by
    have hend : ((Plan.replace index s).headersAfter h tableSize discardable).sectionTableEnd =
        h.sectionTableEnd := by
      simp only [Headers.sectionTableEnd, Headers.sectionHeaderOffset, Headers.sectionCount,
        Plan.headersAfter, List.length_set]
    rw [hend]
    exact hends.behind
  inFile := hends.inFile
  fits := by
    simp only [UInt32.toNat_ofNat', Nat.mod_eq_of_lt hlt]
    exact hfits
  inImage := hends.inImage
  highest := by
    intro t ht
    rcases List.mem_or_eq_of_mem_set ht with hold | rfl
    · exact hends.highest t hold
    · exact UInt32.le_refl _

/-- **Writing over a section** of an image that has grown: it is the last one that was appended, and
only its size in memory changes. -/
theorem replace {index : Nat} {s : Section} (hg : Grown h₀ h fileSize added)
    (hnone : ∀ t ∈ h₀.sections, t.name ≠ relocationSectionName) (hlt : tableSize < UInt32.size)
    (hsuits : (Plan.replace index s).Suits h fileSize tableSize) (discardable : Bool) :
    ∃ earlier, added = earlier ++ [s] ∧
      Grown h₀ ((Plan.replace index s).headersAfter h tableSize discardable) fileSize
        (earlier ++ [{ s with virtualSize := UInt32.ofNat tableSize }]) := by
  obtain ⟨hfound, hfits, _⟩ := hsuits
  rcases List.eq_nil_or_concat' added with rfl | ⟨earlier, last, rfl⟩
  -- As long as nothing was appended there is no section to write over.
  · rw [hg.relocationSection?_eq_none hnone] at hfound
    cases hfound
  have hsame := hg.relocationSection?_eq
  rw [hfound] at hsame
  cases hsame
  have hends := hg.last s (by simp)
  have hsections : ((Plan.replace (h₀.sections.length + earlier.length) s).headersAfter h tableSize
      discardable).sections =
        h₀.sections ++ (earlier ++ [{ s with virtualSize := UInt32.ofNat tableSize }]) := by
    simp only [Plan.headersAfter, Plan.sectionAfter, hg.sections]
    simp
  refine ⟨earlier, rfl, ?_⟩
  exact {
    table := hg.table
    sections := hsections
    named := by
      intro t ht
      rcases List.mem_append.mp ht with hold | hnew
      · exact hg.named t (List.mem_append_left _ hold)
      · rw [List.mem_singleton.mp hnew]
        exact hg.named s (by simp)
    ordered := by
      obtain ⟨hearlier, _, hbefore⟩ := List.pairwise_append.mp hg.ordered
      refine List.pairwise_append.mpr ⟨hearlier, List.pairwise_singleton _ _, ?_⟩
      intro t ht u hu
      rw [List.mem_singleton.mp hu]
      have hlast := hbefore t ht s (by simp)
      -- The order looks at where a section starts and how much room it has, and both stay the same.
      exact ⟨hlast.rawSize, hlast.file, hlast.memory⟩
    last := by
      intro t ht
      rw [List.getLast?_concat] at ht
      cases ht
      exact ends_replace hends hlt hfits discardable }

/-- **Any plan** keeps the shape of an image that has grown. The section that it writes to is the
last one afterwards, and a section is added exactly when the plan appends one. -/
theorem after {plan : Plan} (hg : Grown h₀ h fileSize added)
    (hnone : ∀ t ∈ h₀.sections, t.name ≠ relocationSectionName) (hlt : tableSize < UInt32.size)
    (hsuits : plan.Suits h fileSize tableSize) (discardable : Bool) :
    ∃ earlier, Grown h₀ (plan.headersAfter h tableSize discardable) (plan.fileSizeAfter fileSize)
        (earlier ++ [plan.sectionAfter tableSize discardable]) ∧
      earlier.length + 1 = added.length + [plan.placement].count .appended := by
  cases plan with
  | replace index s =>
    obtain ⟨earlier, rfl, hgrown⟩ := hg.replace hnone hlt hsuits discardable
    exact ⟨earlier, hgrown, by simp [Plan.placement]⟩
  | append place =>
    exact ⟨added, hg.append hlt hsuits discardable, by simp [Plan.placement]⟩

/-- A plan writes behind the section table of an image that has grown. -/
theorem clears {plan : Plan} (hg : Grown h₀ h fileSize added)
    (hnone : ∀ t ∈ h₀.sections, t.name ≠ relocationSectionName) (hlt : tableSize < UInt32.size)
    (hsuits : plan.Suits h fileSize tableSize) : plan.Clears h := by
  cases plan with
  | replace index s =>
    obtain ⟨earlier, rfl, _⟩ := hg.replace hnone hlt hsuits true
    exact (hg.last s (by simp)).behind
  | append place => trivial

end Headers.Grown

end Rebase.Pe
