import Rebase.Pe.Alignment
import Rebase.Pe.Headers

/-!
# Where a relocation table goes

A table goes into the relocation section of an image, if there is one and it is large enough.
Otherwise a new section is appended, and a section that was too small stays where it is, unused. All
that could go wrong is found out here, before the first byte of the image is changed.

The main statements are `Plan.make_eq_replace_iff`, when a section is written over, and
`Headers.newSection_eq_ok_iff`, when a new section fits and where it goes.
-/

namespace Rebase.Pe

/-- The place of a section that is yet to be appended. -/
structure NewSection where
  /-- Where its section header goes. -/
  headerOffset : Nat
  virtualAddress : UInt32
  rawOffset : UInt32
  rawSize : UInt32
  deriving DecidableEq

/-- Where a relocation table goes. -/
inductive Plan where
  /-- Into the section of an index. -/
  | replace (index : Nat) (target : Section)
  /-- Into a new section. -/
  | append (place : NewSection)
  deriving DecidableEq

/-- Which way a relocation table was written. -/
inductive Placement where
  /-- Over the contents of a section. -/
  | replaced
  /-- Into a new section. -/
  | appended
  deriving DecidableEq

/-- The largest number of sections that the format can count. -/
def maxSectionCount : Nat := 65535

/-- How much memory a table takes up: at least one page. -/
def mappedSize (tableSize : Nat) : Nat := alignUp (max tableSize 1) sectionAlignment

namespace Headers

/-- The relocation section, if a table of the given size fits it, and its index. -/
def usableSection? (h : Headers) (tableSize : Nat) : Option (Section × Nat) :=
  h.relocationSection?.filter fun (s, _) => tableSize ≤ s.rawSize.toNat

/-- Where the memory of the image ends: behind its headers and behind its highest section. -/
def mappedEnd (h : Headers) : Nat :=
  max ((h.highestSection?.map fun (s, _) => s.virtualEnd).getD 0) h.sizeOfHeaders.toNat

/-- The place of a new section for a table of the given size. -/
def newSection (h : Headers) (fileSize tableSize : Nat) : Except Error NewSection :=
  let headerOffset := h.sectionTableEnd
  let headerEnd := headerOffset + Section.headerSize
  let address := alignUp h.mappedEnd sectionAlignment
  let offset := alignUp fileSize fileAlignment
  let size := alignUp tableSize fileAlignment
  if maxSectionCount ≤ h.sectionCount then
    .error (.capacity (.sectionTableFull h.sectionCount))
  else if h.sizeOfHeaders.toNat < headerEnd then
    .error (.capacity (.noHeaderRoom headerOffset h.sizeOfHeaders.toNat))
  else if fileSize < headerEnd then
    .error (.pe (.headerAreaOutsideFile headerEnd))
  else if offset + size < UInt32.size ∧ address + mappedSize tableSize < UInt32.size then
    .ok {
      headerOffset
      virtualAddress := UInt32.ofNat address
      rawOffset := UInt32.ofNat offset
      rawSize := UInt32.ofNat size }
  else
    .error (.capacity .imageTooLarge)

theorem usableSection?_eq_some_iff {h : Headers} {tableSize index : Nat} {s : Section} :
    h.usableSection? tableSize = some (s, index) ↔
      h.relocationSection? = some (s, index) ∧ tableSize ≤ s.rawSize.toNat := by
  simp [usableSection?, Option.filter_eq_some_iff]

/-- **A new section fits** exactly when its number can be counted, its header has room in the header
area and in the file, and the file and the image stay below 4 GiB. -/
theorem newSection_eq_ok_iff {h : Headers} {fileSize tableSize : Nat} {place : NewSection} :
    h.newSection fileSize tableSize = .ok place ↔
      h.sectionCount < maxSectionCount ∧
      h.sectionTableEnd + Section.headerSize ≤ h.sizeOfHeaders.toNat ∧
      h.sectionTableEnd + Section.headerSize ≤ fileSize ∧
      alignUp fileSize fileAlignment + alignUp tableSize fileAlignment < UInt32.size ∧
      alignUp h.mappedEnd sectionAlignment + mappedSize tableSize < UInt32.size ∧
      place.headerOffset = h.sectionTableEnd ∧
      place.virtualAddress.toNat = alignUp h.mappedEnd sectionAlignment ∧
      place.rawOffset.toNat = alignUp fileSize fileAlignment ∧
      place.rawSize.toNat = alignUp tableSize fileAlignment := by
  unfold newSection
  simp only
  -- Each limit is tested in turn. What is left are the numbers, which fit 32 bits by then.
  split
  · next hcount =>
    simp only [reduceCtorEq, false_iff]
    omega
  · next hcount =>
    split
    · next hroom =>
      simp only [reduceCtorEq, false_iff]
      omega
    · next hroom =>
      split
      · next hfile =>
        simp only [reduceCtorEq, false_iff]
        omega
      · next hfile =>
        split
        · next hfits =>
          obtain ⟨hraw, hmapped⟩ := hfits
          constructor
          · intro e
            cases e
            refine ⟨by omega, by omega, by omega, hraw, hmapped, rfl, ?_, ?_, ?_⟩
            · rw [UInt32.toNat_ofNat',
                Nat.mod_eq_of_lt (Nat.lt_of_le_of_lt (Nat.le_add_right _ _) hmapped)]
            · rw [UInt32.toNat_ofNat',
                Nat.mod_eq_of_lt (Nat.lt_of_le_of_lt (Nat.le_add_right _ _) hraw)]
            · rw [UInt32.toNat_ofNat',
                Nat.mod_eq_of_lt (Nat.lt_of_le_of_lt (Nat.le_add_left _ _) hraw)]
          · rintro ⟨-, -, -, -, -, hheader, haddress, hoffset, hsize⟩
            obtain ⟨header, address, offset, size⟩ := place
            simp only at hheader haddress hoffset hsize
            rw [← hheader, ← haddress, ← hoffset, ← hsize]
            simp only [UInt32.ofNat_toNat]
        · next hfits =>
          simp only [reduceCtorEq, false_iff]
          omega

end Headers

namespace Plan

/-- Where a table of the given size goes in a file of the given size. -/
def make (h : Headers) (fileSize tableSize : Nat) : Except Error Plan :=
  if tableSize < UInt32.size then
    match h.usableSection? tableSize with
    | some (s, index) =>
      let last := s.rawOffset.toNat + s.rawSize.toNat
      if last ≤ fileSize then
        .ok (.replace index s)
      else
        .error (.pe (.relocationsOutsideFile s.rawOffset.toNat last))
    | none => (h.newSection fileSize tableSize).map .append
  else
    .error (.relocation .tableTooLarge)

/-- Which way a plan writes the table. -/
def placement : Plan → Placement
  | .replace _ _ => .replaced
  | .append _ => .appended

/-- The address at which the table is mapped. -/
def virtualAddress : Plan → UInt32
  | .replace _ target => target.virtualAddress
  | .append place => place.virtualAddress

/-- **A section is written over** exactly when it is the relocation section, the table fits it, and
its contents are inside the file. -/
theorem make_eq_replace_iff {h : Headers} {fileSize tableSize index : Nat} {s : Section} :
    make h fileSize tableSize = .ok (.replace index s) ↔
      tableSize < UInt32.size ∧ h.usableSection? tableSize = some (s, index) ∧
        s.rawOffset.toNat + s.rawSize.toNat ≤ fileSize := by
  unfold make
  split
  · next hsize =>
    split
    · next found place hfound =>
      rw [hfound]
      simp only
      split
      · next hlast =>
        simp only [Except.ok.injEq, replace.injEq, Option.some.injEq, Prod.mk.injEq]
        constructor
        · rintro ⟨rfl, rfl⟩
          exact ⟨hsize, ⟨rfl, rfl⟩, hlast⟩
        · rintro ⟨-, ⟨rfl, rfl⟩, -⟩
          exact ⟨rfl, rfl⟩
      · next hlast =>
        simp only [reduceCtorEq, Option.some.injEq, Prod.mk.injEq, false_iff]
        rintro ⟨-, ⟨rfl, rfl⟩, h⟩
        exact hlast h
    · next hnone =>
      rw [hnone]
      cases h.newSection fileSize tableSize <;> simp [Except.map]
  · next hsize =>
    simp only [reduceCtorEq, false_iff]
    rintro ⟨h, -⟩
    exact hsize h

end Plan

end Rebase.Pe
