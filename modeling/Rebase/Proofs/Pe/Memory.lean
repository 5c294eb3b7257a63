import Rebase.Proofs.Pe.Growth

/-!
# A new section in memory

A new section is placed behind the headers and behind the section with the highest address. No other
section is looked at, so its place is free as long as that section ends last. It does where no two
sections share an address and the highest one, if it takes up no memory at all, does not start
inside another (`Headers.HighestOutside`): then the new section meets no other, and the image is
made large enough for all of them (`Plan.newSection_apart`).

Two images show both sides of that condition. In each, the highest section is empty. Where it starts
behind the other section, a new section is too (`newSection_apart_emptyHighest`); where the two
start at the same address, a new section is placed over the other one (`newSection_over_another`).
-/

namespace Rebase.Pe

open Bytes Edit

/-! ## §1 Addresses of sections -/

/-- An address is one of those that a section takes up. -/
def Section.Takes (s : Section) (address : Nat) : Prop :=
  s.virtualAddress.toNat ≤ address ∧ address < s.virtualEnd

private theorem Section.virtualAddress_le_virtualEnd (s : Section) :
    s.virtualAddress.toNat ≤ s.virtualEnd :=
  Nat.le_add_right _ _

namespace Headers

variable {h : Headers}

/-- No two sections of an image share an address. -/
def Disjoint (h : Headers) : Prop :=
  ∀ (i j : Nat) (s t : Section), i ≠ j → h.sections[i]? = some s → h.sections[j]? = some t →
    ∀ address, s.Takes address → ¬ t.Takes address

/-- The highest section does not start inside another one, if it takes up no address itself. -/
def HighestOutside (h : Headers) : Prop :=
  ∀ (s : Section) (i : Nat), h.highestSection? = some (s, i) →
  s.virtualEnd = s.virtualAddress.toNat →
    ∀ t ∈ h.sections, ¬ t.Takes s.virtualAddress.toNat

/-- The highest section ends last: another one that ended behind its start would take up that
start. -/
private theorem virtualEnd_le_of_highest (hdisjoint : h.Disjoint) (houtside : h.HighestOutside)
    {best : Section} {i : Nat} (hbest : h.highestSection? = some (best, i)) {s : Section}
    (hs : s ∈ h.sections) : s.virtualEnd ≤ best.virtualEnd := by
  obtain ⟨hi, hmax, _⟩ := highestSection?_eq_some_iff.mp hbest
  obtain ⟨j, hj⟩ := List.mem_iff_getElem?.mp hs
  by_cases hij : j = i
  · subst hij
    rw [hi] at hj
    cases hj
    exact Nat.le_refl _
  have hstart : s.virtualAddress.toNat ≤ best.virtualAddress.toNat := hmax j s hj
  have hbelow : s.virtualEnd ≤ best.virtualAddress.toNat := by
    apply Nat.le_of_not_lt
    intro hlt
    have htakes : s.Takes best.virtualAddress.toNat := ⟨hstart, hlt⟩
    rcases Nat.eq_or_lt_of_le best.virtualAddress_le_virtualEnd with hempty | hpos
    · exact houtside best i hbest hempty.symm s hs htakes
    · exact hdisjoint j i s best hij hj hi _ htakes ⟨Nat.le_refl _, hpos⟩
  exact Nat.le_trans hbelow best.virtualAddress_le_virtualEnd

/-- The memory of the image ends behind all its sections. -/
private theorem virtualEnd_le_mappedEnd_of_mem (hdisjoint : h.Disjoint)
    (houtside : h.HighestOutside)
    {s : Section} (hs : s ∈ h.sections) : s.virtualEnd ≤ h.mappedEnd := by
  cases hbest : h.highestSection? with
  | none =>
    rw [highestSection?_eq_none_iff.mp hbest] at hs
    cases hs
  | some found =>
    obtain ⟨best, i⟩ := found
    exact Nat.le_trans (virtualEnd_le_of_highest hdisjoint houtside hbest hs)
      (virtualEnd_le_mappedEnd hbest)

private theorem sizeOfHeaders_le_mappedEnd (h : Headers) : h.sizeOfHeaders.toNat ≤ h.mappedEnd :=
  Nat.le_max_right _ _

end Headers

/-! ## §2 The place of a new section -/

namespace Plan

variable {h : Headers} {place : NewSection} {fileSize tableSize : Nat}

/-- A new section starts behind the memory of the image. -/
private theorem Suits.mappedEnd_le (hsuits : (append place).Suits h fileSize tableSize) :
    h.mappedEnd ≤ place.virtualAddress.toNat := by
  obtain ⟨_, _, _, _, _, _, haddress, _, _⟩ := Headers.newSection_eq_ok_iff.mp hsuits.2
  rw [haddress]
  exact le_alignUp _ (by decide)

/-- A new section ends before the memory that its table takes up does. -/
private theorem Suits.virtualEnd_toSection_le (hsuits : (append place).Suits h fileSize tableSize)
    (hlt : tableSize < UInt32.size) (discardable : Bool) :
    (place.toSection tableSize discardable).virtualEnd ≤
      place.virtualAddress.toNat + mappedSize tableSize := by
  obtain ⟨_, _, _, _, _, _, _, _, hsize⟩ := Headers.newSection_eq_ok_iff.mp hsuits.2
  have htable := le_alignUp tableSize (show 0 < fileAlignment by decide)
  have hsmall := alignUp_file_le_mappedSize tableSize
  simp only [Section.virtualEnd, NewSection.toSection, UInt32.toNat_ofNat', Nat.mod_eq_of_lt hlt]
  omega

/-- The size of the image that is planned for a new section fits its field. -/
private theorem Suits.toNat_sizeOfImage (hsuits : (append place).Suits h fileSize tableSize) :
    (UInt32.ofNat (place.virtualAddress.toNat + mappedSize tableSize)).toNat =
      place.virtualAddress.toNat + mappedSize tableSize := by
  obtain ⟨_, _, _, _, hmapped, _, haddress, _, _⟩ := Headers.newSection_eq_ok_iff.mp hsuits.2
  rw [← haddress] at hmapped
  rw [UInt32.toNat_ofNat', Nat.mod_eq_of_lt hmapped]

/-- **A new section meets no other.** It starts behind the headers and behind every section of the
image, takes up no address of any of them, and the size that is written for the image covers it and
all others. For this no two sections may share an address, and the highest one must not be an empty
one that starts inside another. -/
theorem newSection_apart {file : Bytes} (hread : Headers.read file = .ok h) (hdisjoint : h.Disjoint)
    (houtside : h.HighestOutside) (hplan : make h fileSize tableSize = .ok (.append place))
    (discardable : Bool) :
    h.sizeOfHeaders.toNat ≤ place.virtualAddress.toNat ∧
    (∀ s ∈ h.sections, s.virtualEnd ≤ place.virtualAddress.toNat) ∧
    (∀ s ∈ h.sections, ∀ address,
      (place.toSection tableSize discardable).Takes address → ¬ s.Takes address) ∧
    ∀ table : BaseRelocation.Table, file.size = fileSize → table.size = tableSize →
      ∃ size, ((append place).apply h table.bytes discardable file).word? UInt32
          h.sizeOfImageOffset = some size ∧
        ∀ s ∈ h.sections ++ [place.toSection tableSize discardable], s.virtualEnd ≤ size.toNat := by
  have hsuits := suits_of_make hplan
  -- The new section starts behind the highest one, and no other ends further on.
  have hstart := hsuits.mappedEnd_le
  have hbehind : ∀ s ∈ h.sections, s.virtualEnd ≤ place.virtualAddress.toNat := fun s hs =>
    Nat.le_trans (Headers.virtualEnd_le_mappedEnd_of_mem hdisjoint houtside hs) hstart
  refine ⟨Nat.le_trans h.sizeOfHeaders_le_mappedEnd hstart, hbehind, ?_, ?_⟩
  · rintro s hs address ⟨hlow, _⟩ ⟨_, hhigh⟩
    have hend := hbehind s hs
    have hfirst : place.virtualAddress.toNat ≤ address := hlow
    omega
  · rintro table rfl rfl
    have hd := Headers.read_eq_ok_iff.mp hread
    refine ⟨UInt32.ofNat (place.virtualAddress.toNat + mappedSize table.size), ?_, fun s hs => ?_⟩
    · rw [← table.size_eq] at hsuits ⊢
      exact word32?_sizeOfImage discardable hd hsuits
    rw [hsuits.toNat_sizeOfImage]
    rcases List.mem_append.mp hs with hold | hnew
    · exact Nat.le_trans (hbehind s hold) (Nat.le_add_right _ _)
    · rw [List.mem_singleton.mp hnew]
      exact hsuits.virtualEnd_toSection_le (lt_of_make hplan) discardable

end Plan

/-! ## §3 Images of two sections -/

/-- Two sections without a common address make up the sections of an image. -/
private theorem Headers.disjoint_pair {h : Headers} {s t : Section}
    (hsections : h.sections = [s, t])
    (happart : ∀ address, s.Takes address → ¬ t.Takes address) : h.Disjoint := by
  intro i j a b hij ha hb
  rw [hsections] at ha hb
  match i, j with
  | 0, 0 => exact absurd rfl hij
  | 0, 1 =>
    cases ha
    cases hb
    exact happart
  | 1, 0 =>
    cases ha
    cases hb
    exact fun address hs ht => happart address ht hs
  | 1, 1 => exact absurd rfl hij
  | i + 2, _ => cases ha
  | _, j + 2 => cases hb

/-- A section takes up no address if it ends where it starts. -/
private theorem Section.not_takes_of_empty {s : Section}
    (hempty : s.virtualEnd = s.virtualAddress.toNat) (address : Nat) : ¬ s.Takes address := by
  rintro ⟨hlow, hhigh⟩
  omega

/-- An image of 368 bytes with two sections. The first one is called `.bss` and takes up 0x2000
addresses from 0x1000 on, the second one is called `.end`, is empty and starts at a multiple of
0x1000. -/
def twoSections (page : UInt8) : Bytes :=
  ⟨⟨List.replicate 0x3C 0 ++ [0x40, 0, 0, 0, 0x50, 0x45, 0, 0, 0x64, 0x86, 2, 0] ++
    List.replicate 12 0 ++ [160, 0, 0x23, 0, 0x0B, 2] ++ List.replicate 54 0 ++
    [0, 0x30, 0, 0, 0, 2, 0, 0] ++ List.replicate 44 0 ++ [6, 0, 0, 0] ++ List.replicate 48 0 ++
    [46, 98, 115, 115, 0, 0, 0, 0, 0, 0x20, 0, 0, 0, 0x10, 0, 0] ++ List.replicate 24 0 ++
    [46, 101, 110, 100, 0, 0, 0, 0, 0, 0, 0, 0, 0, page * 0x10, 0, 0] ++ List.replicate 24 0 ++
    List.replicate 40 0⟩⟩

/-- The headers of such an image, by the address of its second section. -/
def twoHeaders (address : UInt32) : Headers :=
  { bareHeaders with
    sizeOfImage := 0x3000
    sections := [⟨".bss", 0x2000, 0x1000, 0, 0, 0⟩, ⟨".end", 0, address, 0, 0, 0⟩] }

/-- The place of a new section in such an image: where its second section starts. -/
def placeAt (address : UInt32) : NewSection where
  headerOffset := 328
  virtualAddress := address
  rawOffset := 0x200
  rawSize := 0x200

private theorem twoHeaders_disjoint (address : UInt32) : (twoHeaders address).Disjoint :=
  Headers.disjoint_pair rfl fun _ _ => Section.not_takes_of_empty (by simp [Section.virtualEnd]) _

/-- The empty section is the highest one and starts where the other ends. -/
theorem newSection_apart_emptyHighest :
    Headers.read (twoSections 3) = .ok (twoHeaders 0x3000) ∧ (twoHeaders 0x3000).Disjoint ∧
      (twoHeaders 0x3000).HighestOutside ∧
      Plan.make (twoHeaders 0x3000) (twoSections 3).size 12 = .ok (.append (placeAt 0x3000)) ∧
      0x200 ≤ 0x3000 ∧ (∀ s ∈ (twoHeaders 0x3000).sections, s.virtualEnd ≤ 0x3000) ∧
      ∀ s ∈ (twoHeaders 0x3000).sections, ∀ address,
        ((placeAt 0x3000).toSection 12 true).Takes address → ¬ s.Takes address := by
  have hread : Headers.read (twoSections 3) = .ok (twoHeaders 0x3000) := by decide +kernel
  have houtside : (twoHeaders 0x3000).HighestOutside := by
    intro s i hs _ t ht
    have hhighest : (twoHeaders 0x3000).highestSection? =
        some (⟨".end", 0, 0x3000, 0, 0, 0⟩, 1) := by
      decide +kernel
    rw [hhighest] at hs
    cases hs
    rintro ⟨_, hend⟩
    have hlow : ∀ t ∈ (twoHeaders 0x3000).sections, t.virtualEnd ≤ 0x3000 := by decide
    exact absurd hend (Nat.not_lt.mpr (hlow t ht))
  have hplan : Plan.make (twoHeaders 0x3000) (twoSections 3).size 12 =
      .ok (.append (placeAt 0x3000)) := by
    decide +kernel
  obtain ⟨hheaders, hbehind, hapart, _⟩ :=
    Plan.newSection_apart hread (twoHeaders_disjoint 0x3000) houtside hplan true
  exact ⟨hread, twoHeaders_disjoint 0x3000, houtside, hplan, hheaders, hbehind, hapart⟩

/-- The empty section starts where the other one does, and as the last of the two it counts as the
highest: a new section is placed over the other, and the image ends inside it. -/
theorem newSection_over_another :
    Headers.read (twoSections 1) = .ok (twoHeaders 0x1000) ∧ (twoHeaders 0x1000).Disjoint ∧
      Plan.make (twoHeaders 0x1000) (twoSections 1).size 12 = .ok (.append (placeAt 0x1000)) ∧
      ∃ s ∈ (twoHeaders 0x1000).sections, (placeAt 0x1000).virtualAddress.toNat < s.virtualEnd ∧
        s.Takes 0x1000 ∧ ((placeAt 0x1000).toSection 12 true).Takes 0x1000 ∧
        ∀ table : BaseRelocation.Table, table.size = 12 →
          ∃ size, ((Plan.append (placeAt 0x1000)).apply (twoHeaders 0x1000) table.bytes true
              (twoSections 1)).word? UInt32 (twoHeaders 0x1000).sizeOfImageOffset = some size ∧
            size.toNat < s.virtualEnd := by
  have hread : Headers.read (twoSections 1) = .ok (twoHeaders 0x1000) := by decide +kernel
  have hplan : Plan.make (twoHeaders 0x1000) (twoSections 1).size 12 =
      .ok (.append (placeAt 0x1000)) := by
    decide +kernel
  refine ⟨hread, twoHeaders_disjoint 0x1000, hplan, ⟨".bss", 0x2000, 0x1000, 0, 0, 0⟩,
    List.mem_cons_self, by decide, ⟨by decide, by decide⟩, ⟨by decide, by
      decide⟩, fun table htable => ?_⟩
  have hsuits := Plan.suits_of_make hplan
  rw [← htable, ← table.size_eq] at hsuits
  refine ⟨_, Plan.word32?_sizeOfImage true (Headers.read_eq_ok_iff.mp hread) hsuits, ?_⟩
  rw [table.size_eq, htable]
  decide

end Rebase.Pe
