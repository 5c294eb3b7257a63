import Mathlib.Order.Bounds.Basic
import Rebase.Proofs.Checked.Destination
import Rebase.Proofs.Pe.Frame

/-!
# What fits an image, and what is refused

A table is refused for the first of several limits that it exceeds: 4 GiB for the table, the
contents of the section that it would go into, 65535 sections, the header area, the file, and 4 GiB
again for the new file and for the new image. The sums that are compared with the limits are sums of
integers here. A machine computes them in words, and rounds by masking bits out; for no image does
that make a difference.

- **Rounding**: `toNat_alignWord`, masking gives the least multiple
- **Refusals**: `Headers.NoPlace` and `Plan.Refused`, each reason with its error, and
  `Plan.make_eq_error_iff`
- **Places**: `Headers.exists_newSection_iff`
- **Plans**: `Plan.make_exact`
-/

namespace Rebase.Pe

open Bytes Fallible

/-! ## §1 Rounding -/

/-- A number is the least multiple of a step that is not below another one. -/
def LeastMultiple (step n m : Nat) : Prop := IsLeast {k | step ∣ k ∧ n ≤ k} m

private theorem leastMultiple_alignUp (n : Nat) {step : Nat} (hstep : 0 < step) :
    LeastMultiple step n (alignUp n step) :=
  ⟨⟨dvd_alignUp n step, le_alignUp n hstep⟩, fun _ ⟨hdvd, hle⟩ => alignUp_le hstep hdvd hle⟩

/-- Rounding up as a machine does it, by a sum and a mask. -/
def alignWord (n step : UInt64) : UInt64 := (n + step - 1) &&& ~~~(step - 1)

/-- Masking the low bits out of a word leaves the multiple of the power of two below it. -/
private theorem and_mask_eq {n step : Nat} (hn : n < UInt64.size) (hstep : step.isPowerOfTwo)
    (hle : step ≤ UInt64.size) : n &&& (UInt64.size - 1 - (step - 1)) = n / step * step := by
  obtain ⟨k, rfl⟩ := hstep
  have hpos := Nat.two_pow_pos k
  have hmask : UInt64.size - 1 - (2 ^ k - 1) = 2 ^ 64 - (2 ^ k - 1 + 1) := by
    simp only [UInt64.size]
    omega
  apply Nat.eq_of_testBit_eq
  intro i
  rw [hmask, Nat.testBit_and, Nat.testBit_two_pow_sub_succ (Nat.lt_of_lt_of_le (by omega) hle),
    Nat.testBit_two_pow_sub_one, Nat.testBit_mul_two_pow, Nat.testBit_div_two_pow]
  by_cases hlow : i < k
  · simp [hlow, Nat.not_le.mpr hlow]
  by_cases hhigh : i < 64
  · simp [hlow, hhigh, Nat.sub_add_cancel (Nat.not_lt.mp hlow), Nat.not_lt.mp hlow]
  · -- Above the word there is nothing to mask.
    have hzero := Nat.testBit_lt_two_pow (Nat.lt_of_lt_of_le hn
      (Nat.pow_le_pow_right Nat.two_pos (Nat.not_lt.mp hhigh)))
    simp [hzero, Nat.sub_add_cancel (Nat.not_lt.mp hlow)]

/-- **Rounding by a mask** gives the multiple that `alignUp` gives, where the sum is a word. -/
theorem toNat_alignWord {n step : UInt64} (hstep : step.toNat.isPowerOfTwo)
    (hsum : n.toNat + step.toNat < UInt64.size) :
    (alignWord n step).toNat = alignUp n.toNat step.toNat := by
  have hpos : 0 < step.toNat := Nat.pos_of_isPowerOfTwo hstep
  have hone : (1 : UInt64) ≤ step := UInt64.le_iff_toNat_le.mpr hpos
  have hadd : (n + step).toNat = n.toNat + step.toNat := by
    rw [UInt64.toNat_add, Nat.mod_eq_of_lt hsum]
  have hle : (1 : UInt64) ≤ n + step := by
    rw [UInt64.le_iff_toNat_le, hadd]
    exact Nat.le_add_left_of_le hpos
  have hlast : (n + step - 1).toNat = n.toNat + step.toNat - 1 := by
    rw [UInt64.toNat_sub_of_le _ _ hle, hadd]
    rfl
  have hmask : (~~~(step - 1)).toNat = UInt64.size - 1 - (step.toNat - 1) := by
    rw [UInt64.toNat_not, UInt64.toNat_sub_of_le _ _ hone]
    rfl
  rw [alignWord, UInt64.toNat_and, hlast, hmask,
    and_mask_eq (Nat.lt_of_le_of_lt (Nat.sub_le _ _) hsum) hstep (Nat.le_of_lt step.toNat_lt)]
  rfl

/-! ## §2 Refusals -/

section Refusals

variable (h : Headers) (fileSize tableSize : Nat)

/-- Why there is no place for a new section, with what is reported. -/
inductive Headers.NoPlace : Error → Prop
  | sectionTableFull (hcount : maxSectionCount ≤ h.sectionCount) :
      NoPlace (.capacity (.sectionTableFull h.sectionCount))
  | noHeaderRoom (hcount : h.sectionCount < maxSectionCount)
      (hroom : h.sizeOfHeaders.toNat < h.sectionTableEnd + Section.headerSize) :
      NoPlace (.capacity (.noHeaderRoom h.sectionTableEnd h.sizeOfHeaders.toNat))
  | outsideFile (hcount : h.sectionCount < maxSectionCount)
      (hroom : h.sectionTableEnd + Section.headerSize ≤ h.sizeOfHeaders.toNat)
      (hfile : fileSize < h.sectionTableEnd + Section.headerSize) :
      NoPlace (.pe (.headerAreaOutsideFile (h.sectionTableEnd + Section.headerSize)))
  | imageTooLarge (hcount : h.sectionCount < maxSectionCount)
      (hroom : h.sectionTableEnd + Section.headerSize ≤ h.sizeOfHeaders.toNat)
      (hfile : h.sectionTableEnd + Section.headerSize ≤ fileSize)
      (hlarge : UInt32.size ≤ alignUp fileSize fileAlignment + alignUp tableSize fileAlignment ∨
        UInt32.size ≤ alignUp h.mappedEnd sectionAlignment + mappedSize tableSize) :
      NoPlace (.capacity .imageTooLarge)

/-- Why a table is refused, with what is reported. -/
inductive Plan.Refused : Error → Prop
  | tooLarge (hsize : UInt32.size ≤ tableSize) : Refused (.relocation .tableTooLarge)
  | outsideFile {s : Section} {index : Nat} (hsize : tableSize < UInt32.size)
      (husable : h.usableSection? tableSize = some (s, index))
      (hfile : fileSize < s.rawOffset.toNat + s.rawSize.toNat) :
      Refused
        (.pe (.relocationsOutsideFile s.rawOffset.toNat (s.rawOffset.toNat + s.rawSize.toNat)))
  | noPlace {e : Error} (hsize : tableSize < UInt32.size)
    (husable : h.usableSection? tableSize = none)
      (hplace : h.NoPlace fileSize tableSize e) : Refused e

end Refusals

variable {h : Headers} {fileSize tableSize : Nat} {e : Error}

/-- **A new section is refused** for the first limit that it exceeds. -/
theorem Headers.newSection_eq_error_iff :
    h.newSection fileSize tableSize = .error e ↔ h.NoPlace fileSize tableSize e := by
  unfold newSection
  simp only
  constructor
  · intro hrefused
    -- The first test that fails names the limit; those before it were passed.
    split at hrefused
    · next hcount =>
      cases hrefused
      exact .sectionTableFull hcount
    next hcount =>
    split at hrefused
    · next hroom =>
      cases hrefused
      exact .noHeaderRoom (Nat.not_le.mp hcount) hroom
    next hroom =>
    split at hrefused
    · next hfile =>
      cases hrefused
      exact .outsideFile (Nat.not_le.mp hcount) (Nat.not_lt.mp hroom) hfile
    next hfile =>
    split at hrefused
    · cases hrefused
    · next hfits =>
      cases hrefused
      exact .imageTooLarge (Nat.not_le.mp hcount) (Nat.not_lt.mp hroom) (Nat.not_lt.mp hfile)
        (by omega)
  · intro hplace
    cases hplace with
    | sectionTableFull hcount => rw [if_pos hcount]
    | noHeaderRoom hcount hroom => rw [if_neg (Nat.not_le.mpr hcount), if_pos hroom]
    | outsideFile hcount hroom hfile =>
      rw [if_neg (Nat.not_le.mpr hcount), if_neg (Nat.not_lt.mpr hroom), if_pos hfile]
    | imageTooLarge hcount hroom hfile hlarge =>
      rw [if_neg (Nat.not_le.mpr hcount), if_neg (Nat.not_lt.mpr hroom),
        if_neg (Nat.not_lt.mpr hfile), if_neg (by omega)]

/-- **A table is refused** for the first limit that it exceeds. -/
theorem Plan.make_eq_error_iff :
    make h fileSize tableSize = .error e ↔ Refused h fileSize tableSize e := by
  unfold make
  -- The cases are those of the function; in each of them one refusal is left that can be.
  by_cases hsize : tableSize < UInt32.size
  case neg =>
    rw [if_neg hsize]
    constructor
    · rintro ⟨⟩
      exact .tooLarge (Nat.not_lt.mp hsize)
    · rintro (_ | ⟨hlt, _, _⟩ | ⟨hlt, _, _⟩)
      · rfl
      · exact absurd hlt hsize
      · exact absurd hlt hsize
  rw [if_pos hsize]
  cases husable : h.usableSection? tableSize with
  | some found =>
    obtain ⟨s, index⟩ := found
    by_cases hfile : s.rawOffset.toNat + s.rawSize.toNat ≤ fileSize
    · simp only [if_pos hfile, reduceCtorEq, false_iff]
      rintro (hlarge | ⟨_, hfound, hout⟩ | ⟨_, hnone, _⟩)
      · exact absurd hsize (Nat.not_lt.mpr hlarge)
      · cases husable.symm.trans hfound
        exact absurd hfile (Nat.not_le.mpr hout)
      · cases husable.symm.trans hnone
    · simp only [if_neg hfile]
      constructor
      · rintro ⟨⟩
        exact .outsideFile hsize husable (Nat.not_le.mp hfile)
      · rintro (hlarge | ⟨_, hfound, _⟩ | ⟨_, hnone, _⟩)
        · exact absurd hsize (Nat.not_lt.mpr hlarge)
        · cases husable.symm.trans hfound
          rfl
        · cases husable.symm.trans hnone
  | none =>
    simp only [map_eq_error_iff, Headers.newSection_eq_error_iff]
    constructor
    · exact .noPlace hsize husable
    · rintro (hlarge | ⟨_, hfound, _⟩ | ⟨_, _, hplace⟩)
      · exact absurd hsize (Nat.not_lt.mpr hlarge)
      · cases husable.symm.trans hfound
      · exact hplace

/-- **A new section has a place** as soon as it exceeds no limit. -/
theorem Headers.exists_newSection_iff :
    (∃ place, h.newSection fileSize tableSize = .ok place) ↔
      h.sectionCount < maxSectionCount ∧
        h.sectionTableEnd + Section.headerSize ≤ min h.sizeOfHeaders.toNat fileSize ∧
        alignUp fileSize fileAlignment + alignUp tableSize fileAlignment < UInt32.size ∧
        alignUp h.mappedEnd sectionAlignment + mappedSize tableSize < UInt32.size := by
  constructor
  · rintro ⟨place, hplace⟩
    obtain ⟨hcount, hroom, hin, hraw, hmapped, _⟩ := newSection_eq_ok_iff.mp hplace
    exact ⟨hcount, Nat.le_min.mpr ⟨hroom, hin⟩, hraw, hmapped⟩
  · rintro ⟨hcount, hroom, hraw, hmapped⟩
    obtain ⟨hroom, hin⟩ := Nat.le_min.mp hroom
    cases hnew : h.newSection fileSize tableSize with
    | ok place => exact ⟨place, rfl⟩
    | error e =>
      -- Each refusal contradicts one of the bounds.
      cases newSection_eq_error_iff.mp hnew with
      | sectionTableFull hfull => exact absurd hcount (Nat.not_lt.mpr hfull)
      | noHeaderRoom _ hnoRoom => exact absurd hroom (Nat.not_le.mpr hnoRoom)
      | outsideFile _ _ hout => exact absurd hin (Nat.not_le.mpr hout)
      | imageTooLarge _ _ _ hlarge =>
        rcases hlarge with hlarge | hlarge
        · exact absurd hraw (Nat.not_lt.mpr hlarge)
        · exact absurd hmapped (Nat.not_lt.mpr hlarge)

/-- The file alone is too short for one more section header. -/
def Headers.EndsBeforeHeader (h : Headers) (fileSize : Nat) : Prop :=
  h.sectionCount < 65535 ∧ h.sectionTableEnd + 40 ≤ h.sizeOfHeaders.toNat ∧
    fileSize < h.sectionTableEnd + 40

/-- A file that is too short is a fault of the image. Everything else is a lack of room. -/
private theorem Headers.NoPlace.fault (hplace : h.NoPlace fileSize tableSize e) :
    (h.EndsBeforeHeader fileSize → ∃ fault, e = .pe fault) ∧
      (¬ h.EndsBeforeHeader fileSize → ∃ fault, e = .capacity fault) := by
  cases hplace with
  | sectionTableFull hcount =>
    exact ⟨fun ⟨hlt, _⟩ => absurd hlt (Nat.not_lt.mpr hcount), fun _ => ⟨_, rfl⟩⟩
  | noHeaderRoom hcount hroom =>
    exact ⟨fun ⟨_, hle, _⟩ => absurd hle (Nat.not_le.mpr hroom), fun _ => ⟨_, rfl⟩⟩
  | outsideFile hcount hroom hout =>
    exact ⟨fun _ => ⟨_, rfl⟩, fun hnot => absurd ⟨hcount, hroom, hout⟩ hnot⟩
  | imageTooLarge hcount hroom hin hlarge =>
    exact ⟨fun ⟨_, _, hlt⟩ => absurd hin (Nat.not_le.mpr hlt), fun _ => ⟨_, rfl⟩⟩

/-! ## §3 Plans -/

/-- Where the highest section of an image ends in memory, or zero. -/
def Headers.highestEnd (h : Headers) : Nat :=
  h.highestSection?.elim 0 fun found => found.1.virtualEnd

/-- The numbers of a new section, as integers: where its contents are in the file and how much room
they take there, where it is mapped, and how much memory it takes. -/
structure Layout (h : Headers) (fileSize tableSize offset size address memory : Nat) : Prop where
  offset : LeastMultiple 0x200 fileSize offset
  size : LeastMultiple 0x200 tableSize size
  address : LeastMultiple 0x1000 (max h.sizeOfHeaders.toNat h.highestEnd) address
  memory : LeastMultiple 0x1000 (max tableSize 1) memory

private theorem Headers.max_highestEnd (h : Headers) :
    max h.sizeOfHeaders.toNat h.highestEnd = h.mappedEnd := by
  rw [mappedEnd, Nat.max_comm, highestEnd]
  cases h.highestSection? <;> rfl

private theorem layout_alignUp (h : Headers) (fileSize tableSize : Nat) :
    Layout h fileSize tableSize (alignUp fileSize fileAlignment) (alignUp tableSize fileAlignment)
      (alignUp h.mappedEnd sectionAlignment) (mappedSize tableSize) where
  offset := leastMultiple_alignUp fileSize (by decide)
  size := leastMultiple_alignUp tableSize (by decide)
  address := by
    rw [h.max_highestEnd]
    exact leastMultiple_alignUp h.mappedEnd (by decide)
  memory := leastMultiple_alignUp (max tableSize 1) (by decide)

/-- The numbers of a new section as a machine computes them. -/
structure LayoutInWords (h : Headers) (fileSize tableSize offset size address memory : Nat) :
    Prop where
  offset : (alignWord (UInt64.ofNat fileSize) 0x200).toNat = offset
  size : (alignWord (UInt64.ofNat tableSize) 0x200).toNat = size
  address :
    (alignWord (UInt64.ofNat (max h.sizeOfHeaders.toNat h.highestEnd)) 0x1000).toNat = address
  memory : (alignWord (UInt64.ofNat (max tableSize 1)) 0x1000).toNat = memory

/-- **The numbers of a new section are words**, for a file that a machine can hold. -/
theorem layoutInWords_alignUp (h : Headers) {fileSize tableSize : Nat}
    (hfile : fileSize ≤ Checked.maxBufferSize) (htable : tableSize < UInt32.size) :
    LayoutInWords h fileSize tableSize (alignUp fileSize fileAlignment)
      (alignUp tableSize fileAlignment) (alignUp h.mappedEnd sectionAlignment)
        (mappedSize tableSize) := by
  have hmapped := Checked.mappedEnd_lt h
  simp only [UInt32.size] at htable hmapped
  simp only [Checked.maxBufferSize] at hfile
  have hround : ∀ n (step : UInt64), n ≤ 0x7FFFFFFFFFFFFFFF → step.toNat.isPowerOfTwo →
      step.toNat ≤ 0x1000 → (alignWord (UInt64.ofNat n) step).toNat = alignUp n step.toNat := by
    intro n step hn hstep hle
    have hsum : n + step.toNat < UInt64.size := by
      simp only [UInt64.size]
      omega
    have hword : (UInt64.ofNat n).toNat = n := UInt64.toNat_ofNat_of_lt' (by omega)
    rw [toNat_alignWord hstep (hword.symm ▸ hsum), hword]
  have hfilePower : (0x200 : UInt64).toNat.isPowerOfTwo := ⟨9, rfl⟩
  have hsectionPower : (0x1000 : UInt64).toNat.isPowerOfTwo := ⟨12, rfl⟩
  exact {
    offset := hround fileSize 0x200 hfile hfilePower (by decide)
    size := hround tableSize 0x200 (by omega) hfilePower (by decide)
    address := by
      rw [h.max_highestEnd]
      exact hround h.mappedEnd 0x1000 (by omega) hsectionPower (by decide)
    memory := hround (max tableSize 1) 0x1000 (by omega) hsectionPower (by decide) }

namespace Plan

variable {file : Bytes}

/-- With a section to write over, a plan is made as soon as its contents are in the file. -/
private theorem make_of_usable {s : Section} {index : Nat} (hsize : tableSize < UInt32.size)
    (hs : h.relocationSection? = some (s, index)) (hfits : tableSize ≤ s.rawSize.toNat) :
    (s.rawOffset.toNat + s.rawSize.toNat ≤ fileSize →
      make h fileSize tableSize = .ok (.replace index s)) ∧
    (fileSize < s.rawOffset.toNat + s.rawSize.toNat →
      ∃ fault, make h fileSize tableSize = .error (.pe fault)) :=
  ⟨fun hfile => make_eq_ok_iff.mpr ⟨hsize, hs, hfits, hfile⟩, fun hfile => ⟨_, make_eq_error_iff.mpr
    (.outsideFile hsize (Headers.usableSection?_eq_some_iff.mpr ⟨hs, hfits⟩) hfile)⟩⟩

/-- Without a section to write over, a plan is the place for a new one. -/
private theorem make_of_not_usable (hsize : tableSize < UInt32.size)
    (hnone : h.usableSection? tableSize = none) :
    make h fileSize tableSize = (h.newSection fileSize tableSize).map .append := by
  unfold make
  rw [if_pos hsize, hnone]

/-- **Which tables get a place.** For the headers of an image and a file that a machine can hold,
finding the place of a table does not stop the machine, and the numbers that it computes are the
integers that they stand for. A table of 4 GiB or more is refused as such. If the relocation section
is large enough for the table, the table goes there, or is refused because the contents of the
section are not in the file. Otherwise it goes into a new section exactly when one more section can
be counted, its header has room in the header area and in the file, and both the new file and the
new image end below 4 GiB; the new section has exactly these numbers. Where only the file is too
short for the header, this is what is reported, and else a lack of room. -/
theorem make_exact (hread : Headers.read file = .ok h) (hfile : fileSize ≤ Checked.maxBufferSize)
    (tableSize : Nat) :
    Checked.EndsAs (Checked.makePlan h fileSize tableSize) (make h fileSize tableSize) ∧
    (UInt32.size ≤ tableSize → ∃ fault, make h fileSize tableSize = .error (.relocation fault)) ∧
    (tableSize < UInt32.size →
      (∀ s index, h.relocationSection? = some (s, index) → tableSize ≤ s.rawSize.toNat →
        (s.rawOffset.toNat + s.rawSize.toNat ≤ fileSize →
          make h fileSize tableSize = .ok (.replace index s)) ∧
        (fileSize < s.rawOffset.toNat + s.rawSize.toNat →
          ∃ fault, make h fileSize tableSize = .error (.pe fault))) ∧
      ((∀ s index, h.relocationSection? = some (s, index) → s.rawSize.toNat < tableSize) →
        ∃ offset size address memory,
          Layout h fileSize tableSize offset size address memory ∧
          LayoutInWords h fileSize tableSize offset size address memory ∧
          ((∃ place, make h fileSize tableSize = .ok (.append place)) ↔
            h.sectionCount < 65535 ∧ h.sectionTableEnd + 40 ≤ min h.sizeOfHeaders.toNat fileSize ∧
              offset + size < UInt32.size ∧ address + memory < UInt32.size) ∧
          (∀ plan, make h fileSize tableSize = .ok plan → ∃ place, plan = .append place ∧
            place.headerOffset = h.sectionTableEnd ∧ place.virtualAddress.toNat = address ∧
            place.rawOffset.toNat = offset ∧ place.rawSize.toNat = size) ∧
          ∀ e, make h fileSize tableSize = .error e →
            (h.EndsBeforeHeader fileSize → ∃ fault, e = .pe fault) ∧
            (¬ h.EndsBeforeHeader fileSize → ∃ fault, e = .capacity fault))) := by
  have hend := Checked.sectionTableEnd_lt (Headers.read_eq_ok_iff.mp hread)
  refine ⟨Checked.makePlan_endsAs tableSize hfile hend,
    fun hlarge => ⟨_, make_eq_error_iff.mpr (.tooLarge hlarge)⟩,
    fun hsize => ⟨fun s index => make_of_usable hsize, ?_⟩⟩
  -- A relocation section that is too small is no better than none.
  intro hsmall
  have hnone : h.usableSection? tableSize = none := by
    cases husable : h.usableSection? tableSize with
    | none => rfl
    | some found =>
      obtain ⟨hfound, hfits⟩ := Headers.usableSection?_eq_some_iff.mp husable
      exact absurd hfits (Nat.not_le.mpr (hsmall _ _ hfound))
  rw [make_of_not_usable hsize hnone]
  refine ⟨_, _, _, _, layout_alignUp h fileSize tableSize, layoutInWords_alignUp h hfile hsize,
    ?_, ?_, ?_⟩
  · simp only [map_eq_ok_iff, append.injEq, exists_eq_right, Headers.exists_newSection_iff]
    rfl
  · intro plan hplan
    obtain ⟨place, hplace, rfl⟩ := map_eq_ok_iff.mp hplan
    obtain ⟨_, _, _, _, _, hheader, haddress, hoffset, hrawSize⟩ :=
      Headers.newSection_eq_ok_iff.mp hplace
    exact ⟨place, rfl, hheader, haddress, hoffset, hrawSize⟩
  · intro e hrefused
    exact (Headers.newSection_eq_error_iff.mp (map_eq_error_iff.mp hrefused)).fault

/-- In the largest file that there can be, the image without sections has room for the header of a
new section, but the contents of the section would end above 4 GiB. In its own file it gets the
section. -/
theorem make_exact_bareImage :
    Headers.read bareImage = .ok bareHeaders ∧
      (∃ fault, make bareHeaders Checked.maxBufferSize 12 = .error (.capacity fault)) ∧
      ∃ place, make bareHeaders bareImage.size 12 = .ok (.append place) ∧
        place.headerOffset = bareHeaders.sectionTableEnd := by
  have hnone : ∀ s index, bareHeaders.relocationSection? = some (s, index) →
      s.rawSize.toNat < 12 := by
    intro s index hs
    cases hs
  have hfile : bareImage.size ≤ Checked.maxBufferSize := by decide +kernel
  obtain ⟨-, -, hsmall⟩ := make_exact read_bareImage (Nat.le_refl Checked.maxBufferSize) 12
  obtain ⟨_, _, _, _, -, -, -, -, hrefused⟩ := (hsmall (by decide)).2 hnone
  obtain ⟨-, -, hsmall⟩ := make_exact read_bareImage hfile 12
  obtain ⟨_, _, _, _, -, -, -, hplanned, -⟩ := (hsmall (by decide)).2 hnone
  refine ⟨read_bareImage, ?_, ?_⟩
  · have hlarge : make bareHeaders Checked.maxBufferSize 12 =
        .error (.capacity .imageTooLarge) := by
      decide +kernel
    obtain ⟨fault, hfault⟩ := (hrefused _ hlarge).2 fun ⟨_, _, hshort⟩ => absurd hshort (by decide)
    exact ⟨fault, hfault ▸ hlarge⟩
  · have hplan : make bareHeaders bareImage.size 12 = .ok (.append barePlace) := by decide +kernel
    obtain ⟨place, hplace, hheader, -⟩ := hplanned _ hplan
    exact ⟨place, hplace ▸ hplan, hheader⟩

end Plan

end Rebase.Pe
