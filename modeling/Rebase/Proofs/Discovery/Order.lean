import Rebase.Discovery.Basic
import Rebase.Proofs.Elf.ImageRange
import Rebase.Proofs.Fallible

/-!
# The order of the sections

A machine may list the sections of an image in any order. The records of one section are read after
those of another, and the range of the image is widened by one mapped section after another. Neither
result keeps a trace of the order: the addresses are a set, and a range is said by the sections that
it spans. Where several sections are wrong, the order decides which of them is reported, and nothing
else.

- **Ranges**: `imageRange_perm`
- **Addresses**: `recordedAddresses_perm` and `scannedAddresses_perm`
- **Discovery**: `inOrder_perm`, which says the same of both sources together, and `RefusedTwo`, the
  one case in which the order shows
-/

namespace Rebase

open Fallible

variable {o₁ o₂ : List Elf.Section}

/-- **The range of an image** does not depend on the order of its sections. -/
theorem Elf.imageRange_perm (h : o₁.Perm o₂) : imageRange o₁ = imageRange o₂ := by
  apply Option.ext
  intro range
  simp only [imageRange_eq_some_iff, h.mem_iff]

namespace Discovery

variable {machine : Elf.Machine} {file : Bytes} {table : Elf.SectionTable} {found : AddressSet}
  {e : ElfSectionFault}

theorem exists_recordedAddresses_iff :
    (∃ found, recordedAddresses machine file o₁ = .ok found) ↔
      ∀ s ∈ o₁.filter holdsRecords, ∃ addresses,
        sectionAddresses machine file s = .ok addresses := by
  rw [← exists_mapM_iff, recordedAddresses]
  simp only [map_eq_ok_iff]
  exact ⟨fun ⟨_, lists, hlists, _⟩ => ⟨lists, hlists⟩,
    fun ⟨lists, hlists⟩ => ⟨_, lists, hlists, rfl⟩⟩

/-- The addresses of records are those of any section that is read. -/
theorem mem_recordedAddresses_iff (h : recordedAddresses machine file o₁ = .ok found)
    {address : UInt64} :
    address ∈ found ↔ ∃ s ∈ o₁.filter holdsRecords, ∃ addresses,
      sectionAddresses machine file s = .ok addresses ∧ address ∈ addresses := by
  obtain ⟨lists, hlists, rfl⟩ := map_eq_ok_iff.mp h
  rw [AddressSet.mem_ofList, mem_flatten_of_mapM hlists]

/-- **The addresses that records give** do not depend on the order of the sections. -/
theorem recordedAddresses_perm (h : o₁.Perm o₂)
    (hfound : recordedAddresses machine file o₁ = .ok found) :
    recordedAddresses machine file o₂ = .ok found := by
  have hmem : ∀ s, s ∈ o₁.filter holdsRecords ↔ s ∈ o₂.filter holdsRecords :=
    fun s => (h.filter holdsRecords).mem_iff
  have hall := exists_recordedAddresses_iff.mp ⟨found, hfound⟩
  simp only [hmem] at hall
  obtain ⟨found', hfound'⟩ := exists_recordedAddresses_iff.mpr hall
  have hsame : found' = found := by
    apply Std.ExtTreeSet.ext_mem
    intro address
    rw [mem_recordedAddresses_iff hfound', mem_recordedAddresses_iff hfound]
    simp only [hmem]
  rw [hfound', hsame]

/-- **The addresses of pointers** do not depend on it either, nor does what is reported when there
are none. -/
theorem scannedAddresses_perm (h : o₁.Perm o₂) :
    scannedAddresses file table o₁ = scannedAddresses file table o₂ := by
  rw [scannedAddresses, scannedAddresses, scan, scan, scanTarget, scanTarget, Elf.imageRange_perm h]

/-- Two faults are those of two sections whose records are refused. -/
def RefusedTwo (machine : Elf.Machine) (file : Bytes) (sections : List Elf.Section)
    (e e' : ElfSectionFault) : Prop :=
  ∃ s t, s ∈ sections.filter holdsRecords ∧ t ∈ sections.filter holdsRecords ∧ s ≠ t ∧
    sectionAddresses machine file s = .error e ∧ sectionAddresses machine file t = .error e'

/-- Records that are refused are so because of one of their sections. -/
theorem exists_refused (h : recordedAddresses machine file o₁ = .error e) :
    ∃ s ∈ o₁.filter holdsRecords, sectionAddresses machine file s = .error e :=
  exists_mem_of_mapM_eq_error (map_eq_error_iff.mp h)

/-- **What is discovered** does not depend on the order of the sections, and neither does the fault
that is reported, unless the records of two sections are refused. -/
theorem inOrder_perm (scan : Bool) (file : Bytes) (table : Elf.SectionTable)
    (h₁ : o₁.Perm table.sections) (h₂ : o₂.Perm table.sections) :
    Agree (fun e e' => e = e' ∨ RefusedTwo table.machine file table.sections e e')
      (inOrder scan file table o₁) (inOrder scan file table o₂) := by
  have h : o₁.Perm o₂ := h₁.trans h₂.symm
  have hrecorded : Agree (fun e e' => e = e' ∨ RefusedTwo table.machine file table.sections e e')
      (recordedAddresses table.machine file o₁) (recordedAddresses table.machine file o₂) := by
    refine .of_eq_ok_iff (fun _ => ⟨recordedAddresses_perm h, recordedAddresses_perm h.symm⟩) ?_
    intro e e' he he'
    obtain ⟨s, hs, hse⟩ := exists_refused he
    obtain ⟨t, ht, hte⟩ := exists_refused he'
    by_cases hsame : s = t
    · subst hsame
      exact .inl (Except.error.inj (hse.symm.trans hte))
    · exact .inr ⟨s, t, (h₁.filter _).mem_iff.mp hs, (h₂.filter _).mem_iff.mp ht, hsame, hse, hte⟩
  unfold inOrder
  rw [scannedAddresses_perm h]
  exact hrecorded.bind fun recorded _ => .refl (fun _ => .inl rfl) _

end Discovery

end Rebase
