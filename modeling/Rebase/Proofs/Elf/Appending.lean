import Rebase.Proofs.Elf.Accepted

/-!
# Bytes behind a source image

A source image says itself where its parts are, and of no part that it reaches to the end of the
file. So whatever is read of an image is read in the same way when other bytes follow it. What is
refused can be accepted then: the missing bytes of an image that was cut short may follow.

Each reading of a file is therefore `Below` the same reading of a longer one. This is shown for the
single reads, of the header, a section header, a name and the contents of a section, and passes to
the section table by the steps of its reading.

- **Names**: `NameAt.append`; the end of a name is searched for, with no other bound than the end of
  the file
- **Section headers**: `Header.sections_append`
- **Tables**: `SectionTable.read_append`
-/

namespace Rebase.Elf

open Bytes Fallible

variable {file more : Bytes}

/-! ## §1 Single reads -/

/-- The end of a name is inside the file, so the search for it does not go on behind the file. -/
theorem NameAt.append {start : Nat} {name : String} (h : NameAt file start name) :
    NameAt (file ++ more) start name := by
  obtain ⟨text, htext, hname⟩ := fromUTF8?_cstring?_eq_some_iff.mpr h
  exact fromUTF8?_cstring?_eq_some_iff.mp ⟨text, cstring?_append more htext, hname⟩

theorem Section.contents_append (s : Section) :
    Below (s.contents file) (s.contents (file ++ more)) := by
  intro bytes h
  have hslice := slice?_append more (slice?_of_contents h)
  exact contents_eq_ok_iff.mpr (slice?_eq_some_iff.mp hslice)

namespace Header

/-- Only the first 64 bytes of a file are looked at for the header. -/
theorem read_append : Below (read file) (read (file ++ more)) := by
  intro header h
  unfold read at h ⊢
  cases hraw : file.slice? 0 byteSize with
  | none =>
    rw [hraw] at h
    cases h
  | some raw =>
    rw [hraw] at h
    rw [slice?_append more hraw]
    exact h

/-- A header that was cut short is refused, and read with the rest of it behind. -/
example : (read (SectionTable.namesakes.extract 0 63)).isOk = false ∧
    (read (SectionTable.namesakes.extract 0 63 ++ SectionTable.namesakes.extract 63 64)).isOk =
      true := by
  decide +kernel

variable (header : Header)

private theorem sectionHeaderAt_append (i : Nat) :
    Below (header.sectionHeaderAt file i) (header.sectionHeaderAt (file ++ more) i) := by
  intro raw h
  obtain ⟨hword, hraw⟩ := sectionHeaderAt_eq_ok_iff_lt.mp h
  exact sectionHeaderAt_eq_ok_iff_lt.mpr ⟨hword, slice?_append more hraw⟩

/-! ## §2 Sections -/

private theorem nameTable_append :
    Below (header.nameTable file) (header.nameTable (file ++ more)) := by
  intro names h
  obtain ⟨hlarge, hindex, raw, hraw, hstart⟩ := nameTable_eq_ok_iff_lt.mp h
  exact nameTable_eq_ok_iff_lt.mpr
    ⟨hlarge, hindex, raw, header.sectionHeaderAt_append _ raw hraw, hstart⟩

private theorem sectionAt_append (names i : Nat) :
    Below (header.sectionAt file names i) (header.sectionAt (file ++ more) names i) := by
  intro s h
  obtain ⟨raw, name, hraw, hname, hs⟩ := sectionAt_eq_ok_iff_steps.mp h
  exact sectionAt_eq_ok_iff_steps.mpr
    ⟨raw, name, header.sectionHeaderAt_append i raw hraw, hname.append, hs⟩

/-- **The sections of an image** are found again with bytes behind it. -/
theorem sections_append : Below (header.sections file) (header.sections (file ++ more)) := by
  unfold sections
  split
  · exact .refl _
  · exact header.nameTable_append.bind fun names => .mapM (header.sectionAt_append names) _

end Header

/-- **An accepted image** has the same section table with bytes behind it. -/
theorem SectionTable.read_append : Below (read file) (read (file ++ more)) := by
  unfold read
  refine (Header.read_append.mapError Error.elfHeader).bind fun header => ?_
  exact (header.sections_append.mapError Error.elfSection).bind fun found => .refl _

end Rebase.Elf
