import Rebase.Proofs.Discovery.Pointers
import Rebase.Proofs.Elf.Accepted

/-!
# What the range of an image covers

The range that words are compared with is made from the section table, which has one section of each
name. So it covers the sections that the table keeps: a mapped section counts unless a later one has
its name.

- **Sections**: `Section.Occupies`, the addresses of a mapped section, and `contains_of_occupies`
- **Images**: `imageRange_covers_kept`, said by the section headers of the file
- **Namesakes**: `imageRange_misses_namesake`, a mapped section that does not count
-/

namespace Rebase

open Bytes Fallible

/-! ## §1 Sections -/

namespace Elf

/-- An address is one of a mapped section. The end of the section may be above the last address
there is. -/
def Section.Occupies (s : Section) (address : UInt64) : Prop :=
  0 < s.address.toNat ∧ s.address.toNat ≤ address.toNat ∧
    address.toNat < s.address.toNat + s.size.toNat

theorem Section.Occupies.mapped {s : Section} {address : UInt64} (h : s.Occupies address) :
    0 < s.address.toNat ∧ 0 < s.size.toNat := by
  obtain ⟨hpos, hlow, hhigh⟩ := h
  exact ⟨hpos, by omega⟩

/-- A range that spans some sections contains each of their addresses, but for the last one there
is. -/
theorem AddressRange.Spans.contains_of_occupies {range : AddressRange} {sections : Section → Prop}
    (h : range.Spans sections) {s : Section} (hs : sections s) {address : UInt64}
    (haddress : s.Occupies address) (hlast : address.toNat < 2 ^ 64 - 1) :
    range.contains address = true := by
  have hlow : range.low.toNat ≤ s.address.toNat := h.low.2 ⟨s, hs, rfl⟩
  have hhigh : min (s.address.toNat + s.size.toNat) (UInt64.size - 1) ≤ range.high.toNat :=
    h.high.2 ⟨s, hs, rfl⟩
  obtain ⟨_, hfirst, hbefore⟩ := haddress
  rw [AddressRange.contains_iff]
  simp only [UInt64.size] at hhigh
  omega

/-- In the table of an image the mapped sections are those of the section headers that are kept. -/
theorem SectionTable.Lists.mapped_iff {table : SectionTable} {header : Header} {file : Bytes}
    (h : table.Lists header file) {s : Section} :
    table.Mapped s ↔ (∃ i, header.Keeps file i s) ∧ 0 < s.address.toNat ∧ 0 < s.size.toNat := by
  rw [SectionTable.Mapped, h.exists_get?_iff_keeps]

end Elf

/-! ## §2 Images -/

namespace Discovery

open Elf (AddressRange Header Section SectionTable)

variable {file : Bytes} {table : SectionTable} {order : List Section}

/-- **The range covers what the table keeps.** An accepted image has a section at every index that
its header counts. There is no range exactly when no section is mapped, of those that no later one
of the same name follows. Otherwise the range runs from the least address of such a section to the
greatest end, and contains every address of each of them but the last one there is. If `.data` is
inside the file it is searched, and each of its words that holds one of these is found, if it has an
address itself. -/
theorem imageRange_covers_kept (hread : SectionTable.read file = .ok table)
    (horder : order.Perm table.sections) :
    ∃ header : Header, header.StoredIn file ∧
      (∀ i < header.sectionCount.toNat, ∃ s, header.Holds file i s) ∧
      (Elf.imageRange order = none ↔
        ∀ i s, header.Keeps file i s → ¬ (0 < s.address.toNat ∧ 0 < s.size.toNat)) ∧
      ∀ range, Elf.imageRange order = some range →
        range.Spans (fun s => (∃ i, header.Keeps file i s) ∧ 0 < s.address.toNat ∧
          0 < s.size.toNat) ∧
        (∀ i s address, header.Keeps file i s → s.Occupies address → address.toNat < 2 ^ 64 - 1 →
          range.contains address = true) ∧
        ∀ data, table.get? ".data" = some data → data.offset.toNat + data.size.toNat ≤ file.size →
          ∃ found, scannedAddresses file table order = .ok found ∧
            ∀ index word address, 8 * index + 8 ≤ data.size.toNat →
              file.word? UInt64 (data.offset.toNat + 8 * index) = some word →
              word.toNat < 2 ^ 64 - 1 →
              (∃ i s, header.Keeps file i s ∧ s.Occupies word) →
              address.toNat = data.address.toNat + 8 * index → address ∈ found := by
  obtain ⟨header, hstored, hlists, hall⟩ := SectionTable.exists_holds_of_read hread
  -- The sections of the table are those that no later one of their name follows.
  have hmapped : table.Mapped =
      fun s => (∃ i, header.Keeps file i s) ∧ 0 < s.address.toNat ∧ 0 < s.size.toNat :=
    funext fun s => propext hlists.mapped_iff
  refine ⟨header, hstored, hall, ?_, fun range hrange => ?_⟩
  · simp only [SectionTable.imageRange_eq_none_iff_mapped horder, hmapped, not_and,
      forall_exists_index]
    exact forall_comm
  have hspans := (SectionTable.imageRange_eq_some_iff_spans horder).mp hrange
  rw [hmapped] at hspans
  have hcontains : ∀ i s address, header.Keeps file i s → s.Occupies address →
      address.toNat < 2 ^ 64 - 1 → range.contains address = true :=
    fun i s address hkeeps haddress =>
      hspans.contains_of_occupies ⟨⟨i, hkeeps⟩, haddress.mapped⟩ haddress
  refine ⟨hspans, hcontains, ?_⟩
  intro data hdata hinside
  have hcontents := Section.contents_eq_ok_iff.mpr ⟨hinside, rfl⟩
  rw [scannedAddresses_of_target hdata hrange, hcontents]
  refine ⟨_, rfl, ?_⟩
  rintro index word address hwhole hword hlast ⟨i, s, hkeeps, hoccupies⟩ haddress
  rw [AddressSet.mem_ofList, mem_pointerAddresses_iff hcontents]
  -- A word that is an address of a mapped section is in the range, so it is taken for a pointer.
  refine ⟨index, ⟨hwhole, ⟨word, hword, ?_⟩, haddress ▸ address.toNat_lt⟩, haddress⟩
  exact AddressRange.contains_iff.mp (hcontains i s word hkeeps hoccupies hlast)

/-- Two sections called `.text`, mapped at 0x1000 and 0x2000, and a `.data` of two words. -/
def textTwice : List Section :=
  [⟨".text", 0x1000, 0, 8, 1, 0⟩, ⟨".text", 0x2000, 0, 8, 1, 0⟩, ⟨".data", 0x3000, 256, 16, 1, 0⟩]

/-- A source image with these sections. The words of `.data` hold the addresses of the two others,
and the names are behind it. -/
def textTwiceImage : Bytes :=
  Elf.imageOf 2 (List.zipWith Section.headerBytes textTwice [22, 22, 16])
    (LittleEndian.encode 8 0x1000 ++ LittleEndian.encode 8 0x2000 ++
      [46, 100, 97, 116, 97, 0, 46, 116, 101, 120, 116, 0])

private theorem sections_textTwiceImage :
    ∃ header : Header, Header.read textTwiceImage = .ok header ∧ header.machine = .riscv64 ∧
      header.sections textTwiceImage = .ok textTwice := by
  have hfacts : (Header.read textTwiceImage).map (fun header =>
      (header.machine, header.sections textTwiceImage)) = .ok (.riscv64, .ok textTwice) := by
    decide +kernel
  obtain ⟨header, hheader, hfacts⟩ := map_eq_ok_iff.mp hfacts
  obtain ⟨hmachine, hsections⟩ := Prod.mk.inj hfacts
  exact ⟨header, hheader, hmachine, hsections⟩

private theorem scannedAddresses_textTwiceImage :
    ∃ found, scannedAddresses textTwiceImage (SectionTable.ofSections .riscv64 textTwice)
      (SectionTable.ofSections .riscv64 textTwice).sections = .ok found ∧
        found.toList = [0x3008] := by
  have hfacts : (scannedAddresses textTwiceImage (SectionTable.ofSections .riscv64 textTwice)
      (SectionTable.ofSections .riscv64 textTwice).sections).map (fun found => found.toList) =
        .ok [0x3008] := by
    decide +kernel
  exact map_eq_ok_iff.mp hfacts

/-- The second `.text` is kept, so the range starts with it, and its address is found in `.data`. -/
theorem imageRange_covers_kept_textTwice :
    ∃ table range found, SectionTable.read textTwiceImage = .ok table ∧
      table.sections.Perm table.sections ∧ Elf.imageRange table.sections = some range ∧
      scannedAddresses textTwiceImage table table.sections = .ok found ∧
      range.low = 0x2000 ∧ found.toList = [0x3008] ∧
      ∃ header : Header, header.StoredIn textTwiceImage ∧
        range.Spans (fun s => (∃ i, header.Keeps textTwiceImage i s) ∧ 0 < s.address.toNat ∧
          0 < s.size.toNat) ∧
        ∀ i s address, header.Keeps textTwiceImage i s → s.Occupies address →
          address.toNat < 2 ^ 64 - 1 → range.contains address = true := by
  obtain ⟨header, hheader, hmachine, hsections⟩ := sections_textTwiceImage
  have hread := SectionTable.read_eq_ok_iff_steps.mpr ⟨header, _, hheader, hsections, rfl⟩
  rw [hmachine] at hread
  obtain ⟨found, hfound, hlist⟩ := scannedAddresses_textTwiceImage
  have hrange : Elf.imageRange (SectionTable.ofSections .riscv64 textTwice).sections =
      some ⟨0x2000, 0x3010⟩ := by
    decide +kernel
  obtain ⟨header, hstored, _, _, hcovers⟩ := imageRange_covers_kept hread (List.Perm.refl _)
  obtain ⟨hspans, hcontains, _⟩ := hcovers _ hrange
  exact ⟨_, _, found, hread, .refl _, hrange, hfound, rfl, hlist, header, hstored, hspans,
    hcontains⟩

/-- The first `.text` is mapped at 0x1000 and is not kept. The range does not contain this address,
and the word of `.data` that holds it is not found. -/
theorem imageRange_misses_namesake :
    ∃ header table range data found, Header.StoredIn header textTwiceImage ∧
      SectionTable.read textTwiceImage = .ok table ∧ Elf.imageRange table.sections = some range ∧
      (∃ s, header.Holds textTwiceImage 0 s ∧ s.Occupies 0x1000) ∧ range.contains 0x1000 = false ∧
      table.get? ".data" = some data ∧ data.address = 0x3000 ∧ 8 ≤ data.size.toNat ∧
      textTwiceImage.word? UInt64 data.offset.toNat = some 0x1000 ∧
      scannedAddresses textTwiceImage table table.sections = .ok found ∧ 0x3000 ∉ found := by
  obtain ⟨header, hheader, hmachine, hsections⟩ := sections_textTwiceImage
  have hread := SectionTable.read_eq_ok_iff_steps.mpr ⟨header, _, hheader, hsections, rfl⟩
  rw [hmachine] at hread
  obtain ⟨found, hfound, hlist⟩ := scannedAddresses_textTwiceImage
  have hrange : Elf.imageRange (SectionTable.ofSections .riscv64 textTwice).sections =
      some ⟨0x2000, 0x3010⟩ := by
    decide +kernel
  have hdata : (SectionTable.ofSections .riscv64 textTwice).get? ".data" =
      some ⟨".data", 0x3000, 256, 16, 1, 0⟩ := by
    decide +kernel
  have hfirst : header.Holds textTwiceImage 0 ⟨".text", 0x1000, 0, 8, 1, 0⟩ :=
    (Header.getElem?_sections_iff_holds hsections 0 _).mp rfl
  have hmissing : (0x3000 : UInt64) ∉ found := by
    rw [← Std.ExtTreeSet.mem_toList, hlist]
    decide
  exact ⟨header, _, _, _, found, (Header.read_eq_ok_iff.mp hheader).2, hread, hrange,
    ⟨_, hfirst, by decide, by decide, by decide⟩, by
      decide, hdata, rfl, by decide, by decide +kernel, hfound,
    hmissing⟩

end Discovery

end Rebase
