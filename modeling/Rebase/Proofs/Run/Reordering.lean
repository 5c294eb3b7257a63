import Rebase.Proofs.Elf.Reordering
import Rebase.Proofs.Run.Order

/-!
# Runs do not depend on an order

The sections of a source are listed in an order that nothing fixes, neither the machine that keeps
them nor the linker that wrote their headers. A run shows no trace of either order: with the
sections listed in another way, and with the section headers of the source put in another order, the
same addresses are found and the same bytes are written. Only where a run fails, another one of
several faults can be reported.

- **Contents**: `inOrder_congr`, what is found depends on the contents of the sections that are read
- **Reordering**: `run_reordered`
-/

namespace Rebase

open Fallible
open Elf (Header Section SectionTable)

/-! ## §1 Contents -/

namespace Discovery

/-- The sections that are read have the same contents in another file. -/
def KeepsContents (header : Header) (before after : Bytes) : Prop :=
  ∀ i s, header.Holds before i s → s.name = scannedSection ∨ s.name ∈ recordSections →
    after.slice? s.offset.toNat s.size.toNat = before.slice? s.offset.toNat s.size.toNat

variable {before after : Bytes} {table : SectionTable} {order : List Section}

/-- The records of sections with the same contents give the same addresses. -/
private theorem recordedAddresses_congr {machine : Elf.Machine}
    (h : ∀ s ∈ order, s.name ∈ recordSections → s.contents after = s.contents before) :
    recordedAddresses machine after order = recordedAddresses machine before order := by
  have hmapM : ∀ sections : List Section,
      (∀ s ∈ sections, sectionAddresses machine after s = sectionAddresses machine before s) →
      sections.mapM (sectionAddresses machine after) =
        sections.mapM (sectionAddresses machine before) := by
    intro sections hall
    induction sections with
    | nil => rfl
    | cons s rest ih =>
      rw [List.forall_mem_cons] at hall
      rw [List.mapM_cons, List.mapM_cons, hall.1, ih hall.2]
  rw [recordedAddresses, recordedAddresses, hmapM]
  intro s hs
  obtain ⟨hs, hholds⟩ := List.mem_filter.mp hs
  simp only [holdsRecords, Bool.and_eq_true, decide_eq_true_eq] at hholds
  rw [sectionAddresses, sectionAddresses, h s hs hholds.2]

/-- A section with the same contents is searched with the same result. -/
private theorem scannedAddresses_congr
    (h : ∀ s, table.get? scannedSection = some s → s.contents after = s.contents before) :
    scannedAddresses after table order = scannedAddresses before table order := by
  unfold scannedAddresses scan scanTarget
  cases hs : table.get? scannedSection with
  | none => rfl
  | some s =>
    cases Elf.imageRange order with
    | none => rfl
    | some range => simp only [Option.bind_eq_bind, Option.bind_some, Option.pure_def, h s hs]

/-- **What is found in an image** depends on its section table and the contents of the sections that
are read. -/
theorem inOrder_congr {header : Header} (hread : SectionTable.read before = .ok table)
    (hheader : header.StoredIn before) (hcontents : KeepsContents header before after)
    (horder : order.Perm table.sections) (scan : Bool) :
    inOrder scan after table order = inOrder scan before table order := by
  obtain ⟨stored, hstored, hlists, _⟩ := SectionTable.exists_holds_of_read hread
  obtain rfl := hstored.unique hheader
  have hsame : ∀ s, (∃ name, table.get? name = some s) →
      s.name = scannedSection ∨ s.name ∈ recordSections → s.contents after = s.contents before := by
    intro s hs hname
    obtain ⟨i, hholds, _⟩ := hlists.exists_get?_iff_keeps.mp hs
    rw [Section.contents, Section.contents, hcontents i s hholds hname]
  have hrecorded : recordedAddresses table.machine after order =
      recordedAddresses table.machine before order :=
    recordedAddresses_congr fun s hs hname =>
      hsame s ((table.mem_sections_iff s).mp (horder.mem_iff.mp hs)) (.inr hname)
  have hscanned : scannedAddresses after table order = scannedAddresses before table order :=
    scannedAddresses_congr fun s hs =>
      hsame s ⟨_, hs⟩ (.inl (SectionTable.name_of_read hread hs))
  unfold inOrder
  rw [hrecorded, hscanned]

end Discovery

/-! ## §2 A source of two sections -/

/-- Whether two headers are the same, field by field. -/
instance decidableEqHeader : DecidableEq Header := fun a b =>
  decidable_of_iff
    (a.ident.data.toList = b.ident.data.toList ∧ a.machine = b.machine ∧ a.fileType = b.fileType ∧
      a.version = b.version ∧ a.entry = b.entry ∧ a.programHeaderOffset = b.programHeaderOffset ∧
      a.sectionHeaderOffset = b.sectionHeaderOffset ∧ a.flags = b.flags ∧
        a.headerSize = b.headerSize ∧
      a.programHeaderSize = b.programHeaderSize ∧ a.programHeaderCount = b.programHeaderCount ∧
      a.sectionHeaderSize = b.sectionHeaderSize ∧ a.sectionCount = b.sectionCount ∧
      a.nameTableIndex = b.nameTableIndex)
    (by
      cases a
      cases b
      simp [ByteArray.ext_iff, and_left_comm])

/-- The header of a source image with two section headers behind it, the second that of the
names. -/
def pairHeader : Header where
  machine := .riscv64
  ident := ⟨#[0x7F, 0x45, 0x4C, 0x46, 2, 1, 1, 0, 0, 0, 0, 0, 0, 0, 0, 0]⟩
  fileType := 2
  version := 1
  entry := 0
  programHeaderOffset := 0
  sectionHeaderOffset := 64
  flags := 0
  headerSize := 64
  programHeaderSize := 0
  programHeaderCount := 0
  sectionHeaderSize := 64
  sectionCount := 2
  nameTableIndex := 1

/-- A `.data` of one word behind the section headers, or one that is made of the two section
headers, and the section of the names. -/
def pairSections (overlapping : Bool) : List Section :=
  [if overlapping then ⟨".data", 0x1000, 64, 24, 1, 0⟩ else ⟨".data", 0x1000, 192, 8, 1, 0⟩,
    ⟨".shstrtab", 0, 200, 16, 3, 0⟩]

/-- What is behind the section headers: a word that holds the address of `.data`, and the names. -/
def pairRest : List UInt8 :=
  LittleEndian.encode 8 0x1000 ++ ".data".toUTF8.data.toList ++ 0 ::
    ".shstrtab".toUTF8.data.toList ++ [0]

/-- A source image with these sections. -/
def pairImage (overlapping : Bool) : Bytes :=
  Elf.imageOf 1 (List.zipWith Section.headerBytes (pairSections overlapping) [0, 6]) pairRest

/-- The image with its section headers the other way round. -/
def swappedImage (overlapping : Bool) : Bytes :=
  Elf.imageOf 0 (List.zipWith Section.headerBytes (pairSections overlapping) [0, 6]).reverse
    pairRest

private theorem read_pairHeader (overlapping : Bool) :
    Header.read (pairImage overlapping) = .ok pairHeader := by
  cases overlapping <;> decide +kernel

private theorem pairHeader_sections (overlapping : Bool) :
    pairHeader.sections (pairImage overlapping) = .ok (pairSections overlapping) := by
  cases overlapping <;> decide +kernel

private theorem read_pairImage (overlapping : Bool) :
    SectionTable.read (pairImage overlapping) =
      .ok (SectionTable.ofSections .riscv64 (pairSections overlapping)) :=
  SectionTable.read_eq_ok_iff_steps.mpr
    ⟨pairHeader, _, read_pairHeader overlapping, pairHeader_sections overlapping, rfl⟩

/-- The bytes that change are those of the two section headers and of the index of the names. -/
private theorem pairHeader_moves {p : Nat} : pairHeader.Moves p ↔ 62 ≤ p ∧ p < 192 := by
  have hstart : ∀ i, pairHeader.sectionHeaderStart i = 64 + i * 64 := fun _ => rfl
  have hsize : pairHeader.sectionHeaderSize.toNat = 64 := rfl
  have hcount : pairHeader.sectionCount.toNat = 2 := rfl
  simp only [Header.Moves, hstart, hsize, hcount]
  constructor
  · rintro (h | ⟨i, hi, h⟩) <;> omega
  · intro h
    by_cases hindex : p < 64
    · exact .inl ⟨h.1, hindex⟩
    · exact .inr ⟨(p - 64) / 64, by omega, by omega, by omega⟩

/-- The section headers of the image are those of the other one, the other way round. -/
private theorem toList_swappedImage (overlapping : Bool) :
    (swappedImage overlapping).size = 216 ∧ (pairImage overlapping).size = 216 ∧
      (swappedImage overlapping).data.toList.take 62 = (pairImage overlapping).data.toList.take 62 ∧
      (swappedImage overlapping).data.toList.drop 192 =
        (pairImage overlapping).data.toList.drop 192 ∧
      ∀ i : Fin 2, ((swappedImage overlapping).data.toList.drop (128 - 64 * i)).take 64 =
        ((pairImage overlapping).data.toList.drop (64 + 64 * i)).take 64 := by
  cases overlapping <;> decide +kernel

private theorem pairHeader_permutes (overlapping : Bool) :
    pairHeader.Permutes (Equiv.swap (0 : Fin 2) 1) (pairImage overlapping)
      (swappedImage overlapping) := by
  obtain ⟨hsize, hsize', hfront, hback, hmoved⟩ := toList_swappedImage overlapping
  exact {
    count := rfl
    size := hsize.trans hsize'.symm
    elsewhere := by
      intro p hp
      rw [pairHeader_moves] at hp
      simp only [← Array.getElem?_toList]
      -- What is not moved stands in front of the index of the names or behind both headers.
      rcases Nat.lt_or_ge p 62 with hlow | hhigh
      · rw [← List.getElem?_take_of_lt hlow, hfront, List.getElem?_take_of_lt hlow]
      · obtain ⟨k, rfl⟩ := Nat.exists_eq_add_of_le (show 192 ≤ p by omega)
        rw [← List.getElem?_drop, hback, List.getElem?_drop]
    sectionHeaders := by
      intro i
      have hstart : pairHeader.sectionHeaderStart i = 64 + 64 * i := by
        rw [Header.sectionHeaderStart, Nat.mul_comm]
        rfl
      have hmoves : ∀ i : Fin 2,
          pairHeader.sectionHeaderStart (Equiv.swap (0 : Fin 2) 1 i) = 128 - 64 * i := by
        decide
      rw [hmoves, hstart]
      exact Bytes.slice?_eq_of_toList (by rw [hsize, Section.headerByteSize]; omega)
        (by rw [hsize', Section.headerByteSize]; omega) (hmoved i)
    nameTable := by cases overlapping <;> decide +kernel }

/-- The two sections of the image, one at each index. -/
private theorem pairHeader_holds (overlapping : Bool) {i : Nat} {s : Section}
    (h : pairHeader.Holds (pairImage overlapping) i s) : (pairSections overlapping)[i]? = some s :=
  (Header.getElem?_sections_iff_holds (pairHeader_sections overlapping) i s).mpr h

private theorem pairHeader_names (overlapping : Bool) (i j : Nat) (s t : Section)
    (hs : pairHeader.Holds (pairImage overlapping) i s)
    (ht : pairHeader.Holds (pairImage overlapping) j t) (hname : s.name = t.name) : i = j := by
  have hdistinct : ((pairSections overlapping).map Section.name).Nodup := by
    cases overlapping <;> decide
  have hs := pairHeader_holds overlapping hs
  have ht := pairHeader_holds overlapping ht
  have hi : i < ((pairSections overlapping).map Section.name).length := by
    rw [List.length_map]
    exact (List.getElem?_eq_some_iff.mp hs).1
  refine (List.getElem?_inj hi hdistinct).mp ?_
  rw [List.getElem?_map, List.getElem?_map, hs, ht, Option.map_some, Option.map_some, hname]

/-- The names are behind the section headers. -/
private theorem pairHeader_apart (overlapping : Bool) :
    pairHeader.Apart (pairImage overlapping) where
  fields := fun p hp hmoves => by
    rw [pairHeader_moves] at hmoves
    omega
  names := by
    rintro i hi start ⟨_, table, raw, htable, hraw, rfl⟩
    have hnames := Bytes.word?_inside UInt64 htable (show 24 + 8 ≤ Section.headerByteSize by decide)
    have hdistance := Bytes.word?_inside UInt32 hraw (show 0 + 4 ≤ Section.headerByteSize by decide)
    have hfacts : (pairImage overlapping).word? UInt64
        (pairHeader.sectionHeaderStart pairHeader.nameTableIndex.toNat + 24) = some 200 ∧
        (∀ i : Fin 2, (pairImage overlapping).word? UInt32 (pairHeader.sectionHeaderStart i) =
          some (if i = 0 then 0 else 6)) ∧
        (pairImage overlapping).findZero? 200 = some 205 ∧
        (pairImage overlapping).findZero? 206 = some 215 := by
      cases overlapping <;> decide +kernel
    obtain ⟨hstart, hdistances, hfirst, hsecond⟩ := hfacts
    rw [Section.nameOffset, Option.some.inj (hnames.symm.trans hstart),
      Option.some.inj (hdistance.symm.trans (hdistances ⟨i, hi⟩))]
    have hkept : ∀ p, 200 ≤ p → ¬ pairHeader.Moves p := fun p hp hmoves => by
      rw [pairHeader_moves] at hmoves
      omega
    split
    · exact ⟨205, hfirst, fun p hp _ => hkept p hp⟩
    · exact ⟨215, hsecond, fun p hp _ => hkept p (Nat.le_of_add_right_le hp)⟩

/-- Where `.data` is behind the section headers, its contents stay what they are. -/
private theorem pairHeader_keepsContents :
    Discovery.KeepsContents pairHeader (pairImage false) (swappedImage false) := by
  intro i s hs hname
  have hmem := List.mem_of_getElem? (pairHeader_holds false hs)
  have hdata : ∀ s ∈ pairSections false, s.name = Discovery.scannedSection ∨
      s.name ∈ Discovery.recordSections → 192 ≤ s.offset.toNat := by
    decide
  refine (pairHeader_permutes false).slice?_eq fun p hp _ hmoves => ?_
  have hbehind := hdata s hmem hname
  rw [pairHeader_moves] at hmoves
  omega

private theorem discover_pairImage :
    ∃ d, discover true (pairImage false) = .ok d ∧ d.addresses.toList = [0x1000] := by
  have hfacts : (Discovery.ofImage true (pairImage false)
      (SectionTable.ofSections .riscv64 (pairSections false))).map (fun d => d.addresses.toList) =
        .ok [0x1000] := by
    decide +kernel
  obtain ⟨d, hd, hlist⟩ := map_eq_ok_iff.mp hfacts
  exact ⟨d, bind_eq_ok_iff.mpr ⟨_, read_pairImage false, mapError_eq_ok_iff.mpr hd⟩, hlist⟩

/-! ## §3 Reordering -/

/-- **No order matters.** For any section table and any two orders of its sections, the range of the
image is the same, and discovery gives the same or fails both times with a fault of a section. In a
source in which each name is that of one section, the section headers can be put in another order.
If this keeps what they lead to, the rest of the header, the names and the contents of the sections
that are read, then the same is discovered, and runs end alike and write the same, in whatever
orders the sections of the two sources are listed. -/
theorem run_reordered :
    (∀ (scan : Bool) (file : Bytes) (table : SectionTable) (o₁ o₂ : List Section),
      o₁.Perm table.sections → o₂.Perm table.sections →
        Elf.imageRange o₁ = Elf.imageRange o₂ ∧
        Agree (fun e e' => e.kind = .elfSection ∧ e'.kind = .elfSection)
          ((Discovery.inOrder scan file table o₁).mapError Error.elfSection)
          ((Discovery.inOrder scan file table o₂).mapError Error.elfSection)) ∧
    ∀ (header : Header) (n : Nat) (σ : Equiv.Perm (Fin n)) (before after : Bytes),
      Header.read before = .ok header →
      (∀ i j s t, header.Holds before i s → header.Holds before j t → s.name = t.name → i = j) →
      header.Permutes σ before after → header.KeepsRest before after →
      Discovery.KeepsContents header before after →
        ∀ order₁ order₂ : SectionTable → List Section,
          (∀ table, (order₁ table).Perm table.sections) →
          (∀ table, (order₂ table).Perm table.sections) →
          (∀ scan, Agree SameKind (discoverIn order₁ scan before) (discoverIn order₂ scan after)) ∧
          ∀ (options : Options) (pe : Bytes),
            Agree SameKind (runIn order₁ options before pe).1 (runIn order₂ options after pe).1 ∧
            (runIn order₁ options before pe).2 = (runIn order₂ options after pe).2 := by
  constructor
  · intro scan file table o₁ o₂ ho₁ ho₂
    exact ⟨Elf.imageRange_perm (ho₁.trans ho₂.symm),
      (Discovery.inOrder_perm scan file table ho₁ ho₂).mapError Error.elfSection
        fun _ _ _ => ⟨rfl, rfl⟩⟩
  · intro header n σ before after hheader hnames hperm hrest hcontents order₁ order₂ ho₁ ho₂
    have hread : Agree SameKind (SectionTable.read before) (SectionTable.read after) :=
      (SectionTable.read_permuted hheader hnames hperm hrest).imp fun _ _ h => h.1.trans h.2.symm
    have hfound : ∀ scan table, SectionTable.read before = .ok table → Agree (fun _ _ => True)
        (Discovery.inOrder scan before table (order₁ table))
        (Discovery.inOrder scan after table (order₂ table)) := by
      intro scan table htable
      -- The contents are the same in either file, so only the two orders are left to compare.
      rw [Discovery.inOrder_congr htable (Header.read_eq_ok_iff.mp hheader).2 hcontents (ho₂ table)]
      exact (Discovery.inOrder_perm scan before table (ho₁ table) (ho₂ table)).imp
        fun _ _ _ => trivial
    refine ⟨fun scan => agree_discoverIn hread (hfound scan), fun options pe => ?_⟩
    have hprepared := agree_prepareIn hread (hfound options.scan) pe
    rw [runIn_fst, runIn_fst]
    exact ⟨hprepared.map _, finish_snd_congr hprepared options pe⟩

/-- The word of `.data` is found in both images, in whichever order their sections are listed, and
the same is written. -/
theorem run_reordered_pairImage :
    ∃ d, Header.read (pairImage false) = .ok pairHeader ∧
      pairHeader.Permutes (Equiv.swap (0 : Fin 2) 1) (pairImage false) (swappedImage false) ∧
      pairHeader.KeepsRest (pairImage false) (swappedImage false) ∧
      Discovery.KeepsContents pairHeader (pairImage false) (swappedImage false) ∧
      Elf.imageRange (SectionTable.ofSections .riscv64 (pairSections false)).sections =
        Elf.imageRange (SectionTable.ofSections .riscv64 (pairSections false)).sections.reverse ∧
      d.addresses.toList = [0x1000] ∧ discover true (pairImage false) = .ok d ∧
      discoverIn (fun table => table.sections.reverse) true (swappedImage false) = .ok d ∧
      ∀ options pe, (run options (pairImage false) pe).2 =
        (runIn (fun table => table.sections.reverse) options (swappedImage false) pe).2 := by
  have hheader := read_pairHeader false
  have hperm := pairHeader_permutes false
  have hrest := hperm.keepsRest (pairHeader_apart false)
  have hreverse : ∀ table : SectionTable, table.sections.reverse.Perm table.sections :=
    fun table => List.reverse_perm table.sections
  obtain ⟨d, hd, hlist⟩ := discover_pairImage
  obtain ⟨horders, hmoved⟩ := run_reordered
  obtain ⟨hrange, _⟩ := horders true (pairImage false) _ _ _ (.refl _) (hreverse _)
  obtain ⟨hfound, hruns⟩ := hmoved pairHeader 2 _ _ _ hheader (pairHeader_names false) hperm hrest
    pairHeader_keepsContents SectionTable.sections _ (fun _ => .refl _) hreverse
  refine ⟨d, hheader, hperm, hrest, pairHeader_keepsContents, hrange, hlist, hd, ?_,
    fun options pe => ?_⟩
  · exact (hfound true).eq_ok_iff.mp hd
  · exact (hruns options pe).2

/-- Where `.data` is made of a section header, moving the section headers moves what it holds: the
address that was found in it is no longer there, though the names and the rest of the header are the
same. -/
theorem swapped_overlapping :
    ∃ d d', Header.read (pairImage true) = .ok pairHeader ∧
      (∀ i j s t, pairHeader.Holds (pairImage true) i s → pairHeader.Holds (pairImage true) j t →
        s.name = t.name → i = j) ∧
      pairHeader.Permutes (Equiv.swap (0 : Fin 2) 1) (pairImage true) (swappedImage true) ∧
      pairHeader.KeepsRest (pairImage true) (swappedImage true) ∧
      discover true (pairImage true) = .ok d ∧ d.addresses.toList = [0x1010] ∧
      discover true (swappedImage true) = .ok d' ∧ d'.addresses.toList = [] := by
  have hheader := read_pairHeader true
  have hperm := pairHeader_permutes true
  have hrest := hperm.keepsRest (pairHeader_apart true)
  have hread := read_pairImage true
  have hread' :=
    (SectionTable.read_permuted hheader (pairHeader_names true) hperm hrest).eq_ok_iff.mp hread
  have hfacts : (Discovery.ofImage true (pairImage true)
        (SectionTable.ofSections .riscv64 (pairSections true))).map (fun d => d.addresses.toList) =
          .ok [0x1010] ∧
      (Discovery.ofImage true (swappedImage true)
        (SectionTable.ofSections .riscv64 (pairSections true))).map (fun d => d.addresses.toList) =
          .ok [] := by
    constructor <;> decide +kernel
  obtain ⟨hfirst, hsecond⟩ := hfacts
  obtain ⟨d, hd, hlist⟩ := map_eq_ok_iff.mp hfirst
  obtain ⟨d', hd', hlist'⟩ := map_eq_ok_iff.mp hsecond
  exact ⟨d, d', hheader, pairHeader_names true, hperm, hrest,
    bind_eq_ok_iff.mpr ⟨_, hread, mapError_eq_ok_iff.mpr hd⟩, hlist,
    bind_eq_ok_iff.mpr ⟨_, hread', mapError_eq_ok_iff.mpr hd'⟩, hlist'⟩

end Rebase
