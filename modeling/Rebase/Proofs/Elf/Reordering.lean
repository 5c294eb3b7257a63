import Mathlib.Data.List.FinRange
import Rebase.Proofs.Elf.Accepted

/-!
# Section headers in another order

The section headers of an image can be put in another order, as long as the index of the one that
holds the names is changed with them. If what they lead to stays the same, the names and the rest of
the header, the image has the same sections, and as a table of sections by name it is the same:
where each name is used once, no section hides another.

- **Moved section headers**: `Header.Permutes`, and `Header.Permutes.keepsRest` for images in which
  the section headers share no byte with what they lead to
- **Reading**: `Header.Permutes.read_eq_ok`, the header, and `Header.Permutes.sections_eq_ok`, the
  sections
- **Tables**: `SectionTable.ofSections_perm` and `SectionTable.read_permuted`
-/

namespace Rebase.Elf

open Bytes Fallible

/-! ## §1 Moved section headers -/

namespace Header

/-- The header of an image whose section headers are moved, that of each index to the index that `σ`
gives. The index of the names is changed with them, if it is that of a section. -/
def moved (header : Header) {n : Nat} (σ : Equiv.Perm (Fin n)) : Header :=
  { header with
    nameTableIndex :=
      if h : header.nameTableIndex.toNat < n then
        UInt16.ofNat (σ ⟨header.nameTableIndex.toNat, h⟩).val
      else header.nameTableIndex }

/-- A byte changes when section headers are moved: it is one of a section header or of the index of
the names. -/
def Moves (header : Header) (p : Nat) : Prop :=
  (62 ≤ p ∧ p < 64) ∨ ∃ i < header.sectionCount.toNat,
    header.sectionHeaderStart i ≤ p ∧
      p < header.sectionHeaderStart i + header.sectionHeaderSize.toNat

/-- One file is another one with its section headers in another order. -/
structure Permutes (header : Header) {n : Nat} (σ : Equiv.Perm (Fin n)) (before after : Bytes) :
    Prop where
  count : header.sectionCount.toNat = n
  size : after.size = before.size
  elsewhere : ∀ p, ¬ header.Moves p → after.data[p]? = before.data[p]?
  sectionHeaders : ∀ i, after.slice? (header.sectionHeaderStart (σ i)) Section.headerByteSize =
    before.slice? (header.sectionHeaderStart i) Section.headerByteSize
  nameTable : after.word? UInt16 62 = some (header.moved σ).nameTableIndex

/-- The name of the section of an index starts at an offset: so many bytes behind the start of the
names, which the section header of another section gives. -/
def NameStart (header : Header) (file : Bytes) (i start : Nat) : Prop :=
  header.nameTableIndex.toNat < header.sectionCount.toNat ∧ ∃ table raw : Bytes,
    file.slice? (header.sectionHeaderStart header.nameTableIndex.toNat) Section.headerByteSize =
      some table ∧
    file.slice? (header.sectionHeaderStart i) Section.headerByteSize = some raw ∧
    (table.word UInt64 24).toNat + Section.nameOffset raw = start

/-- What is read of a file besides its section headers and the index of the names is the same in
another one: the rest of the header, and the names. -/
structure KeepsRest (header : Header) (before after : Bytes) : Prop where
  fields : after.slice? 0 62 = before.slice? 0 62
  names : ∀ i < header.sectionCount.toNat, ∀ start, header.NameStart before i start →
    after.cstring? start = before.cstring? start

/-- The section headers of a file share no byte with the rest of its header or with the names. -/
structure Apart (header : Header) (file : Bytes) : Prop where
  fields : ∀ p < 62, ¬ header.Moves p
  names : ∀ i < header.sectionCount.toNat, ∀ start, header.NameStart file i start →
    ∃ stop, file.findZero? start = some stop ∧ ∀ p, start ≤ p → p ≤ stop → ¬ header.Moves p

variable {header : Header} {n : Nat} {σ : Equiv.Perm (Fin n)} {before after : Bytes}
  {found : List Section}

/-- A range without a byte that changes is the same in both files. -/
theorem Permutes.slice?_eq (h : header.Permutes σ before after) {offset length : Nat}
    (hkept : ∀ p, offset ≤ p → p < offset + length → ¬ header.Moves p) :
    after.slice? offset length = before.slice? offset length :=
  slice?_congr (by rw [h.size]) fun p hfirst hlast => h.elsewhere p (hkept p hfirst hlast)

/-- **Section headers that are apart** can be moved without a change to what they lead to. -/
theorem Permutes.keepsRest (h : header.Permutes σ before after) (hapart : header.Apart before) :
    header.KeepsRest before after where
  fields := h.slice?_eq fun p _ hp => hapart.fields p (by omega)
  names := by
    intro i hi start hstart
    obtain ⟨stop, hstop, hkept⟩ := hapart.names i hi start hstart
    exact cstring?_congr hstop fun p hfirst hlast => h.elsewhere p (hkept p hfirst hlast)

/-! ## §2 The other way round -/

/-- Where the names were found through a section header, they are found through it at its new
index. -/
private theorem toNat_moved (hcount : header.sectionCount.toNat = n) (i : Fin n)
    (hi : header.nameTableIndex.toNat = i.val) :
    (header.moved σ).nameTableIndex.toNat = (σ i).val := by
  have hlt : (σ i).val < UInt16.size :=
    Nat.lt_trans (hcount ▸ (σ i).isLt) header.sectionCount.toNat_lt
  have hindex : header.nameTableIndex.toNat < n := hi ▸ i.isLt
  have hi : (⟨header.nameTableIndex.toNat, hindex⟩ : Fin n) = i := Fin.ext hi
  rw [moved, dif_pos hindex, hi, UInt16.toNat_ofNat_of_lt' hlt]

/-- Section headers that are moved back are where they were. -/
theorem moved_moved (hcount : header.sectionCount.toNat = n) :
    (header.moved σ).moved σ.symm = header := by
  have hback : ((header.moved σ).moved σ.symm).nameTableIndex = header.nameTableIndex := by
    by_cases hindex : header.nameTableIndex.toNat < n
    · apply UInt16.toNat.inj
      have hmoved := toNat_moved (σ := σ) hcount ⟨_, hindex⟩ rfl
      rw [@toNat_moved (header.moved σ) n σ.symm hcount _ hmoved, σ.symm_apply_apply]
    · have hmoved : (header.moved σ).nameTableIndex = header.nameTableIndex := by
        rw [moved, dif_neg hindex]
      rw [moved, hmoved, dif_neg hindex]
  cases header
  simp only [moved] at hback ⊢
  rw [hback]

/-- **The first file** has the section headers of the second one in another order. -/
theorem Permutes.symm (h : header.Permutes σ before after) (hstored : header.StoredIn before) :
    (header.moved σ).Permutes σ.symm after before where
  count := h.count
  size := h.size.symm
  elsewhere := fun p hp => (h.elsewhere p hp).symm
  sectionHeaders := by
    intro j
    have hmoved := h.sectionHeaders (σ.symm j)
    rw [σ.apply_symm_apply] at hmoved
    exact hmoved.symm
  nameTable := by
    rw [moved_moved h.count]
    exact hstored.nameTableIndex

/-- A name starts in the second file where it did in the first one. -/
private theorem Permutes.nameStart (h : header.Permutes σ before after) {i : Fin n} {start : Nat}
    (hstart : header.NameStart before i start) : (header.moved σ).NameStart after (σ i) start := by
  obtain ⟨hindex, table, raw, htable, hraw, hsum⟩ := hstart
  have hmoved := toNat_moved (σ := σ) h.count ⟨_, h.count ▸ hindex⟩ rfl
  refine ⟨?_, table, raw, ?_, (h.sectionHeaders i).trans hraw, hsum⟩
  · rw [hmoved]
    exact Nat.lt_of_lt_of_eq (σ _).isLt h.count.symm
  · rw [hmoved]
    exact (h.sectionHeaders _).trans htable

theorem KeepsRest.symm (hrest : header.KeepsRest before after) (h : header.Permutes σ before after)
    (hstored : header.StoredIn before) : (header.moved σ).KeepsRest after before where
  fields := hrest.fields.symm
  names := by
    intro j hj start hstart
    -- The name of the index that the section header was at is the same one.
    have hback := (h.symm hstored).nameStart (i := ⟨j, h.count ▸ hj⟩) hstart
    rw [moved_moved h.count] at hback
    exact (hrest.names _ (Nat.lt_of_lt_of_eq (σ.symm _).isLt h.count.symm) start hback).symm

/-! ## §3 Reading -/

/-- **The header of the second file** differs in the index of the names alone. -/
theorem Permutes.read_eq_ok (h : header.Permutes σ before after)
    (hkeeps : header.KeepsRest before after)
    (hread : read before = .ok header) : read after = .ok (header.moved σ) := by
  obtain ⟨hhas, hstored⟩ := read_eq_ok_iff.mp hread
  have hsize : after.size = before.size := h.size
  have hlarge := hhas.size
  obtain ⟨raw, hbefore⟩ : ∃ raw, before.slice? 0 62 = some raw :=
    ⟨_, slice?_eq_some_iff.mpr ⟨by omega, rfl⟩⟩
  have hafter : after.slice? 0 62 = some raw := hkeeps.fields.trans hbefore
  -- Each field before the index of the names is the same in both files.
  have h16 : ∀ k, k + 2 ≤ 62 → after.word? UInt16 k = before.word? UInt16 k := fun k hk => by
    rw [word?_front hafter k hk, word?_front hbefore k hk]
  have h32 : ∀ k, k + 4 ≤ 62 → after.word? UInt32 k = before.word? UInt32 k := fun k hk => by
    rw [word?_front hafter k hk, word?_front hbefore k hk]
  have h64 : ∀ k, k + 8 ≤ 62 → after.word? UInt64 k = before.word? UInt64 k := fun k hk => by
    rw [word?_front hafter k hk, word?_front hbefore k hk]
  have hbyte : ∀ k < 62, after.data[k]? = before.data[k]? := fun k hk => by
    rw [byte_front hafter k hk, byte_front hbefore k hk]
  have hslice : ∀ width ≤ 62, after.slice? 0 width = before.slice? 0 width := fun width hw => by
    rw [slice?_extract_zero hafter hw, slice?_extract_zero hbefore hw]
  refine read_eq_ok_iff.mpr ⟨?_, ?_⟩
  · exact {
      size := by omega
      magic := (hslice 4 (by decide)).trans hhas.magic
      wide := (hbyte 4 (by decide)).trans hhas.wide
      littleEndian := (hbyte 5 (by decide)).trans hhas.littleEndian
      machine := by
        rw [h16 18 (by decide)]
        exact hhas.machine }
  · exact {
      machine := (h16 18 (by decide)).trans hstored.machine
      ident := (hslice 16 (by decide)).trans hstored.ident
      fileType := (h16 16 (by decide)).trans hstored.fileType
      version := (h32 20 (by decide)).trans hstored.version
      entry := (h64 24 (by decide)).trans hstored.entry
      programHeaderOffset := (h64 32 (by decide)).trans hstored.programHeaderOffset
      sectionHeaderOffset := (h64 40 (by decide)).trans hstored.sectionHeaderOffset
      flags := (h32 48 (by decide)).trans hstored.flags
      headerSize := (h16 52 (by decide)).trans hstored.headerSize
      programHeaderSize := (h16 54 (by decide)).trans hstored.programHeaderSize
      programHeaderCount := (h16 56 (by decide)).trans hstored.programHeaderCount
      sectionHeaderSize := (h16 58 (by decide)).trans hstored.sectionHeaderSize
      sectionCount := (h16 60 (by decide)).trans hstored.sectionCount
      nameTableIndex := h.nameTable }

/-- The section header that was at an index is read at the index that it was moved to. -/
private theorem Permutes.sectionHeaderAt_eq_ok (h : header.Permutes σ before after) {i : Fin n}
    {raw : Bytes} (hword : header.sectionHeaderStart (σ i) < UInt64.size)
    (hraw : header.sectionHeaderAt before i = .ok raw) :
    header.sectionHeaderAt after (σ i) = .ok raw := by
  rw [sectionHeaderAt_eq_ok_iff_lt] at hraw ⊢
  exact ⟨hword, (h.sectionHeaders i).trans hraw.2⟩

/-- The names are found through the section header that was moved. -/
private theorem Permutes.nameTable_eq_ok (h : header.Permutes σ before after)
    (hword : ∀ i : Fin n, header.sectionHeaderStart i < UInt64.size) {names : Nat}
    (hnames : header.nameTable before = .ok names) :
    (header.moved σ).nameTable after = .ok names := by
  obtain ⟨hlarge, hindex, raw, hraw, rfl⟩ := nameTable_eq_ok_iff_lt.mp hnames
  have hmoved := toNat_moved (σ := σ) h.count ⟨_, h.count ▸ hindex⟩ rfl
  refine nameTable_eq_ok_iff_lt.mpr ⟨hlarge, ?_, raw, ?_, rfl⟩
  · rw [hmoved]
    exact Nat.lt_of_lt_of_eq (σ _).isLt h.count.symm
  · rw [hmoved]
    exact h.sectionHeaderAt_eq_ok (hword _) hraw

/-- The section that was at an index is read at the index that its header was moved to. -/
private theorem Permutes.sectionAt_eq_ok (h : header.Permutes σ before after)
    (hkeeps : header.KeepsRest before after)
    (hword : ∀ i : Fin n, header.sectionHeaderStart i < UInt64.size) {names : Nat}
    (hnames : header.nameTable before = .ok names) {i : Fin n} {s : Section}
    (hs : header.sectionAt before names i = .ok s) :
    (header.moved σ).sectionAt after names (σ i) = .ok s := by
  obtain ⟨_, hindex, table, htable, rfl⟩ := nameTable_eq_ok_iff_lt.mp hnames
  obtain ⟨raw, name, hraw, hname, rfl⟩ := sectionAt_eq_ok_iff_steps.mp hs
  -- The name starts where it did, so it is the same text.
  have hstart : header.NameStart before i ((table.word UInt64 24).toNat + Section.nameOffset raw) :=
    ⟨hindex, table, raw, (sectionHeaderAt_eq_ok_iff_lt.mp htable).2,
      (sectionHeaderAt_eq_ok_iff_lt.mp hraw).2, rfl⟩
  have hi : i.val < header.sectionCount.toNat := h.count ▸ i.isLt
  have hname' : NameAt after ((table.word UInt64 24).toNat + Section.nameOffset raw) name := by
    rw [← fromUTF8?_cstring?_eq_some_iff] at hname ⊢
    rw [hkeeps.names i hi _ hstart]
    exact hname
  exact sectionAt_eq_ok_iff_steps.mpr
    ⟨raw, name, h.sectionHeaderAt_eq_ok (hword (σ i)) hraw, hname', rfl⟩

/-- **The sections of an image with moved section headers** are those that it had, in their new
order. -/
theorem Permutes.sections_eq_ok (h : header.Permutes σ before after)
    (hkeeps : header.KeepsRest before after) (hfound : header.sections before = .ok found) :
    ∃ found', (header.moved σ).sections after = .ok found' ∧ found'.Perm found := by
  obtain ⟨hlength, hsteps⟩ := sections_eq_ok_iff_steps.mp hfound
  obtain rfl : n = found.length := by rw [hlength, h.count]
  -- At an index of the new order is the section whose header was moved there.
  refine ⟨List.ofFn ((fun i : Fin found.length => found[i]) ∘ σ.symm), ?_, ?_⟩
  · refine sections_eq_ok_iff_steps.mpr ⟨List.length_ofFn.trans hlength, fun hsome => ?_⟩
    obtain ⟨names, hnames, hall⟩ := hsteps hsome
    have hread : ∀ i : Fin found.length, header.sectionAt before names i = .ok found[i] :=
      fun i => hall i _ (List.getElem?_eq_getElem i.isLt)
    have hword : ∀ i : Fin found.length, header.sectionHeaderStart i < UInt64.size := by
      intro i
      obtain ⟨raw, _, hraw, _⟩ := sectionAt_eq_ok_iff_steps.mp (hread i)
      exact (sectionHeaderAt_eq_ok_iff_lt.mp hraw).1
    refine ⟨names, h.nameTable_eq_ok hword hnames, fun j s hs => ?_⟩
    rw [List.getElem?_ofFn] at hs
    split at hs
    · next hj =>
      cases hs
      have hmoved := h.sectionAt_eq_ok hkeeps hword hnames (hread (σ.symm ⟨j, hj⟩))
      rw [σ.apply_symm_apply] at hmoved
      exact hmoved
    · cases hs
  · refine (Equiv.Perm.ofFn_comp_perm σ.symm _).trans (.of_eq ?_)
    exact List.ofFn_getElem

end Header

/-! ## §4 Tables -/

namespace SectionTable

/-- **The order of sections does not matter** for their table, as long as each name is that of one
section. -/
theorem ofSections_perm (machine : Machine) {l₁ l₂ : List Section} (h : l₁.Perm l₂)
    (hnames : ∀ s ∈ l₁, ∀ t ∈ l₁, s.name = t.name → s = t) :
    ofSections machine l₁ = ofSections machine l₂ := by
  have hfold : ∀ init : Std.ExtTreeMap String Section,
      l₁.foldl (fun table s => table.insert s.name s) init =
        l₂.foldl (fun table s => table.insert s.name s) init := by
    refine h.foldl_eq' fun s hs t ht table => ?_
    apply Std.ExtTreeMap.ext_getElem?
    intro name
    simp only [Std.ExtTreeMap.getElem?_insert, Std.compare_eq_iff_eq]
    -- Two sections that are looked up by the same name are the same.
    by_cases hsame : s.name = t.name
    · rw [hnames s hs t ht hsame]
    · grind
  rw [ofSections, ofSections, hfold]

variable {header : Header} {n : Nat} {σ : Equiv.Perm (Fin n)} {before after : Bytes}

/-- Sections of one name are at one index, where there is only one. -/
private theorem eq_of_name_eq {found : List Section} (hfound : header.sections before = .ok found)
    (hnames : ∀ i j s t, header.Holds before i s → header.Holds before j t → s.name = t.name →
      i = j) :
    ∀ s ∈ found, ∀ t ∈ found, s.name = t.name → s = t := by
  intro s hs t ht heq
  obtain ⟨i, hi⟩ := List.mem_iff_getElem?.mp hs
  obtain ⟨j, hj⟩ := List.mem_iff_getElem?.mp ht
  rw [Header.getElem?_sections_iff_holds hfound] at hi hj
  obtain rfl := hnames i j s t hi hj heq
  exact hi.unique hj

/-- **An image with moved section headers** has the table that it had, if each name is that of one
section, or is refused for one of its sections as it was. -/
theorem read_permuted (hread : Header.read before = .ok header)
    (hnames : ∀ i j s t, header.Holds before i s → header.Holds before j t →
      s.name = t.name → i = j)
    (hperm : header.Permutes σ before after) (hrest : header.KeepsRest before after) :
    Agree (fun e e' => e.kind = .elfSection ∧ e'.kind = .elfSection) (read before)
      (read after) := by
  have hstored := (Header.read_eq_ok_iff.mp hread).2
  have hread' := hperm.read_eq_ok hrest hread
  rw [read_eq_of_header hread, read_eq_of_header hread']
  refine .of_eq_ok_iff (fun table => ?_) fun e e' he he' => ?_
  · simp only [map_eq_ok_iff, mapError_eq_ok_iff]
    constructor
    · rintro ⟨found, hfound, rfl⟩
      obtain ⟨found', hfound', hsame⟩ := hperm.sections_eq_ok hrest hfound
      exact ⟨found', hfound', (ofSections_perm _ hsame.symm (eq_of_name_eq hfound hnames)).symm⟩
    · rintro ⟨found', hfound', rfl⟩
      -- What was read of the second file is read of the first one in another order.
      obtain ⟨found, hfound, hsame⟩ :=
        (hperm.symm hstored).sections_eq_ok (hrest.symm hperm hstored) hfound'
      rw [Header.moved_moved hperm.count] at hfound
      exact ⟨found, hfound, ofSections_perm _ hsame (eq_of_name_eq hfound hnames)⟩
  · have hkind : ∀ {x : Except ElfSectionFault (List Section)} {f : List Section → SectionTable}
        {e : Error},
        (x.mapError Error.elfSection).map f = .error e → e.kind = .elfSection := by
      intro x f e h
      cases x with
      | ok found => cases h
      | error fault =>
        cases h
        rfl
    exact ⟨hkind he, hkind he'⟩

end SectionTable

end Rebase.Elf
