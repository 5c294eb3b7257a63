import Mathlib.Data.List.DropRight
import Mathlib.Order.Bounds.Basic
import Rebase.Proofs.Pe.Frame
import Rebase.Proofs.Pe.Selection

/-!
# What a destination image is

The format of a destination image is said here by what has to stand in a file, without headers that
were read from it: `HasHeaders` follows the offsets that the file stores. `Headers.read_accepts`
says that reading accepts exactly this, and which sections it gives.

Of the sections, the last one that is called `.reloc` matters. Its name is compared as text, after
the zero bytes at its end were cut off and damaged characters were replaced. For no eight bytes this
makes a difference: `lossy_trimZeros_eq_relocation_iff`.

- **Names**: `lossy_trimZeros_eq_iff`
- **Accepted images**: `HasHeaders.describes` and `Headers.Describes.hasHeaders`
- **Chosen sections**: `Headers.Describes.relocationSection?_eq_some_iff_isGreatest` and
  `Headers.highestSection?_eq_some_iff_isGreatest`
-/

namespace Rebase.Pe

open Bytes Fallible

/-! ## §1 Names -/

namespace Section

private theorem trimZeros_eq_rdropWhile (raw : Bytes) :
    trimZeros raw = (raw.data.toList.rdropWhile (· = 0)).toByteArray := rfl

/-- What is cut off a name are zero bytes. -/
theorem exists_trimZeros_append (raw : Bytes) : ∃ n, raw = trimZeros raw ++ zeros n := by
  have hzeros : raw.data.toList.rtakeWhile (· = 0) =
      List.replicate (raw.data.toList.rtakeWhile (· = 0)).length 0 :=
    List.eq_replicate_iff.mpr ⟨rfl, fun _ hb => by simpa using List.mem_rtakeWhile_imp hb⟩
  refine ⟨(raw.data.toList.rtakeWhile (· = 0)).length, ?_⟩
  apply ByteArray.ext
  rw [← Array.toList_inj, ByteArray.data_append, Array.toList_append, trimZeros_eq_rdropWhile,
    List.toList_data_toByteArray, zeros, Array.toList_replicate, ← hzeros,
    List.rdropWhile_append_rtakeWhile]

/-- Zero bytes at the end of a name do not matter. -/
private theorem trimZeros_append_zeros (name : Bytes) (n : Nat) :
    trimZeros (name ++ zeros n) = trimZeros name := by
  have hlist : (name.data.toList ++ List.replicate n 0).rdropWhile (· = 0) =
      name.data.toList.rdropWhile (· = 0) := by
    induction n with
    | zero => rw [List.replicate_zero, List.append_nil]
    | succ n ih =>
      rw [List.replicate_succ', ← List.append_assoc,
        List.rdropWhile_concat_pos _ _ _ (by decide), ih]
  rw [trimZeros_eq_rdropWhile, trimZeros_eq_rdropWhile, ByteArray.data_append,
    Array.toList_append, zeros, Array.toList_replicate, hlist]

/-- **Which bytes are read as a name**: those that encode it, filled up with zero bytes. The name
has to be one that could be there, with no replacement in it and no zero byte at its end. -/
theorem lossy_trimZeros_eq_iff {raw : Bytes} {name : String}
    (hkept : Text.replacement ∉ name.toList) (hend : trimZeros name.toUTF8 = name.toUTF8) :
    Text.lossy (trimZeros raw) = name ↔ ∃ n, raw = name.toUTF8 ++ zeros n := by
  constructor
  · rintro rfl
    rw [Text.toUTF8_lossy hkept]
    exact exists_trimZeros_append raw
  · rintro ⟨n, rfl⟩
    rw [trimZeros_append_zeros, hend, Text.lossy_toUTF8]

/-- **The name of a relocation section** is read from one field of eight bytes only. -/
theorem lossy_trimZeros_eq_relocation_iff {raw : Bytes} (hsize : raw.size = 8) :
    Text.lossy (trimZeros raw) = relocationSectionName ↔ raw = NewSection.nameField := by
  rw [lossy_trimZeros_eq_iff (by decide) (by decide), NewSection.nameField]
  constructor
  · rintro ⟨n, rfl⟩
    -- The name has six bytes, and two are left.
    rw [ByteArray.size_append, size_zeros, show relocationSectionName.toUTF8.size = 6 by decide]
      at hsize
    rw [show n = 2 by omega]
  · rintro rfl
    exact ⟨2, rfl⟩

end Section

/-! ## §2 Accepted images -/

/-- A file starts with the headers of a 64-bit image that has a slot for the base relocation
directory: the signature is at `e`, the optional header takes up `z` bytes, and `n` sections are
counted. -/
structure HasHeaders (file : Bytes) (e : UInt32) (z n : UInt16) : Prop where
  size : 0x40 ≤ file.size
  start : file.word? UInt32 0x3C = some e
  signature : file.slice? e.toNat 4 = some ⟨#[0x50, 0x45, 0, 0]⟩
  room : e.toNat + 24 + 112 ≤ file.size
  magic : file.word? UInt16 (e.toNat + 24) = some 0x20B
  directories : ∃ d : UInt32, file.word? UInt32 (e.toNat + 24 + 108) = some d ∧ 6 ≤ d.toNat
  optionalSize : file.word? UInt16 (e.toNat + 20) = some z
  slot : 160 ≤ z.toNat
  count : file.word? UInt16 (e.toNat + 6) = some n
  sectionTable : 0 < n.toNat → e.toNat + 24 + z.toNat + 40 * n.toNat ≤ file.size

variable {file : Bytes} {h : Headers} {e : UInt32} {z n : UInt16}

/-- The signature is spelled by its four bytes. -/
theorem word32?_eq_signature_iff {offset : Nat} :
    file.word? UInt32 offset = some Headers.signature ↔
      file.slice? offset 4 = some ⟨#[0x50, 0x45, 0, 0]⟩ := by
  have hbytes : ofWord Headers.signature = ⟨#[0x50, 0x45, 0, 0]⟩ := by rfl
  rw [← hbytes]
  exact ⟨slice?_of_word?, word?_of_slice?⟩

/-- The headers of an accepted image, from its fields. -/
def headersOf (file : Bytes) (e : UInt32) (z n : UInt16) : Headers where
  fileHeaderOffset := e.toNat + 4
  optionalHeaderOffset := e.toNat + 24
  sectionTableOffset := e.toNat + 24 + z.toNat
  characteristics := file.word UInt16 (e.toNat + 22)
  sizeOfImage := file.word UInt32 (e.toNat + 24 + 56)
  sizeOfHeaders := file.word UInt32 (e.toNat + 24 + 60)
  sections := (List.range n.toNat).map fun i =>
    let offset := e.toNat + 24 + z.toNat + i * Section.headerSize
    Section.ofHeader (file.extract offset (offset + Section.headerSize))

/-- In an accepted image there is nothing else that could be missing. -/
theorem HasHeaders.describes (hf : HasHeaders file e z n) :
    (headersOf file e z n).Describes file := by
  have hroom := hf.room
  exact {
    signed := ⟨e, hf.start, word32?_eq_signature_iff.mpr hf.signature, rfl⟩
    count := ⟨n, hf.count, by
      simp only [Headers.sectionCount, headersOf, List.length_map, List.length_range]⟩
    optionalHeader := rfl
    sectionTable := ⟨z, hf.optionalSize, hf.slot, rfl⟩
    characteristics := word?_eq_some (show e.toNat + 22 + 2 ≤ file.size by omega)
    magic := hf.magic
    sizeOfImage := word?_eq_some (show e.toNat + 24 + 56 + 4 ≤ file.size by omega)
    sizeOfHeaders := word?_eq_some (show e.toNat + 24 + 60 + 4 ≤ file.size by omega)
    directories := hf.directories
    sections := by
      intro i s hs
      obtain ⟨k, hk, rfl⟩ := Option.map_eq_some_iff.mp (List.getElem?_map.symm.trans hs)
      obtain ⟨hi, rfl⟩ := List.getElem?_eq_some_iff.mp hk
      rw [List.length_range] at hi
      rw [List.getElem_range]
      have htable := hf.sectionTable (Nat.zero_lt_of_lt hi)
      refine Section.storedAt_ofHeader (slice?_eq_some_iff.mpr ⟨?_, rfl⟩)
      simp only [Headers.sectionHeaderOffset, headersOf, Section.headerSize]
      omega }

namespace Headers

/-- An image that headers describe has the fields that are checked. -/
theorem Describes.hasHeaders (hd : h.Describes file) :
    ∃ e z n, HasHeaders file e z n ∧ h.sections.length = n.toNat ∧
      h.sectionTableOffset = e.toNat + 24 + z.toNat := by
  obtain ⟨e, he, hsignature, hfile⟩ := hd.signed
  obtain ⟨n, hn, hcount⟩ := hd.count
  obtain ⟨z, hz, hslot, htable⟩ := hd.sectionTable
  obtain ⟨d, hdirectories, hd6⟩ := hd.directories
  have hmagic := hd.magic
  have hoptional := hd.optionalHeader
  rw [sectionCountOffset, hfile] at hn
  rw [hfile] at hz
  rw [hoptional, hfile] at hmagic hdirectories htable
  refine ⟨e, z, n, ?_, hcount, htable⟩
  exact {
    size := le_size_of_word? he
    start := he
    signature := word32?_eq_signature_iff.mp hsignature
    room := by
      have hinside := le_size_of_word? hdirectories
      omega
    magic := hmagic
    directories := ⟨d, hdirectories, hd6⟩
    optionalSize := hz
    slot := hslot
    count := hn
    sectionTable := by
      intro hpos
      -- The header of the last section is in the file.
      have hlast : n.toNat - 1 < h.sections.length := by
        rw [show h.sections.length = n.toNat from hcount]
        omega
      have hend := (hd.sections _ _ (List.getElem?_eq_getElem hlast)).le_size
      simp only [sectionHeaderOffset, htable, Section.headerSize] at hend
      omega }

/-! ## §3 Chosen sections -/

/-- The section header of an index starts with the name of a relocation section and two zero
bytes. -/
def NamesRelocations (h : Headers) (file : Bytes) (i : Nat) : Prop :=
  i < h.sectionCount ∧
    file.slice? (h.sectionHeaderOffset i) 8 = some ⟨#[0x2E, 0x72, 0x65, 0x6C, 0x6F, 0x63, 0, 0]⟩

/-- No section has a higher address than that of an index. -/
def IsHighest (h : Headers) (i : Nat) : Prop :=
  ∃ s, h.sections[i]? = some s ∧
    ∀ (j : Nat) (t : Section), h.sections[j]? = some t → t.virtualAddress ≤ s.virtualAddress

/-- What the name of a section is read from decides whether it is a relocation section. -/
theorem Describes.name_eq_iff (hd : h.Describes file) {s : Section} {i : Nat}
    (hs : h.sections[i]? = some s) :
    s.name = relocationSectionName ↔ h.NamesRelocations file i := by
  obtain ⟨raw, hraw, hname⟩ := Option.map_eq_some_iff.mp (hd.sections i s hs).name
  have hfield : NewSection.nameField = ⟨#[0x2E, 0x72, 0x65, 0x6C, 0x6F, 0x63, 0, 0]⟩ := by decide
  rw [← hname, Section.lossy_trimZeros_eq_relocation_iff (size_of_slice? hraw),
    NamesRelocations, hraw, Option.some.injEq, hfield, iff_and_self]
  exact fun _ => (List.getElem?_eq_some_iff.mp hs).1

theorem Describes.relocationSection?_eq_some_iff_isGreatest (hd : h.Describes file) {s : Section}
    {i : Nat} :
    h.relocationSection? = some (s, i) ↔
      h.sections[i]? = some s ∧ IsGreatest {j | h.NamesRelocations file j} i := by
  rw [relocationSection?_eq_some_iff]
  constructor
  · rintro ⟨hs, hname, hlast⟩
    refine ⟨hs, (hd.name_eq_iff hs).mp hname, fun j hj => Nat.le_of_not_lt fun hij => ?_⟩
    have ht := List.getElem?_eq_getElem (l := h.sections) hj.1
    exact hlast j _ hij ht ((hd.name_eq_iff ht).mpr hj)
  · rintro ⟨hs, hnames, hlast⟩
    refine ⟨hs, (hd.name_eq_iff hs).mpr hnames, fun j t hij ht hname => ?_⟩
    exact absurd (hlast ((hd.name_eq_iff ht).mp hname)) (Nat.not_le.mpr hij)

private theorem Describes.relocationSection?_eq_none_iff_names (hd : h.Describes file) :
    h.relocationSection? = none ↔ ∀ i, ¬ h.NamesRelocations file i := by
  rw [relocationSection?_eq_none_iff]
  constructor
  · intro hnone i hi
    have hs := List.getElem?_eq_getElem (l := h.sections) hi.1
    exact hnone _ (List.mem_of_getElem? hs) ((hd.name_eq_iff hs).mpr hi)
  · intro hnone s hs hname
    obtain ⟨i, hi⟩ := List.mem_iff_getElem?.mp hs
    exact hnone i ((hd.name_eq_iff hi).mp hname)

theorem highestSection?_eq_some_iff_isGreatest {s : Section} {i : Nat} :
    h.highestSection? = some (s, i) ↔
      h.sections[i]? = some s ∧ IsGreatest {j | h.IsHighest j} i := by
  rw [highestSection?_eq_some_iff]
  constructor
  · rintro ⟨hs, hmax, hafter⟩
    refine ⟨hs, ⟨s, hs, hmax⟩, fun j hj => Nat.le_of_not_lt fun hij => ?_⟩
    obtain ⟨t, ht, htop⟩ := hj
    exact absurd (htop i s hs) (UInt32.not_le.mpr (hafter j t hij ht))
  · rintro ⟨hs, hhighest, hlast⟩
    obtain ⟨s', hs', hmax⟩ := hhighest
    cases hs.symm.trans hs'
    refine ⟨hs, hmax, fun j t hij ht => UInt32.not_le.mp fun hle => ?_⟩
    -- A section behind it that is not lower would be as high.
    have hj : h.IsHighest j := ⟨t, ht, fun k u hu => UInt32.le_trans (hmax k u hu) hle⟩
    exact absurd (hlast hj) (Nat.not_le.mpr hij)

/-! ## §4 Reading -/

/-- **What is read as a destination image.** A file is accepted exactly when it starts with the
headers of a 64-bit image that has a slot for the base relocation directory and, if sections are
counted, its section table is in the file. All that is refused is refused as a fault of the image.
The sections that are read are those of the table, in its order. The relocation section is the last
one whose name is spelled by the eight bytes of its field, and the highest section the last one of
the greatest address. -/
theorem read_accepts (file : Bytes) :
    ((∃ h, read file = .ok h) ↔ ∃ e z n, HasHeaders file e z n) ∧
    (∀ fault, read file = .error fault →
      ∀ t, ∃ e, Patch.make file t = .error e ∧ e.kind = .pe) ∧
    ∀ h, read file = .ok h → ∃ e z n, HasHeaders file e z n ∧
      h.sections.length = n.toNat ∧
      (∀ i s, h.sections[i]? = some s →
        h.sectionHeaderOffset i = e.toNat + 24 + z.toNat + 40 * i ∧
          s.StoredAt file (h.sectionHeaderOffset i)) ∧
      (∀ s i, h.relocationSection? = some (s, i) ↔
        h.sections[i]? = some s ∧ IsGreatest {j | h.NamesRelocations file j} i) ∧
      (h.relocationSection? = none ↔ ∀ i, ¬ h.NamesRelocations file i) ∧
      (∀ s i, h.highestSection? = some (s, i) ↔
        h.sections[i]? = some s ∧ IsGreatest {j | h.IsHighest j} i) ∧
      (h.highestSection? = none ↔ h.sections = []) := by
  refine ⟨?_, ?_, ?_⟩
  · constructor
    · rintro ⟨h, hread⟩
      obtain ⟨e, z, n, hf, _⟩ := (read_eq_ok_iff.mp hread).hasHeaders
      exact ⟨e, z, n, hf⟩
    · rintro ⟨e, z, n, hf⟩
      exact ⟨_, read_eq_ok_iff.mpr hf.describes⟩
  · intro fault hread t
    refine ⟨.pe fault, ?_, rfl⟩
    unfold Patch.make
    rw [hread]
    rfl
  · intro h hread
    have hd := read_eq_ok_iff.mp hread
    obtain ⟨e, z, n, hf, hlength, htable⟩ := hd.hasHeaders
    refine ⟨e, z, n, hf, hlength, fun i s hs => ⟨?_, hd.sections i s hs⟩,
      fun s i => hd.relocationSection?_eq_some_iff_isGreatest,
      hd.relocationSection?_eq_none_iff_names,
      fun s i => highestSection?_eq_some_iff_isGreatest, highestSection?_eq_none_iff⟩
    rw [sectionHeaderOffset, htable, Section.headerSize, Nat.mul_comm]

end Headers

end Rebase.Pe
