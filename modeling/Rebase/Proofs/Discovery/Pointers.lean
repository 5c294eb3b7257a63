import Mathlib.Data.Set.Card
import Rebase.Proofs.Checked.Discovery
import Rebase.Proofs.Elf.ImageRange

/-!
# What the search for pointers finds

Words of one section are compared with a range that comes from all sections, and a word counts only
if it has an address itself. `PointsAt` says this of a word by the fields of the file, without a
search.

- **Words**: `mem_pointerAddresses_iff`, what is found in the contents of the section
- **Numbers**: `encard_pointsAt`, two words are never taken for one
- **Images**: `scannedAddresses_exact`, in whatever order the sections are looked at, and also for a
  search that ends at the first word without an address
-/

namespace Rebase

/-- There are as many addresses in a set as its size says. -/
private theorem AddressSet.encard_setOf_mem (set : AddressSet) :
    {a | a ∈ set}.encard = set.size := by
  have hnodup : set.toList.Nodup := set.pairwise_toList.imp UInt64.ne_of_lt
  have hlist : {a | a ∈ set} = set.toList.toFinset := by
    ext a
    simp
  rw [hlist, Set.encard_coe_eq_coe_finsetCard, List.toFinset_card_of_nodup hnodup,
    Std.ExtTreeSet.length_toList]

namespace Discovery

open Bytes Fallible
open Elf (AddressRange Section SectionTable)

/-! ## §1 Words -/

/-- A word of a section is taken for a pointer: it is in the section with all of its bytes, holds an
address of the range, and has an address itself. -/
structure PointsAt (file : Bytes) (s : Section) (range : AddressRange) (index : Nat) : Prop where
  whole : 8 * index + 8 ≤ s.size.toNat
  value : ∃ word, file.word? UInt64 (s.offset.toNat + 8 * index) = some word ∧
    range.low.toNat ≤ word.toNat ∧ word.toNat < range.high.toNat
  address : s.address.toNat + 8 * index < 2 ^ 64

variable {file contents : Bytes} {s : Section} {range : AddressRange}

/-- **The pointers in the contents of a section** are its words that are taken for one, each at its
own address. -/
theorem mem_pointerAddresses_iff (hcontents : s.contents file = .ok contents) {address : UInt64} :
    address ∈ (pointers range s.address contents).map Pointer.address ↔
      ∃ index, PointsAt file s range index ∧ address.toNat = s.address.toNat + 8 * index := by
  have hslice := Section.slice?_of_contents hcontents
  have hsize : contents.size = s.size.toNat := size_of_slice? hslice
  -- A word that is in the contents is the one at its place in the file.
  have hword : ∀ index, 8 * index + 8 ≤ s.size.toNat →
      file.word? UInt64 (s.offset.toNat + 8 * index) = some (contents.word UInt64 (8 * index)) :=
    fun index hin => word?_inside _ hslice hin
  simp only [List.mem_map, mem_pointers_iff, pointerSize, AddressRange.contains_iff]
  constructor
  · rintro ⟨p, ⟨index, hin, hvalue, hrange, haddress⟩, rfl⟩
    rw [Nat.mul_comm index 8] at hvalue haddress
    have hwhole : 8 * index + 8 ≤ s.size.toNat := by omega
    have hfits := p.address.toNat_lt
    exact ⟨index, ⟨hwhole, ⟨_, hword index hwhole, hvalue ▸ hrange⟩, by omega⟩, haddress⟩
  · rintro ⟨index, ⟨hwhole, ⟨word, hfile, hrange⟩, _⟩, haddress⟩
    obtain rfl : contents.word UInt64 (8 * index) = word :=
      Option.some.inj ((hword index hwhole).symm.trans hfile)
    refine ⟨⟨address, contents.word UInt64 (8 * index)⟩, ⟨index, by omega, ?_, hrange, ?_⟩, rfl⟩
    · rw [Nat.mul_comm]
    · rw [haddress, Nat.mul_comm]

/-- **Two words are never taken for one**: their addresses differ. -/
theorem encard_pointsAt {found : AddressSet} (h : ∀ address, address ∈ found ↔
      ∃ index, PointsAt file s range index ∧ address.toNat = s.address.toNat + 8 * index) :
    {index | PointsAt file s range index}.encard = found.size := by
  have htoNat : ∀ index, PointsAt file s range index →
      (UInt64.ofNat (s.address.toNat + 8 * index)).toNat = s.address.toNat + 8 * index :=
    fun index hindex => UInt64.toNat_ofNat_of_lt hindex.address
  have hinjective : Set.InjOn (fun index => UInt64.ofNat (s.address.toNat + 8 * index))
      {index | PointsAt file s range index} := by
    intro i hi j hj hsame
    have hsame := congrArg UInt64.toNat hsame
    rw [htoNat i hi, htoNat j hj] at hsame
    omega
  have himage : {a | a ∈ found} = (fun index => UInt64.ofNat (s.address.toNat + 8 * index)) ''
      {index | PointsAt file s range index} := by
    ext address
    rw [Set.mem_ofPred_eq, h]
    refine exists_congr fun index => and_congr_right fun hindex => ?_
    rw [← UInt64.toNat_inj, htoNat index hindex]
    exact eq_comm
  rw [← AddressSet.encard_setOf_mem, himage, hinjective.encard_image]

/-! ## §2 Images -/

variable {table : SectionTable} {order : List Section}

/-- With nothing to search or nothing to compare with, nothing is looked at. -/
private theorem scannedAddresses_of_no_target
    (h : table.get? ".data" = none ∨ Elf.imageRange order = none) :
    scannedAddresses file table order = .ok ∅ := by
  have htarget : scanTarget table order = none := by
    unfold scanTarget scannedSection
    rcases h with h | h
    · rw [h]
      rfl
    · rw [h]
      cases table.get? ".data" <;> rfl
  unfold scannedAddresses scan
  rw [htarget]
  rfl

/-- With both, it is the contents of the section that decide. -/
theorem scannedAddresses_of_target (hs : table.get? ".data" = some s)
    (hrange : Elf.imageRange order = some range) :
    scannedAddresses file table order = (s.contents file).map fun contents =>
      AddressSet.ofList ((pointers range s.address contents).map Pointer.address) := by
  have htarget : scanTarget table order = some (s, range) := by
    unfold scanTarget scannedSection
    rw [hs, hrange]
    rfl
  unfold scannedAddresses scan
  simp only [htarget, map_map]

/-- **The search for pointers.** Nothing is found in an image without the section that is searched,
or without a mapped section; where the contents are does not matter then. Otherwise the search fails
exactly when the contents are not inside the file, and finds the words that are taken for pointers
into the range that spans the mapped sections, one address for each of them. A search that ends at
the first word without an address ends in the same way. -/
theorem scannedAddresses_exact (horder : order.Perm table.sections) :
    (Elf.imageRange order = none ↔ ∀ s, ¬ table.Mapped s) ∧
    (table.get? ".data" = none ∨ Elf.imageRange order = none →
      scannedAddresses file table order = .ok ∅) ∧
    (∀ s range, table.get? ".data" = some s → Elf.imageRange order = some range →
      range.Spans table.Mapped ∧
      (∀ fault, scannedAddresses file table order = .error fault ↔
        file.size < s.offset.toNat + s.size.toNat ∧
          fault = .contentsOutsideFile s.name s.offset s.size) ∧
      ∀ found, scannedAddresses file table order = .ok found →
        (∀ address, address ∈ found ↔
          ∃ index, PointsAt file s range index ∧ address.toNat = s.address.toNat + 8 * index) ∧
        {index | PointsAt file s range index}.encard = found.size) ∧
    (file.size ≤ Checked.maxBufferSize →
      Checked.EndsAs (Checked.scannedAddresses file table order)
        (scannedAddresses file table order)) := by
  refine ⟨SectionTable.imageRange_eq_none_iff_mapped horder, scannedAddresses_of_no_target, ?_,
    fun hsize => Checked.scannedAddresses_endsAs hsize table order⟩
  intro s range hs hrange
  refine ⟨(SectionTable.imageRange_eq_some_iff_spans horder).mp hrange, fun fault => ?_, ?_⟩
  · rw [scannedAddresses_of_target hs hrange, map_eq_error_iff, Section.contents_eq_error_iff]
  · intro found hfound
    rw [scannedAddresses_of_target hs hrange] at hfound
    obtain ⟨contents, hcontents, rfl⟩ := map_eq_ok_iff.mp hfound
    -- Membership says all: different words have different addresses, so none is lost in the set.
    have hmem : ∀ address, address ∈ AddressSet.ofList
        ((pointers range s.address contents).map Pointer.address) ↔
        ∃ index, PointsAt file s range index ∧ address.toNat = s.address.toNat + 8 * index :=
      fun address => AddressSet.mem_ofList.trans (mem_pointerAddresses_iff hcontents)
    exact ⟨hmem, encard_pointsAt hmem⟩

/-- A source image with one section, `.data`, which is also the one that holds the names. It starts
eight bytes below the end of the address space and has two words, so the second one has no address.
Both hold the address of the first. -/
def highestWords : Bytes :=
  ⟨⟨[0x7F, 0x45, 0x4C, 0x46, 2, 1, 1, 0] ++ List.replicate 8 0 ++ [2, 0, 243, 0, 1, 0, 0, 0] ++
    List.replicate 16 0 ++ [64, 0, 0, 0, 0, 0, 0, 0] ++ List.replicate 4 0 ++ [64, 0] ++
    List.replicate 4 0 ++ [64, 0, 1, 0, 0, 0] ++
    [16, 0, 0, 0, 1, 0, 0, 0] ++ List.replicate 8 0 ++ [0xF8] ++ List.replicate 7 0xFF ++
    [128, 0, 0, 0, 0, 0, 0, 0] ++ [16, 0, 0, 0, 0, 0, 0, 0] ++ List.replicate 24 0 ++
    [0xF8] ++ List.replicate 7 0xFF ++ [0xF8] ++ List.replicate 7 0xFF ++
    [46, 100, 97, 116, 97, 0]⟩⟩

theorem scannedAddresses_exact_highestWords :
    ∃ table s range found, SectionTable.read highestWords = .ok table ∧
      table.sections.Perm table.sections ∧ table.get? ".data" = some s ∧
      Elf.imageRange table.sections = some range ∧ range.Spans table.Mapped ∧
      scannedAddresses highestWords table table.sections = .ok found ∧
      found.toList = [0xFFFFFFFFFFFFFFF8] ∧
      (∀ address, address ∈ found ↔ ∃ index, PointsAt highestWords s range index ∧
        address.toNat = s.address.toNat + 8 * index) ∧
      {index | PointsAt highestWords s range index}.encard = 1 := by
  have hfacts : (SectionTable.read highestWords).map (fun table =>
      ((table.get? ".data").isSome, (Elf.imageRange table.sections).isSome,
        (scannedAddresses highestWords table table.sections).map fun found =>
          (found.toList, found.size))) = .ok (true, true, .ok ([0xFFFFFFFFFFFFFFF8], 1)) := by
    decide +kernel
  obtain ⟨table, hread, hfacts⟩ := map_eq_ok_iff.mp hfacts
  simp only [Prod.mk.injEq, Option.isSome_iff_exists] at hfacts
  obtain ⟨⟨s, hs⟩, ⟨range, hrange⟩, hfound⟩ := hfacts
  obtain ⟨found, hok, hlist⟩ := map_eq_ok_iff.mp hfound
  obtain ⟨hlist, hcount⟩ := Prod.mk.inj hlist
  obtain ⟨_, _, hexact, _⟩ := scannedAddresses_exact (List.Perm.refl table.sections)
  obtain ⟨hspans, _, hmem⟩ := hexact s range hs hrange
  obtain ⟨hmem, hnumber⟩ := hmem found hok
  rw [hcount] at hnumber
  exact ⟨table, s, range, found, hread, .refl _, hs, hrange, hspans, hok, hlist, hmem, hnumber⟩

end Discovery

end Rebase
