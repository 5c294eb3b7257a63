import Mathlib.Algebra.BigOperators.Group.Finset.Basic
import Mathlib.Algebra.GroupWithZero.Nat
import Rebase.Proofs.BaseRelocation.Pages

/-!
# What is built from a list of addresses

Any list of addresses may be given, in any order and with repetitions. `occupiedPages` and
`offsetsOn` say which pages it has addresses on and where, without a table.

- **Sizes**: `Table.size_ofSet`, what a table takes up is known from the pages and the offsets
- **Tables**: `Table.ofAddresses_roundTrip`, whether a table is built, what is in it, and that it is
  read back from its bytes
-/

namespace Rebase.BaseRelocation

open Table (pageOf entryOf fits padded ofSet)

/-! ## §1 Sizes -/

namespace Table

/-- The numbers of the pages that a list has addresses on. -/
def occupiedPages (xs : List UInt64) : Finset Nat := (xs.map fun a => a.toNat / pageSize).toFinset

/-- The offsets of the addresses that a list has on a page. -/
def offsetsOn (xs : List UInt64) (page : Nat) : Finset Nat :=
  ((xs.filter fun a => a.toNat / pageSize = page).map fun a => a.toNat % pageSize).toFinset

/-- What the block of a page takes up: its two fields, and an even number of entries. -/
def blockSize (count : Nat) : Nat := 8 + 2 * (count + count % 2)

private theorem mem_occupiedPages {xs : List UInt64} {page : Nat} :
    page ∈ occupiedPages xs ↔ ∃ a ∈ xs, a.toNat / pageSize = page := by
  rw [occupiedPages, List.mem_toFinset, List.mem_map]

private theorem mem_offsetsOn {xs : List UInt64} {page offset : Nat} :
    offset ∈ offsetsOn xs page ↔
      ∃ a ∈ xs, a.toNat / pageSize = page ∧ a.toNat % pageSize = offset := by
  rw [offsetsOn, List.mem_toFinset, List.mem_map]
  simp only [List.mem_filter, decide_eq_true_eq, and_assoc]

private theorem size_padded (b : Block) : (padded b).size = blockSize b.entries.length := by
  unfold padded
  split
  · next h =>
    simp only [Block.size, Block.headerSize] at h
    simp only [Block.size, Block.headerSize, blockSize]
    omega
  · next h =>
    simp only [Block.size, Block.headerSize] at h
    simp only [Block.size, Block.headerSize, blockSize, List.length_append, List.length_singleton]
    omega

private theorem size_eq_sum (t : Table) : t.size = (t.blocks.map Block.size).sum := by
  rw [size, List.sum, List.foldr_map]

end Table

/-- The offsets of ascending addresses of a page ascend too. -/
theorem Block.OfPage.pairwise_offsets {b : Block} {addresses : List UInt64}
    (h : b.OfPage addresses) :
    (addresses.map fun a => a.toNat % pageSize).Pairwise (· < ·) := by
  refine List.pairwise_map.mpr (h.ascending.imp_of_mem ?_)
  intro a a' ha ha' hlt
  have hpage := toNat_pageOf (h.fits a ha)
  have hpage' := toNat_pageOf (h.fits a' ha')
  rw [h.page a ha] at hpage
  rw [h.page a' ha'] at hpage'
  have hless : a.toNat < a'.toNat := hlt
  simp only [pageSize] at hpage hpage' ⊢
  omega

namespace Table.Groups

variable {blocks : List Block} {xs : List UInt64}

theorem fits_of_mem (h : Groups blocks xs) {a : UInt64} (ha : a ∈ xs) : fits a := by
  obtain ⟨b, hb, hpage⟩ := List.mem_map.mp ((h.pages (pageOf a)).mpr ⟨a, ha, rfl⟩)
  exact (h.ofPage b hb).fits a (List.mem_filter.mpr ⟨ha, by simp [hpage]⟩)

/-- The page of a block is that of some address, so it is known by its number. -/
private theorem toNat_page (h : Groups blocks xs) {b : Block} (hb : b ∈ blocks) :
    b.page.toNat = b.page.toNat / pageSize * pageSize := by
  obtain ⟨a, ha, hpage⟩ := (h.pages b.page).mp (List.mem_map_of_mem hb)
  have hnat := toNat_pageOf (h.fits_of_mem ha)
  rw [hpage] at hnat
  rw [hnat, Nat.mul_div_cancel _ (by decide)]

/-- An address is on the page of a block when it is on the page of that number. -/
theorem pageOf_eq_iff (h : Groups blocks xs) {b : Block} (hb : b ∈ blocks) {a : UInt64}
    (ha : a ∈ xs) : pageOf a = b.page ↔ a.toNat / pageSize = b.page.toNat / pageSize := by
  have hpage := h.toNat_page hb
  rw [← UInt32.toNat_inj, toNat_pageOf (h.fits_of_mem ha)]
  simp only [pageSize] at hpage ⊢
  omega

/-- **A block has one entry for each offset** on its page. -/
theorem card_offsetsOn (h : Groups blocks xs) {b : Block} (hb : b ∈ blocks) :
    (offsetsOn xs (b.page.toNat / pageSize)).card = b.entries.length := by
  have hof := h.ofPage b hb
  have hoffsets : offsetsOn xs (b.page.toNat / pageSize) =
      ((xs.filter fun a => pageOf a = b.page).map fun a => a.toNat % pageSize).toFinset := by
    ext offset
    rw [mem_offsetsOn, List.mem_toFinset, List.mem_map]
    simp only [List.mem_filter, decide_eq_true_eq, and_assoc]
    exact exists_congr fun a => and_congr_right fun ha => by rw [h.pageOf_eq_iff hb ha]
  have hnodup := hof.pairwise_offsets.imp Nat.ne_of_lt
  rw [hoffsets, List.toFinset_card_of_nodup hnodup, List.length_map, hof.entries, List.length_map]

/-- The numbers of the pages of the blocks ascend. -/
private theorem pairwise_pageNumbers (h : Groups blocks xs) :
    (blocks.map fun b => b.page.toNat / pageSize).Pairwise (· < ·) := by
  refine List.pairwise_map.mpr ((List.pairwise_map.mp h.ascending).imp_of_mem ?_)
  intro b b' hb hb' hlt
  have hless : b.page.toNat < b'.page.toNat := hlt
  have hpage := h.toNat_page hb
  have hpage' := h.toNat_page hb'
  simp only [pageSize] at hpage hpage' ⊢
  omega

/-- The pages of the blocks are those that addresses are on. -/
private theorem toFinset_pageNumbers (h : Groups blocks xs) :
    (blocks.map fun b => b.page.toNat / pageSize).toFinset = occupiedPages xs := by
  ext page
  rw [List.mem_toFinset, List.mem_map, mem_occupiedPages]
  constructor
  · rintro ⟨b, hb, rfl⟩
    obtain ⟨a, ha, hpage⟩ := (h.pages b.page).mp (List.mem_map_of_mem hb)
    exact ⟨a, ha, (h.pageOf_eq_iff hb ha).mp hpage⟩
  · rintro ⟨a, ha, rfl⟩
    obtain ⟨b, hb, hpage⟩ := List.mem_map.mp ((h.pages (pageOf a)).mpr ⟨a, ha, rfl⟩)
    exact ⟨b, hb, ((h.pageOf_eq_iff hb ha).mp hpage.symm).symm⟩

/-- **The sizes of grouped blocks** are known from the pages and offsets of the addresses. -/
theorem sum_blockSize (h : Groups blocks xs) :
    (blocks.map fun b => blockSize b.entries.length).sum =
      ∑ page ∈ occupiedPages xs, blockSize (offsetsOn xs page).card := by
  have hnodup := h.pairwise_pageNumbers.imp Nat.ne_of_lt
  calc (blocks.map fun b => blockSize b.entries.length).sum
      = ((blocks.map fun b => b.page.toNat / pageSize).map fun page =>
          blockSize (offsetsOn xs page).card).sum := by
        rw [List.map_map]
        refine congrArg List.sum (List.map_congr_left fun b hb => ?_)
        rw [Function.comp_apply, h.card_offsetsOn hb]
    _ = ∑ page ∈ (blocks.map fun b => b.page.toNat / pageSize).toFinset,
          blockSize (offsetsOn xs page).card := (List.sum_toFinset _ hnodup).symm
    _ = ∑ page ∈ occupiedPages xs, blockSize (offsetsOn xs page).card := by
        rw [h.toFinset_pageNumbers]

end Table.Groups

namespace Table

/-- **The size of the table of a set** that a list has the members of. -/
theorem size_ofSet {set : AddressSet} {xs : List UInt64} (hmem : ∀ a, a ∈ set.toList ↔ a ∈ xs)
    (hfits : ∀ a ∈ xs, fits a) :
    (ofSet set).size = ∑ page ∈ occupiedPages xs, blockSize (offsetsOn xs page).card := by
  have hgroups := groups_ofSet fun a ha => hfits a ((hmem a).mp ha)
  have hpages : occupiedPages set.toList = occupiedPages xs := by
    ext page
    simp only [mem_occupiedPages, hmem]
  have hoffsets : offsetsOn set.toList = offsetsOn xs := by
    funext page
    ext offset
    simp only [mem_offsetsOn, hmem]
  rw [size_eq_sum, ofSet, List.map_map, ← hpages, ← hoffsets, ← hgroups.sum_blockSize]
  exact congrArg List.sum (List.map_congr_left fun b _ => size_padded b)

/-! ## §2 Tables -/

/-- A table is not built exactly when some address does not fit, and then the first one is
reported. -/
theorem ofAddresses_eq_error_iff_append {xs : List UInt64} {fault : RelocationFault} :
    ofAddresses xs = .error fault ↔
      ∃ before a after, xs = before ++ a :: after ∧ (∀ a' ∈ before, a'.toNat < UInt32.size) ∧
        UInt32.size ≤ a.toNat ∧ fault = .addressTooLarge a := by
  rw [ofAddresses_eq_error_iff]
  simp only [List.find?_eq_some_iff_append, fits, Bool.not_eq_true', decide_eq_false_iff_not,
    Bool.not_not, decide_eq_true_eq, Nat.not_lt]
  constructor
  · rintro ⟨a, ⟨hbad, before, after, rfl, hbefore⟩, rfl⟩
    exact ⟨before, a, after, rfl, hbefore, hbad, rfl⟩
  · rintro ⟨before, a, after, rfl, hbefore, hbad, rfl⟩
    exact ⟨a, ⟨hbad, before, after, rfl, hbefore⟩, rfl⟩

/-- **The table of a list of addresses.** It is built exactly when all of them fit 32 bits, and
otherwise the first one that does not is reported. Its addresses are those of the list, once each
and in ascending order; another list of the same addresses has the same table. What it takes up is
eight bytes for each page that has addresses and two for each of its offsets, whose number is made
even. It is read back from its bytes. -/
theorem ofAddresses_roundTrip (xs : List UInt64) :
    ((∃ t, ofAddresses xs = .ok t) ↔ ∀ a ∈ xs, a.toNat < UInt32.size) ∧
    (∀ fault, ofAddresses xs = .error fault ↔
      ∃ before a after, xs = before ++ a :: after ∧ (∀ a' ∈ before, a'.toNat < UInt32.size) ∧
        UInt32.size ≤ a.toNat ∧ fault = .addressTooLarge a) ∧
    ∀ t, ofAddresses xs = .ok t →
      t.addresses.Pairwise (· < ·) ∧ (∀ a, a ∈ t.addresses ↔ a ∈ xs) ∧
      (∀ ys, (∀ a, a ∈ ys ↔ a ∈ xs) → ofAddresses ys = .ok t) ∧
      t.size = ∑ page ∈ occupiedPages xs, blockSize (offsetsOn xs page).card ∧
      t.bytes.size = t.size ∧ ofBytes t.bytes = .ok t := by
  have hfits : ∀ a, fits a = true ↔ a.toNat < UInt32.size := fun a => by simp [fits]
  refine ⟨?_, fun fault => ofAddresses_eq_error_iff_append, ?_⟩
  · simp only [ofAddresses_eq_ok_iff, exists_and_left, exists_eq, and_true, hfits]
  · intro t ht
    obtain ⟨hall, rfl⟩ := ofAddresses_eq_ok_iff.mp ht
    have hmem : ∀ a, a ∈ (AddressSet.ofList xs).toList ↔ a ∈ xs := fun a => by
      rw [Std.ExtTreeSet.mem_toList, AddressSet.mem_ofList]
    have hset : ∀ a ∈ (AddressSet.ofList xs).toList, fits a := fun a ha => hall a ((hmem a).mp ha)
    rw [addresses_ofSet hset]
    refine ⟨AddressSet.pairwise_toList _, hmem, ?_, size_ofSet hmem hall, size_eq _,
      ofBytes_bytes (encodable_ofSet hset)⟩
    intro ys hys
    have hsame : AddressSet.ofList ys = AddressSet.ofList xs :=
      Std.ExtTreeSet.ext_mem fun a => by rw [AddressSet.mem_ofList, AddressSet.mem_ofList, hys]
    exact ofAddresses_eq_ok_iff.mpr ⟨fun a ha => hall a ((hys a).mp ha), by rw [hsame]⟩

end Table

end Rebase.BaseRelocation
