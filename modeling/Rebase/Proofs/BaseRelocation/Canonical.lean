import Mathlib.Algebra.BigOperators.Ring.List
import Mathlib.Algebra.Ring.Nat
import Mathlib.Data.List.Sort
import Rebase.Proofs.BaseRelocation.Building
import Rebase.Proofs.BaseRelocation.Grammar

/-!
# Tables in canonical form

Many tables have the same addresses: the entries of a page can be in any order or in several blocks,
a block can be empty or filled up without need, and there can be entries of other kinds. Only one of
these tables is built. `Table.Canonical` says what it looks like without building it: the pages
ascend, and the block of each has its offsets in ascending order and is filled up only where their
number is odd.

- **Blocks**: `Block.OfPage.canonical_padded` and `Block.Canonical.exists_ofPage`, a block is
  canonical exactly when it is that of some addresses of a page, filled up
- **Grouping**: `Table.Groups.unique`, addresses can be grouped by page in one way only
- **Tables**: `Table.canonical_form`, what is built is what is canonical, and building and reading
  undo each other
-/

namespace Rebase.BaseRelocation

open Table (pageOf entryOf fits padded ofSet)

/-! ## §1 Blocks -/

/-- A block in canonical form. It is for a page and has entries for one or more offsets in ascending
order; behind them is one entry that does nothing, if their number is odd. -/
structure Block.Canonical (b : Block) : Prop where
  page : pageSize ∣ b.page.toNat
  entries : ∃ offsets : List UInt16, offsets ≠ [] ∧ offsets.Pairwise (· < ·) ∧
    b.entries = offsets.map (fun offset => ⟨offset, .dir64⟩) ++
      if offsets.length % 2 = 1 then [⟨0, .absolute⟩] else []

/-- A block is filled up where the number of its entries is odd. -/
private theorem Table.padded_eq (b : Block) :
    padded b = ⟨b.page, b.entries ++ if b.entries.length % 2 = 1 then [Entry.padding] else []⟩ := by
  unfold padded
  split
  · next h =>
    simp only [Block.size, Block.headerSize] at h
    rw [if_neg (by omega), List.append_nil]
  · next h =>
    simp only [Block.size, Block.headerSize] at h
    rw [if_pos (by omega)]

/-- A block of addresses of a page is in canonical form when it is filled up. -/
theorem Block.OfPage.canonical_padded {b : Block} {addresses : List UInt64}
    (h : b.OfPage addresses) (hne : addresses ≠ []) : (padded b).Canonical where
  page := by
    obtain ⟨a, ha⟩ := List.exists_mem_of_ne_nil addresses hne
    rw [Table.padded_eq, ← h.page a ha, toNat_pageOf (h.fits a ha)]
    exact Nat.dvd_mul_left _ _
  entries := by
    refine ⟨addresses.map fun a => (entryOf a).offset, by simpa using hne, ?_, ?_⟩
    · refine List.pairwise_map.mpr ((List.pairwise_map.mp h.pairwise_offsets).imp ?_)
      intro a a' hlt
      rw [UInt16.lt_iff_toNat_lt, toNat_offset_entryOf, toNat_offset_entryOf]
      exact hlt
    · rw [Table.padded_eq, h.entries, List.map_map, List.length_map, List.length_map]
      rfl

section Address

variable {page : UInt32} {offset : UInt16} (hpage : pageSize ∣ page.toNat)
  (hoffset : offset.toNat < pageSize)

/-- The address of a page and an offset is their sum. -/
private theorem toNat_page_add_offset :
    (page.toUInt64 + offset.toUInt64).toNat = page.toNat + offset.toNat := by
  have hlt : page.toNat < 2 ^ 32 := page.toNat_lt
  have hless : offset.toNat < 2 ^ 16 := offset.toNat_lt
  rw [UInt64.toNat_add, UInt32.toNat_toUInt64, UInt16.toNat_toUInt64, Nat.mod_eq_of_lt (by omega)]

include hpage hoffset

private theorem fits_page_add_offset : fits (page.toUInt64 + offset.toUInt64) := by
  have hlt : page.toNat < 2 ^ 32 := page.toNat_lt
  simp only [pageSize] at hpage hoffset
  simp only [fits, decide_eq_true_eq, toNat_page_add_offset, UInt32.size]
  -- The last page starts one page before the end.
  omega

private theorem pageOf_page_add_offset : pageOf (page.toUInt64 + offset.toUInt64) = page := by
  apply UInt32.toNat.inj
  rw [toNat_pageOf (fits_page_add_offset hpage hoffset), toNat_page_add_offset]
  simp only [pageSize] at hpage hoffset ⊢
  omega

private theorem entryOf_page_add_offset :
    entryOf (page.toUInt64 + offset.toUInt64) = ⟨offset, .dir64⟩ := by
  have hsame : (entryOf (page.toUInt64 + offset.toUInt64)).offset = offset := by
    apply UInt16.toNat.inj
    rw [toNat_offset_entryOf, toNat_page_add_offset]
    simp only [pageSize] at hpage hoffset ⊢
    omega
  exact congrArg (Entry.mk · .dir64) hsame

end Address

/-- **A block in canonical form** is that of some addresses of a page, filled up. -/
theorem Block.Canonical.exists_ofPage {b : Block} (h : b.Canonical)
    (hentries : ∀ e ∈ b.entries, e.Encodable) :
    ∃ b' : Block, padded b' = b ∧ b'.OfPage b.addresses ∧ b.addresses ≠ [] := by
  obtain ⟨hpage, offsets, hne, hascending, hstored⟩ := h
  -- Without its padding the block has one entry for each offset.
  have hfilled : padded ⟨b.page, offsets.map fun offset => ⟨offset, .dir64⟩⟩ = b := by
    rw [Table.padded_eq, List.length_map]
    exact congrArg (Block.mk b.page) hstored.symm
  have haddresses : b.addresses = offsets.map fun offset => b.page.toUInt64 + offset.toUInt64 := by
    conv_lhs => rw [← hfilled, Block.addresses_padded, Block.addresses, List.filterMap_map]
    exact congrFun List.filterMap_eq_map offsets
  have hoffsets : ∀ offset ∈ offsets, offset.toNat < pageSize := by
    intro offset hmem
    refine (hentries ⟨offset, .dir64⟩ ?_).offset
    rw [hstored]
    exact List.mem_append_left _ (List.mem_map_of_mem hmem)
  refine ⟨_, hfilled, ?_, by simpa [haddresses] using hne⟩
  rw [haddresses]
  exact {
    entries := by
      rw [List.map_map]
      exact List.map_congr_left fun offset hmem =>
        (entryOf_page_add_offset hpage (hoffsets offset hmem)).symm
    ascending := by
      refine List.pairwise_map.mpr (hascending.imp fun {offset offset'} hlt => ?_)
      rw [UInt64.lt_iff_toNat_lt, toNat_page_add_offset, toNat_page_add_offset]
      exact Nat.add_lt_add_left hlt _
    fits := List.forall_mem_map.mpr fun offset hmem =>
      fits_page_add_offset hpage (hoffsets offset hmem)
    page := List.forall_mem_map.mpr fun offset hmem =>
      pageOf_page_add_offset hpage (hoffsets offset hmem) }

/-! ## §2 Grouping -/

namespace Table

/-- The block of a page, for the addresses of a list that are on it. -/
def blockOn (xs : List UInt64) (page : UInt32) : Block :=
  ⟨page, (xs.filter fun a => pageOf a = page).map entryOf⟩

namespace Groups

variable {blocks : List Block} {xs : List UInt64}

/-- The blocks that group addresses are known from their pages. -/
private theorem eq_map_blockOn (h : Groups blocks xs) :
    blocks = (blocks.map Block.page).map (blockOn xs) := by
  rw [List.map_map]
  refine (List.map_id _).symm.trans (List.map_congr_left fun b hb => ?_)
  exact congrArg (Block.mk b.page) (h.ofPage b hb).entries

/-- **Addresses can be grouped by page in one way only.** -/
theorem unique {other : List Block} (h : Groups blocks xs) (ho : Groups other xs) :
    blocks = other := by
  have hpages : blocks.map Block.page = other.map Block.page :=
    h.ascending.eq_of_mem_iff ho.ascending fun page => (h.pages page).trans (ho.pages page).symm
  rw [h.eq_map_blockOn, hpages, ← ho.eq_map_blockOn]

end Groups

private theorem map_page_padded (blocks : List Block) :
    (blocks.map padded).map Block.page = blocks.map Block.page := by
  rw [List.map_map]
  refine List.map_congr_left fun b _ => ?_
  rw [Function.comp_apply, padded_eq]

/-! ## §3 Tables -/

/-- A table in canonical form: its blocks are, and their pages ascend. -/
structure Canonical (t : Table) : Prop where
  ascending : (t.blocks.map Block.page).Pairwise (· < ·)
  blocks : ∀ b ∈ t.blocks, b.Canonical

/-- Every block of a table starts and ends at a multiple of four. -/
def Aligned (t : Table) : Prop :=
  ∀ before b after, t.blocks = before ++ b :: after →
    4 ∣ (before.flatMap Block.encode).length ∧ 4 ∣ b.encode.length

theorem Canonical.aligned {t : Table} (h : t.Canonical) : t.Aligned := by
  have hblock : ∀ b ∈ t.blocks, 4 ∣ b.encode.length := by
    intro b hb
    obtain ⟨offsets, _, _, hstored⟩ := (h.blocks b hb).entries
    rw [Block.length_encode, Block.size, hstored, List.length_append, List.length_map,
      Block.headerSize]
    split
    · rw [List.length_singleton]
      omega
    · rw [List.length_nil]
      omega
  intro before b after hsplit
  rw [hsplit] at hblock
  refine ⟨?_, hblock b (by simp)⟩
  rw [List.length_flatMap]
  refine List.dvd_sum (List.forall_mem_map.mpr fun b' hb' => hblock b' ?_)
  exact List.mem_append_left _ hb'

/-- Grouped addresses make a table in canonical form, when the blocks are filled up. -/
private theorem Groups.canonical {blocks : List Block} {xs : List UInt64} (h : Groups blocks xs) :
    Canonical ⟨blocks.map padded⟩ where
  ascending := by
    rw [map_page_padded]
    exact h.ascending
  blocks := List.forall_mem_map.mpr fun b hb => by
    obtain ⟨a, ha, hpage⟩ := (h.pages b.page).mp (List.mem_map_of_mem hb)
    have hmem : a ∈ xs.filter fun a => pageOf a = b.page :=
      List.mem_filter.mpr ⟨ha, by simp [hpage]⟩
    exact (h.ofPage b hb).canonical_padded (List.ne_nil_of_mem hmem)

/-- A table in canonical form groups its addresses. -/
theorem exists_groups_of_canonical {blocks : List Block}
    (hascending : (blocks.map Block.page).Pairwise (· < ·)) (hcanonical : ∀ b ∈ blocks, b.Canonical)
    (hentries : ∀ b ∈ blocks, ∀ e ∈ b.entries, e.Encodable) :
    ∃ groups, groups.map padded = blocks ∧ Groups groups (blocks.flatMap Block.addresses) := by
  induction blocks with
  | nil => exact ⟨[], rfl, .nil, by simp, by simp⟩
  | cons b rest ih =>
    obtain ⟨hbelow, hrest⟩ := List.pairwise_cons.mp hascending
    obtain ⟨hb, hcanonical⟩ := List.forall_mem_cons.mp hcanonical
    obtain ⟨hbentries, hentries⟩ := List.forall_mem_cons.mp hentries
    obtain ⟨groups, rfl, hgroups⟩ := ih hrest hcanonical hentries
    obtain ⟨b', rfl, hof, hne⟩ := hb.exists_ofPage hbentries
    rw [map_page_padded, padded_eq] at hbelow
    exact ⟨b' :: groups, rfl, hgroups.cons hof hne hbelow⟩

namespace Canonical

variable {t : Table} (h : t.Canonical) (hentries : ∀ b ∈ t.blocks, ∀ e ∈ b.entries, e.Encodable)

include h hentries

/-- The addresses of a table in canonical form are those of a set, as they are listed. -/
private theorem toList_addresses : (AddressSet.ofList t.addresses).toList = t.addresses := by
  obtain ⟨groups, hfilled, hgroups⟩ := exists_groups_of_canonical h.ascending h.blocks hentries
  have hascending : t.addresses.Pairwise (· < ·) := by
    have hall := hgroups.pairwise_addresses
    rw [addresses, ← hfilled, List.flatMap_map]
    simpa only [Block.addresses_padded] using hall
  refine AddressSet.eq_of_pairwise (AddressSet.pairwise_toList _) hascending fun a => ?_
  rw [Std.ExtTreeSet.mem_toList, AddressSet.mem_ofList]

/-- **A table in canonical form is built** from its addresses. -/
theorem ofAddresses_addresses : ofAddresses t.addresses = .ok t := by
  obtain ⟨groups, hfilled, hgroups⟩ := exists_groups_of_canonical h.ascending h.blocks hentries
  have hsame := toList_addresses h hentries
  have hfits : ∀ a ∈ t.addresses, fits a := fun a ha => hgroups.fits_of_mem ha
  refine ofAddresses_eq_ok_iff.mpr ⟨hfits, ?_⟩
  -- Both the table and what is built group the same addresses, so they have the same blocks.
  have hbuilt : Groups (t.addresses.foldr addFront []) t.addresses := by
    rw [← hsame] at hfits ⊢
    exact groups_ofSet hfits
  rw [ofSet, hsame, hbuilt.unique hgroups, hfilled]

end Canonical

/-- **What is built is in canonical form.** -/
theorem canonical_of_ofAddresses {xs : List UInt64} {t : Table} (h : ofAddresses xs = .ok t) :
    t.Canonical := by
  obtain ⟨hfits, rfl⟩ := ofAddresses_eq_ok_iff.mp h
  refine (groups_ofSet fun a ha => hfits a ?_).canonical
  rwa [Std.ExtTreeSet.mem_toList, AddressSet.mem_ofList] at ha

/-- A table that was read can be written. -/
private theorem encodable_of_ofBytes {bytes : Bytes} {t : Table} (h : ofBytes bytes = .ok t) :
    ∀ b ∈ t.blocks, b.Encodable := by
  obtain ⟨raws, hblocks, _⟩ := ofBytes_eq_ok_iff.mp h
  rw [← hblocks]
  exact List.forall_mem_map.mpr fun raw _ => raw.encodable_toBlock

/-- **The canonical form of tables.** Of the tables that can be read, those in canonical form are
the ones that are built from their own addresses, byte for byte. Everything that is built is in this
form, so its blocks start and end at multiples of four. Between the sets of addresses that fit 32
bits and the bytes of tables in canonical form, building and reading are inverse to each other. -/
theorem canonical_form :
    (∀ bytes t, ofBytes bytes = .ok t →
      ((∃ built, ofAddresses t.addresses = .ok built ∧ built.bytes = bytes) ↔ t.Canonical)) ∧
    (∀ xs t, ofAddresses xs = .ok t → t.Canonical ∧ t.Aligned) ∧
    (∀ set : AddressSet, (∀ a ∈ set, a.toNat < UInt32.size) →
      ∃ t, ofAddresses set.toList = .ok t ∧ ofBytes t.bytes = .ok t ∧ t.Canonical ∧
        AddressSet.ofList t.addresses = set) ∧
    ∀ bytes t, ofBytes bytes = .ok t → t.Canonical →
      (∀ a ∈ AddressSet.ofList t.addresses, a.toNat < UInt32.size) ∧
        ∃ built, ofAddresses (AddressSet.ofList t.addresses).toList = .ok built ∧
          built.bytes = bytes := by
  have hread : ∀ {bytes t}, ofBytes bytes = .ok t → ∀ b ∈ t.blocks, ∀ e ∈ b.entries, e.Encodable :=
    fun ht b hb => (encodable_of_ofBytes ht b hb).entries
  have hfits : ∀ a, fits a = true ↔ a.toNat < UInt32.size := fun a => by simp [fits]
  refine ⟨fun bytes t ht => ⟨?_, fun h => ?_⟩, fun xs t ht => ?_, fun set hset => ?_,
    fun bytes t ht h => ?_⟩
  · rintro ⟨built, hbuilt, rfl⟩
    -- What was built is read back, so it is the table that was read.
    obtain ⟨hall, hsame⟩ := ofAddresses_eq_ok_iff.mp hbuilt
    have hback : ofBytes built.bytes = .ok built := by
      rw [hsame]
      refine ofBytes_bytes (encodable_ofSet fun a ha => hall a ?_)
      rwa [Std.ExtTreeSet.mem_toList, AddressSet.mem_ofList] at ha
    cases hback.symm.trans ht
    exact canonical_of_ofAddresses hbuilt
  · exact ⟨t, h.ofAddresses_addresses (hread ht), bytes_of_ofBytes ht⟩
  · have h := canonical_of_ofAddresses ht
    exact ⟨h, h.aligned⟩
  · have hall : ∀ a ∈ set.toList, fits a := fun a ha =>
      (hfits a).mpr (hset a (Std.ExtTreeSet.mem_toList.mp ha))
    have hbuilt : ofAddresses set.toList = .ok (ofSet set) :=
      ofAddresses_toList_eq_ok_iff.mpr ⟨hall, rfl⟩
    refine ⟨_, hbuilt, ofBytes_bytes (encodable_ofSet hall), canonical_of_ofAddresses hbuilt, ?_⟩
    rw [addresses_ofSet hall]
    exact Std.ExtTreeSet.ext_mem fun a => by rw [AddressSet.mem_ofList, Std.ExtTreeSet.mem_toList]
  · have hbuilt := h.ofAddresses_addresses (hread ht)
    refine ⟨fun a ha => ?_, t, ?_, bytes_of_ofBytes ht⟩
    · exact (hfits a).mp ((ofAddresses_eq_ok_iff.mp hbuilt).1 a (AddressSet.mem_ofList.mp ha))
    · rw [h.toList_addresses (hread ht)]
      exact hbuilt

end Table

end Rebase.BaseRelocation
