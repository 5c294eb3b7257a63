import Mathlib.Data.List.Basic
import Rebase.Proofs.BaseRelocation.RoundTrip

/-!
# The pages of a base relocation table

The table of a set is built by taking the addresses one by one. What comes out is one block for each
page: `Block.OfPage` relates a block to the addresses it stands for, and `Table.Groups` is what
holds of the blocks at every step, so of those of an ascending list: their pages ascend, and each of
them stands for all addresses of its page.

- **Addresses**: `Table.addresses_ofSet`, the addresses of the table of a set are those of the set
- **Sizes**: `Table.encodable_ofSet`, a page has at most 4096 addresses, so every block can be
  written
-/

namespace Rebase.BaseRelocation

open Table (pageOf entryOf fits addFront padded ofSet)

/-! ## §1 Addresses -/

theorem toNat_pageOf {a : UInt64} (hfits : fits a) :
    (pageOf a).toNat = a.toNat / pageSize * pageSize := by
  have hlt : a.toNat < UInt32.size := by simpa [fits] using hfits
  simp only [UInt32.size] at hlt
  simp only [pageOf, pageSize, UInt64.toNat_toUInt32, UInt64.toNat_mul, UInt64.toNat_div,
    UInt64.toNat_ofNat, Nat.reducePow, Nat.reduceMod]
  omega

/-- The pages of ascending addresses do not descend. -/
private theorem pageOf_le {a a' : UInt64} (hfits : fits a') (h : a ≤ a') :
    pageOf a ≤ pageOf a' := by
  have hle : a.toNat ≤ a'.toNat := h
  have hafits : fits a := by
    simp only [fits, decide_eq_true_eq] at hfits ⊢
    omega
  rw [UInt32.le_iff_toNat_le, toNat_pageOf hafits, toNat_pageOf hfits]
  exact Nat.mul_le_mul_right _ (Nat.div_le_div_right hle)

theorem toNat_offset_entryOf (a : UInt64) : (entryOf a).offset.toNat = a.toNat % pageSize := by
  simp only [entryOf, pageSize, UInt64.toNat_toUInt16, UInt64.toNat_mod, UInt64.toNat_ofNat,
    Nat.reducePow, Nat.reduceMod]
  omega

private theorem encodable_entryOf (a : UInt64) : (entryOf a).Encodable where
  offset := by
    rw [toNat_offset_entryOf]
    exact Nat.mod_lt _ (by decide)
  kind := show UInt16.toNat 10 < 16 by decide
  named := rfl

private theorem encodable_padding : Entry.padding.Encodable where
  offset := by decide
  kind := by decide
  named := by decide

/-- An address is that of its page and the offset inside of it. -/
private theorem page_add_offset {a : UInt64} (hfits : fits a) :
    (pageOf a).toUInt64 + (entryOf a).offset.toUInt64 = a := by
  have hlt : a.toNat < UInt32.size := by simpa [fits] using hfits
  have hpage := toNat_pageOf hfits
  have hoffset := toNat_offset_entryOf a
  simp only [UInt32.size] at hlt
  simp only [pageSize] at hpage hoffset
  apply UInt64.toNat.inj
  rw [UInt64.toNat_add, UInt32.toNat_toUInt64, UInt16.toNat_toUInt64, hpage, hoffset]
  omega

/-- Ascending numbers of a range are not more than the range has. -/
theorem length_le_of_pairwise {xs : List Nat} {lo hi : Nat} (hle : lo ≤ hi)
    (h : xs.Pairwise (· < ·))
    (hlo : ∀ x ∈ xs, lo ≤ x) (hhi : ∀ x ∈ xs, x < hi) : xs.length ≤ hi - lo := by
  induction xs generalizing lo with
  | nil => exact Nat.zero_le _
  | cons x xs ih =>
    -- All numbers behind the first are above it, so they are counted from the next one on.
    obtain ⟨hx, hrest⟩ := List.pairwise_cons.mp h
    have hxlo := hlo x List.mem_cons_self
    have hxhi := hhi x List.mem_cons_self
    have hlength : xs.length ≤ hi - (x + 1) :=
      ih (by omega) hrest (fun y hy => hx y hy) fun y hy => hhi y (List.mem_cons_of_mem _ hy)
    rw [List.length_cons]
    omega

/-! ## §2 Blocks -/

/-- A block has an entry for each of some ascending addresses of its page. -/
structure Block.OfPage (b : Block) (addresses : List UInt64) : Prop where
  entries : b.entries = addresses.map entryOf
  ascending : addresses.Pairwise (· < ·)
  fits : ∀ a ∈ addresses, fits a
  page : ∀ a ∈ addresses, pageOf a = b.page

namespace Block.OfPage

variable {b : Block} {addresses : List UInt64}

/-- The addresses of a block are those that it has entries for. -/
private theorem addresses_eq (h : b.OfPage addresses) : b.addresses = addresses := by
  obtain ⟨hentries, _, hfits, hpage⟩ := h
  rw [Block.addresses, hentries, List.filterMap_map]
  calc
    _ = addresses.filterMap some := List.filterMap_congr fun a ha => by
      have hsum := page_add_offset (hfits a ha)
      rw [hpage a ha] at hsum
      simp only [Function.comp_apply, hsum]
      rfl
    _ = addresses := List.filterMap_some

/-- A page has at most 4096 addresses. -/
private theorem length_le (h : b.OfPage addresses) : addresses.length ≤ pageSize := by
  have hascending : (addresses.map UInt64.toNat).Pairwise (· < ·) :=
    List.pairwise_map.mpr (h.ascending.imp fun hlt => hlt)
  -- The addresses of a page lie between its first address and that of the next page.
  have hpage : ∀ x ∈ addresses.map UInt64.toNat, x / pageSize * pageSize = b.page.toNat := by
    intro x hx
    obtain ⟨a, ha, rfl⟩ := List.mem_map.mp hx
    rw [← toNat_pageOf (h.fits a ha), h.page a ha]
  have hlength := length_le_of_pairwise (Nat.le_add_right b.page.toNat pageSize) hascending
    (fun x hx => by
      have := hpage x hx
      simp only [pageSize] at this
      omega)
    fun x hx => by
      have := hpage x hx
      simp only [pageSize] at this ⊢
      omega
  rw [List.length_map] at hlength
  omega

end Block.OfPage

namespace Block

/-- A block that is filled up has the addresses it had. -/
theorem addresses_padded (b : Block) : (padded b).addresses = b.addresses := by
  unfold padded
  split
  · rfl
  · simp [Block.addresses, Entry.padding]

/-- **The block of a page can be written**, also when it is filled up. -/
theorem encodable_padded {b : Block} {addresses : List UInt64} (h : b.OfPage addresses) :
    (padded b).Encodable := by
  have hlength := h.length_le
  -- At most 4096 entries and one to fill up stay far below 4 GiB.
  have hentries : ∀ e ∈ b.entries, e.Encodable := by
    rw [h.entries]
    intro e he
    obtain ⟨a, _, rfl⟩ := List.mem_map.mp he
    exact encodable_entryOf a
  have hcount : b.entries.length ≤ pageSize := by
    rw [h.entries, List.length_map]
    exact hlength
  simp only [pageSize] at hcount
  unfold padded
  split
  · exact ⟨hentries, by simp only [Block.size, Block.headerSize, UInt32.size]; omega⟩
  · refine ⟨?_, ?_⟩
    · intro e he
      rcases List.mem_append.mp he with hold | hpad
      · exact hentries e hold
      · rw [List.mem_singleton.mp hpad]
        exact encodable_padding
    · simp only [Block.size, Block.headerSize, UInt32.size, List.length_append,
        List.length_singleton]
      omega

end Block

/-! ## §3 Tables -/

namespace Table

/-- Blocks that group addresses by page: no page has two of them, and each has all addresses of its
page. -/
structure Groups (blocks : List Block) (xs : List UInt64) : Prop where
  ascending : (blocks.map Block.page).Pairwise (· < ·)
  pages : ∀ page, page ∈ blocks.map Block.page ↔ ∃ a ∈ xs, pageOf a = page
  ofPage : ∀ b ∈ blocks, b.OfPage (xs.filter fun a => pageOf a = b.page)

/-- A block for a page below all others is one block more. -/
theorem Groups.cons {b : Block} {blocks : List Block} {xs ys : List UInt64} (h : Groups blocks ys)
    (hb : b.OfPage xs) (hne : xs ≠ []) (hbelow : ∀ page ∈ blocks.map Block.page, b.page < page) :
    Groups (b :: blocks) (xs ++ ys) where
  ascending := List.pairwise_cons.mpr ⟨hbelow, h.ascending⟩
  pages := by
    have hfirst : ∀ page, page = b.page ↔ ∃ a ∈ xs, pageOf a = page := by
      intro page
      constructor
      · rintro rfl
        obtain ⟨a, ha⟩ := List.exists_mem_of_ne_nil xs hne
        exact ⟨a, ha, hb.page a ha⟩
      · rintro ⟨a, ha, rfl⟩
        exact hb.page a ha
    intro page
    simp only [List.map_cons, List.mem_cons, h.pages, hfirst, List.mem_append, or_and_right,
      exists_or]
  ofPage := by
    intro b' hb'
    rw [List.filter_append]
    rcases List.mem_cons.mp hb' with rfl | hmem
    · -- No other address is on the page, or the page would have a block already.
      have hnone : ys.filter (fun a => pageOf a = b'.page) = [] := by
        rw [List.filter_eq_nil_iff]
        intro a ha hsame
        have hpage := (h.pages b'.page).mpr ⟨a, ha, of_decide_eq_true hsame⟩
        exact absurd (hbelow _ hpage) (UInt32.lt_irrefl _)
      have hall : xs.filter (fun a => pageOf a = b'.page) = xs :=
        List.filter_eq_self.mpr fun a ha => decide_eq_true (hb.page a ha)
      rw [hall, hnone, List.append_nil]
      exact hb
    · have hless := hbelow _ (List.mem_map_of_mem hmem)
      have hnone : xs.filter (fun a => pageOf a = b'.page) = [] := by
        rw [List.filter_eq_nil_iff]
        intro a ha hsame
        rw [← hb.page a ha, of_decide_eq_true hsame] at hless
        exact absurd hless (UInt32.lt_irrefl _)
      rw [hnone, List.nil_append]
      exact h.ofPage b' hmem

/-- A page of its own below all others makes one block more. -/
private theorem Groups.cons_block {blocks : List Block} {xs : List UInt64} {a : UInt64}
    (h : Groups blocks xs) (hafits : fits a)
    (hbelow : ∀ page ∈ blocks.map Block.page, pageOf a < page) :
    Groups (⟨pageOf a, [entryOf a]⟩ :: blocks) (a :: xs) := by
  have hof : Block.OfPage ⟨pageOf a, [entryOf a]⟩ [a] :=
    ⟨rfl, List.pairwise_singleton _ _, by simpa using hafits, by simp⟩
  exact h.cons hof (List.cons_ne_nil _ _) hbelow

/-- An address of the first page is one more for the first block. -/
private theorem Groups.cons_entry {b : Block} {blocks : List Block} {xs : List UInt64} {a : UInt64}
    (h : Groups (b :: blocks) xs) (hafits : fits a) (hless : ∀ a' ∈ xs, a < a')
    (hsame : b.page = pageOf a) :
    Groups (⟨b.page, entryOf a :: b.entries⟩ :: blocks) (a :: xs) where
  ascending := h.ascending
  pages := by
    intro page
    have hold := h.pages page
    simp only [List.map_cons, List.mem_cons, exists_eq_or_imp, ← hsame] at hold ⊢
    rw [← hold, eq_comm (a := b.page), or_self_left]
  ofPage := by
    have hbelow := (List.pairwise_cons.mp h.ascending).1
    intro b' hb'
    rcases List.mem_cons.mp hb' with rfl | hmem
    · have hb := h.ofPage b List.mem_cons_self
      rw [List.filter_cons_of_pos (by simp [hsame])]
      exact ⟨by rw [hb.entries, List.map_cons],
        List.pairwise_cons.mpr ⟨fun a' ha' => hless a' (List.mem_filter.mp ha').1, hb.ascending⟩,
        List.forall_mem_cons.mpr ⟨hafits, hb.fits⟩,
        List.forall_mem_cons.mpr ⟨hsame.symm, hb.page⟩⟩
    · have hother : pageOf a ≠ b'.page := by
        rw [← hsame]
        exact UInt32.ne_of_lt (hbelow _ (List.mem_map_of_mem hmem))
      rw [List.filter_cons_of_neg (by simpa using hother)]
      exact h.ofPage b' (List.mem_cons_of_mem _ hmem)

/-- **An address below all others** keeps the blocks grouped. -/
theorem Groups.addFront {blocks : List Block} {xs : List UInt64} {a : UInt64}
    (h : Groups blocks xs) (hfits : ∀ a' ∈ a :: xs, fits a') (hless : ∀ a' ∈ xs, a < a') :
    Groups (Table.addFront a blocks) (a :: xs) := by
  have hafits := hfits a List.mem_cons_self
  cases blocks with
  | nil => exact h.cons_block hafits (by simp)
  | cons b rest =>
    rw [Table.addFront]
    split
    · next hsame => exact h.cons_entry hafits hless hsame
    · next hother =>
      refine h.cons_block hafits ?_
      -- The first block has an address, which is above `a`, so its page is not below that of `a`.
      obtain ⟨a', ha', hpage⟩ := (h.pages b.page).mp List.mem_cons_self
      have hle := pageOf_le (hfits a' (List.mem_cons_of_mem _ ha')) (UInt64.le_of_lt (hless a' ha'))
      rw [hpage] at hle
      have hfirst : pageOf a < b.page := UInt32.lt_of_le_of_ne hle (Ne.symm hother)
      exact List.forall_mem_cons.mpr ⟨hfirst, fun page hmem =>
        UInt32.lt_trans hfirst ((List.pairwise_cons.mp h.ascending).1 page hmem)⟩

/-- **Ascending addresses are grouped by page.** -/
theorem groups_foldr_addFront {xs : List UInt64} (hascending : xs.Pairwise (· < ·))
    (hfits : ∀ a ∈ xs, fits a) : Groups (xs.foldr addFront []) xs := by
  induction xs with
  | nil => exact ⟨.nil, by simp, by simp⟩
  | cons a rest ih =>
    obtain ⟨hless, hrest⟩ := List.pairwise_cons.mp hascending
    exact (ih hrest fun a' ha' => hfits a' (List.mem_cons_of_mem _ ha')).addFront hfits hless

/-- The addresses of grouped blocks are all that were grouped. -/
theorem Groups.mem_addresses {blocks : List Block} {xs : List UInt64} (h : Groups blocks xs)
    {a : UInt64} : a ∈ blocks.flatMap Block.addresses ↔ a ∈ xs := by
  rw [List.mem_flatMap]
  constructor
  · rintro ⟨b, hb, ha⟩
    rw [(h.ofPage b hb).addresses_eq] at ha
    exact (List.mem_filter.mp ha).1
  · intro ha
    obtain ⟨b, hb, hpage⟩ := List.mem_map.mp ((h.pages (pageOf a)).mpr ⟨a, ha, rfl⟩)
    refine ⟨b, hb, ?_⟩
    rw [(h.ofPage b hb).addresses_eq]
    exact List.mem_filter.mpr ⟨ha, by simp [hpage]⟩

/-- The addresses of grouped blocks ascend, in each block and from one block to the next. -/
theorem Groups.pairwise_addresses {blocks : List Block} {xs : List UInt64} (h : Groups blocks xs) :
    (blocks.flatMap Block.addresses).Pairwise (· < ·) := by
  rw [List.pairwise_flatMap]
  constructor
  · intro b hb
    rw [(h.ofPage b hb).addresses_eq]
    exact (h.ofPage b hb).ascending
  · refine (List.pairwise_map.mp h.ascending).imp_of_mem ?_
    intro b b' hb hb' hlt a ha a' ha'
    have hof := h.ofPage b hb
    have hof' := h.ofPage b' hb'
    rw [hof.addresses_eq] at ha
    rw [hof'.addresses_eq] at ha'
    rw [← hof.page a ha, ← hof'.page a' ha'] at hlt
    -- Addresses in the other order would have their pages in the other order.
    refine UInt64.not_le.mp fun hle => ?_
    exact absurd hlt (UInt32.not_lt.mpr (pageOf_le (hof.fits a ha) hle))

/-- The blocks of the table of a set group its addresses, before they are filled up. -/
theorem groups_ofSet {set : AddressSet} (hfits : ∀ a ∈ set.toList, fits a) :
    Groups (set.toList.foldr addFront []) set.toList :=
  groups_foldr_addFront set.pairwise_toList hfits

/-- **The addresses of the table of a set** are those of the set, in ascending order. -/
theorem addresses_ofSet {set : AddressSet} (hfits : ∀ a ∈ set.toList, fits a) :
    (ofSet set).addresses = set.toList := by
  have hgroups := groups_ofSet hfits
  rw [ofSet, addresses, List.flatMap_map]
  simp only [Block.addresses_padded]
  exact AddressSet.eq_of_pairwise hgroups.pairwise_addresses set.pairwise_toList fun _ =>
    hgroups.mem_addresses

/-- **The table of a set can be written.** -/
theorem encodable_ofSet {set : AddressSet} (hfits : ∀ a ∈ set.toList, fits a) :
    ∀ b ∈ (ofSet set).blocks, b.Encodable := by
  intro b hb
  obtain ⟨b', hb', rfl⟩ := List.mem_map.mp hb
  exact Block.encodable_padded ((groups_ofSet hfits).ofPage b' hb')

/-- A table is built from a list exactly when all addresses fit, and then it is that of their
set. -/
theorem ofAddresses_eq_ok_iff {xs : List UInt64} {t : Table} :
    ofAddresses xs = .ok t ↔ (∀ a ∈ xs, fits a) ∧ t = ofSet (AddressSet.ofList xs) := by
  unfold ofAddresses
  split
  · next a ha =>
    -- An address that was found is one that does not fit.
    have hnot : ¬ ∀ a ∈ xs, fits a = true := fun hall => by
      have hbad := List.find?_some ha
      rw [hall a (List.mem_of_find?_eq_some ha)] at hbad
      cases hbad
    constructor
    · intro h
      cases h
    · intro h
      exact absurd h.1 hnot
  · next hnone =>
    have hall : ∀ a ∈ xs, fits a = true := by simpa using hnone
    constructor
    · intro h
      cases h
      exact ⟨hall, rfl⟩
    · intro h
      rw [h.2]

/-- A table is built from the list of a set exactly when all addresses fit. -/
theorem ofAddresses_toList_eq_ok_iff {set : AddressSet} {t : Table} :
    ofAddresses set.toList = .ok t ↔ (∀ a ∈ set.toList, fits a) ∧ t = ofSet set := by
  have hset : AddressSet.ofList set.toList = set :=
    Std.ExtTreeSet.ext_mem fun a => by rw [AddressSet.mem_ofList, Std.ExtTreeSet.mem_toList]
  rw [ofAddresses_eq_ok_iff, hset]

end Table

end Rebase.BaseRelocation
