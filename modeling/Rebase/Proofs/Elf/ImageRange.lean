import Mathlib.Order.Bounds.Basic
import Rebase.Elf.ImageRange
import Rebase.Elf.SectionTable

/-!
# What the range of an image is

The range of an image is made by widening a range once for each mapped section. What comes out does
not depend on the order: it starts at the least address of a mapped section and ends at the greatest
end, where an end above the last address there is counts as that one. `AddressRange.Spans` says this
of a range without making one, and there is at most one range of which it is true.

- **Widening**: `foldl_hull_mem`, the bounds of the result are bounds of what it was made from
- **Sections**: `imageRange_eq_some_iff`, the range is the one that spans the mapped sections
- **Images**: `SectionTable.imageRange_eq_some_iff_spans` and
  `SectionTable.imageRange_eq_none_iff_mapped`
-/

namespace Rebase.Elf

/-! ## §1 Spans -/

/-- A range runs from the least address of some sections to their greatest end. An end above the
last address there is counts as that one. -/
structure AddressRange.Spans (range : AddressRange) (sections : Section → Prop) : Prop where
  low : IsLeast {a | ∃ s, sections s ∧ s.address.toNat = a} range.low.toNat
  high : IsGreatest
    {a | ∃ s, sections s ∧ min (s.address.toNat + s.size.toNat) (UInt64.size - 1) = a}
    range.high.toNat

namespace AddressRange

/-- At most one range spans some sections. -/
theorem Spans.unique {a b : AddressRange} {sections : Section → Prop} (ha : a.Spans sections)
    (hb : b.Spans sections) : a = b := by
  have hlow : a.low = b.low := UInt64.toNat.inj (ha.low.unique hb.low)
  have hhigh : a.high = b.high := UInt64.toNat.inj (ha.high.unique hb.high)
  cases a
  cases b
  simp_all only

/-- An address lies in a range when it is between its bounds. -/
theorem contains_iff {range : AddressRange} {address : UInt64} :
    range.contains address = true ↔
      range.low.toNat ≤ address.toNat ∧ address.toNat < range.high.toNat := by
  rw [contains, Bool.and_eq_true, decide_eq_true_eq, decide_eq_true_eq, UInt64.le_iff_toNat_le,
    UInt64.lt_iff_toNat_lt]

private theorem low_hull_eq (a b : AddressRange) :
    (hull a b).low = a.low ∨ (hull a b).low = b.low := by
  simp only [hull]
  split
  · exact .inr rfl
  · exact .inl rfl

private theorem high_hull_eq (a b : AddressRange) :
    (hull a b).high = a.high ∨ (hull a b).high = b.high := by
  simp only [hull]
  split
  · exact .inr rfl
  · exact .inl rfl

end AddressRange

/-! ## §2 Sections -/

/-- Each bound of a range that was widened is a bound of one of the ranges that it was made from.
The induction is on those that it is still to be widened by. -/
theorem foldl_hull_mem (rest : List AddressRange) (first : AddressRange) :
    (∃ r ∈ first :: rest, (rest.foldl AddressRange.hull first).low = r.low) ∧
      ∃ r ∈ first :: rest, (rest.foldl AddressRange.hull first).high = r.high := by
  induction rest generalizing first with
  | nil => exact ⟨⟨first, List.mem_cons_self, rfl⟩, first, List.mem_cons_self, rfl⟩
  | cons next rest ih =>
    rw [List.foldl_cons]
    obtain ⟨⟨r, hr, hlow⟩, t, ht, hhigh⟩ := ih (AddressRange.hull first next)
    constructor
    · rcases List.mem_cons.mp hr with rfl | hr
      · rcases AddressRange.low_hull_eq first next with h | h
        · exact ⟨first, by simp, hlow.trans h⟩
        · exact ⟨next, by simp, hlow.trans h⟩
      · exact ⟨r, by simp [hr], hlow⟩
    · rcases List.mem_cons.mp ht with rfl | ht
      · rcases AddressRange.high_hull_eq first next with h | h
        · exact ⟨first, by simp, hhigh.trans h⟩
        · exact ⟨next, by simp, hhigh.trans h⟩
      · exact ⟨t, by simp [ht], hhigh⟩

variable {sections : List Section} {range : AddressRange}

/-- The end of a section is the sum of its address and its size, as far as there are addresses. -/
private theorem Section.toNat_finish_eq_min (s : Section) :
    s.finish.toNat = min (s.address.toNat + s.size.toNat) (UInt64.size - 1) := by
  rw [toNat_finish]
  split <;> omega

private theorem Section.isMapped_iff {s : Section} :
    s.isMapped = true ↔ 0 < s.address.toNat ∧ 0 < s.size.toNat := by
  rw [isMapped, Bool.and_eq_true, decide_eq_true_eq, decide_eq_true_eq, UInt64.lt_iff_toNat_lt,
    UInt64.lt_iff_toNat_lt, UInt64.toNat_zero]

/-- The bounds of the range of an image are the address of a mapped section and the end of one. -/
theorem exists_mem_of_imageRange (h : imageRange sections = some range) :
    (∃ s, (s ∈ sections ∧ s.isMapped = true) ∧ range.low = s.address) ∧
      ∃ s, (s ∈ sections ∧ s.isMapped = true) ∧ range.high = s.finish := by
  unfold imageRange at h
  split at h
  · cases h
  next first rest hranges =>
  cases h
  have hmem : ∀ r ∈ first :: rest, ∃ s, (s ∈ sections ∧ s.isMapped = true) ∧ s.range = r := by
    intro r hr
    rw [← hranges] at hr
    obtain ⟨s, hs, hrange⟩ := List.mem_map.mp hr
    exact ⟨s, List.mem_filter.mp hs, hrange⟩
  obtain ⟨⟨r, hr, hlow⟩, t, ht, hhigh⟩ := foldl_hull_mem rest first
  obtain ⟨s, hs, rfl⟩ := hmem r hr
  obtain ⟨s', hs', rfl⟩ := hmem t ht
  exact ⟨⟨s, hs, hlow⟩, s', hs', hhigh⟩

private theorem spans_of_imageRange (h : imageRange sections = some range) :
    range.Spans fun s => s ∈ sections ∧ s.isMapped = true := by
  obtain ⟨⟨s, hs, hlow⟩, t, ht, hhigh⟩ := exists_mem_of_imageRange h
  constructor
  · refine ⟨⟨s, hs, by rw [hlow]⟩, ?_⟩
    rintro _ ⟨other, hother, rfl⟩
    exact UInt64.le_iff_toNat_le.mp (covers_of_mem h hother.1 hother.2).1
  · refine ⟨⟨t, ht, by rw [hhigh, Section.toNat_finish_eq_min]⟩, ?_⟩
    rintro _ ⟨other, hother, rfl⟩
    rw [← Section.toNat_finish_eq_min]
    exact UInt64.le_iff_toNat_le.mp (covers_of_mem h hother.1 hother.2).2

/-- **The range of an image** is the one that spans its mapped sections. -/
theorem imageRange_eq_some_iff :
    imageRange sections = some range ↔ range.Spans fun s => s ∈ sections ∧ s.isMapped = true := by
  refine ⟨spans_of_imageRange, fun hspans => ?_⟩
  cases h : imageRange sections with
  | none =>
    -- A range that spans sections starts at one of them.
    obtain ⟨⟨s, ⟨hs, hmapped⟩, _⟩, _⟩ := hspans.low
    cases hmapped.symm.trans (imageRange_eq_none_iff.mp h s hs)
  | some other => rw [(spans_of_imageRange h).unique hspans]

/-! ## §3 Images -/

namespace SectionTable

/-- An image has a section under a name, and it takes up part of the loaded image. -/
def Mapped (table : SectionTable) (s : Section) : Prop :=
  (∃ name, table.get? name = some s) ∧ 0 < s.address.toNat ∧ 0 < s.size.toNat

variable {table : SectionTable} (horder : sections.Perm table.sections)

include horder

/-- In whatever order the sections of an image are looked at, the same ones are mapped. -/
theorem mem_and_isMapped_iff {s : Section} : s ∈ sections ∧ s.isMapped = true ↔ table.Mapped s := by
  rw [horder.mem_iff, mem_sections_iff, Section.isMapped_iff, Mapped]

/-- **The range of an image that was read** is the one that spans the mapped sections in its
table. -/
theorem imageRange_eq_some_iff_spans :
    imageRange sections = some range ↔ range.Spans table.Mapped := by
  have hmapped : (fun s => s ∈ sections ∧ s.isMapped = true) = table.Mapped :=
    funext fun s => propext (mem_and_isMapped_iff horder)
  rw [imageRange_eq_some_iff, hmapped]

/-- There is no range exactly when there is no mapped section. -/
theorem imageRange_eq_none_iff_mapped : imageRange sections = none ↔ ∀ s, ¬ table.Mapped s := by
  simp only [imageRange_eq_none_iff, ← mem_and_isMapped_iff horder, not_and, Bool.not_eq_true]

end SectionTable

end Rebase.Elf
