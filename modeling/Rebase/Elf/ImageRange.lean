import Rebase.Elf.Section

/-!
# The address range of an image

The mapped sections of an image span a range of addresses. A number that lies in it may be the
address of something in the image.

The main statements are `covers_of_mem`, that the range covers every mapped section, and
`imageRange_eq_none_iff`, that there is a range as soon as there is one.
-/

namespace Rebase.Elf

/-- The addresses from `low` up to but not including `high`. -/
structure AddressRange where
  low : UInt64
  high : UInt64
  deriving DecidableEq

namespace AddressRange

/-- Whether an address lies in a range. -/
def contains (range : AddressRange) (address : UInt64) : Bool :=
  range.low ≤ address && address < range.high

/-- The smallest range that covers two. -/
def hull (a b : AddressRange) : AddressRange where
  low := if b.low < a.low then b.low else a.low
  high := if a.high < b.high then b.high else a.high

private theorem low_hull_le_left (a b : AddressRange) : (hull a b).low ≤ a.low := by
  simp only [hull]
  split
  · next h => exact UInt64.le_of_lt h
  · exact UInt64.le_refl _

private theorem low_hull_le_right (a b : AddressRange) : (hull a b).low ≤ b.low := by
  simp only [hull]
  split
  · exact UInt64.le_refl _
  · next h => exact UInt64.not_lt.1 h

private theorem left_le_high_hull (a b : AddressRange) : a.high ≤ (hull a b).high := by
  simp only [hull]
  split
  · next h => exact UInt64.le_of_lt h
  · exact UInt64.le_refl _

private theorem right_le_high_hull (a b : AddressRange) : b.high ≤ (hull a b).high := by
  simp only [hull]
  split
  · exact UInt64.le_refl _
  · next h => exact UInt64.not_lt.1 h

end AddressRange

/-- The addresses of a section. -/
def Section.range (s : Section) : AddressRange := ⟨s.address, s.finish⟩

/-- The smallest range that covers every mapped section, if there is one. -/
def imageRange (sections : List Section) : Option AddressRange :=
  match (sections.filter Section.isMapped).map Section.range with
  | [] => none
  | first :: rest => some (rest.foldl AddressRange.hull first)

private theorem foldl_hull_covers (rest : List AddressRange) (first : AddressRange) :
    (rest.foldl AddressRange.hull first).low ≤ first.low ∧
      first.high ≤ (rest.foldl AddressRange.hull first).high ∧
      ∀ r ∈ rest, (rest.foldl AddressRange.hull first).low ≤ r.low ∧
        r.high ≤ (rest.foldl AddressRange.hull first).high := by
  induction rest generalizing first with
  | nil => simp
  | cons r rest ih =>
    obtain ⟨hlow, hhigh, hrest⟩ := ih (AddressRange.hull first r)
    rw [List.foldl_cons]
    refine ⟨UInt64.le_trans hlow (AddressRange.low_hull_le_left _ _),
      UInt64.le_trans (AddressRange.left_le_high_hull _ _) hhigh, fun q hq => ?_⟩
    rcases List.mem_cons.1 hq with rfl | hq
    · exact ⟨UInt64.le_trans hlow (AddressRange.low_hull_le_right _ _),
        UInt64.le_trans (AddressRange.right_le_high_hull _ _) hhigh⟩
    · exact hrest q hq

/-- There is a range exactly when some section is mapped. -/
theorem imageRange_eq_none_iff {sections : List Section} :
    imageRange sections = none ↔ ∀ s ∈ sections, s.isMapped = false := by
  have h : ((sections.filter Section.isMapped).map Section.range = []) ↔
      ∀ s ∈ sections, s.isMapped = false := by
    simp
  unfold imageRange
  rw [← h]
  split <;> simp_all

/-- **The image range covers every mapped section.** -/
theorem covers_of_mem {sections : List Section} {range : AddressRange} {s : Section}
    (h : imageRange sections = some range) (hs : s ∈ sections) (mapped : s.isMapped = true) :
    range.low ≤ s.address ∧ s.finish ≤ range.high := by
  have hmem : s.range ∈ (sections.filter Section.isMapped).map Section.range :=
    List.mem_map_of_mem (List.mem_filter.2 ⟨hs, mapped⟩)
  unfold imageRange at h
  split at h
  · cases h
  · next first rest e =>
    cases h
    obtain ⟨hlow, hhigh, hrest⟩ := foldl_hull_covers rest first
    rw [e] at hmem
    rcases List.mem_cons.1 hmem with he | hmem
    · rw [← he] at hlow hhigh ⊢
      exact ⟨hlow, hhigh⟩
    · exact hrest _ hmem

end Rebase.Elf
