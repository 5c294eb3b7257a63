import Mathlib.Data.List.Basic
import Mathlib.Data.List.Induction
import Rebase.Pe.Headers

/-!
# Which section is chosen

Two sections of an image matter to a new relocation table: the last one with the name of the
relocation section, and the one with the highest address. Both are found by going through the
section table once; here they are said by what distinguishes them (`relocationSection?_eq_some_iff`,
`highestSection?_eq_some_iff`).
-/

namespace Rebase.Pe.Headers

variable {h : Headers} {s : Section} {i : Nat}

/-- An element of a list with one more at its end is one of the list, or the last. -/
theorem getElem?_concat_eq_some_iff {α : Type} {xs : List α} {x y : α} {k : Nat} :
    (xs ++ [x])[k]? = some y ↔ xs[k]? = some y ∨ k = xs.length ∧ x = y := by
  rcases Nat.lt_trichotomy k xs.length with hlt | rfl | hgt
  · rw [List.getElem?_append_left hlt]
    have : k ≠ xs.length := by omega
    simp [this]
  · simp
  · rw [List.getElem?_eq_none (by simp; omega), List.getElem?_eq_none (by omega)]
    have : k ≠ xs.length := by omega
    simp [this]

/-- **The relocation section** is the last one that has its name. -/
theorem relocationSection?_eq_some_iff :
    h.relocationSection? = some (s, i) ↔
      h.sections[i]? = some s ∧ s.name = relocationSectionName ∧
        ∀ j t, i < j → h.sections[j]? = some t → t.name ≠ relocationSectionName := by
  unfold relocationSection?
  -- A section at the end of the table wins over all before it, if it has the name.
  induction h.sections using List.reverseRecOn with
  | nil => simp
  | append_singleton xs x ih =>
    have hbound : ∀ (j : Nat) (t : Section), xs[j]? = some t → j < xs.length :=
      fun j t ht => (List.getElem?_eq_some_iff.mp ht).1
    rw [List.zipIdx_append, List.filter_append, List.getLast?_append]
    simp only [getElem?_concat_eq_some_iff]
    -- A section without the name leaves the choice as it was.
    by_cases hx : x.name = relocationSectionName
    · simp only [List.zipIdx_singleton, Nat.zero_add, hx, decide_true, List.filter_cons_of_pos,
        List.filter_nil, List.getLast?_singleton, Option.some_or, Option.some.injEq, Prod.mk.injEq]
      grind
    · simp only [List.zipIdx_singleton, hx, decide_false, List.filter_cons, List.filter_nil,
        List.getLast?_nil, Option.none_or, ih, Bool.false_eq_true, if_false]
      grind

/-- There is a relocation section as soon as a section has its name. -/
theorem relocationSection?_eq_none_iff :
    h.relocationSection? = none ↔ ∀ t ∈ h.sections, t.name ≠ relocationSectionName := by
  simp only [relocationSection?, List.getLast?_eq_none_iff, List.filter_eq_nil_iff,
    decide_eq_true_eq, Prod.forall, List.mem_zipIdx_iff_getElem?]
  constructor
  · intro hnone t ht
    obtain ⟨k, hk⟩ := List.mem_iff_getElem?.mp ht
    exact hnone t k hk
  · intro hall t k hk
    exact hall t (List.mem_of_getElem? hk)

/-- An image with sections has a highest one. -/
theorem highestSection?_eq_none_iff : h.highestSection? = none ↔ h.sections = [] := by
  unfold highestSection?
  induction h.sections using List.reverseRecOn with
  | nil => simp
  | append_singleton xs x _ =>
    rw [List.zipIdx_append, List.foldl_append, List.zipIdx_singleton, List.foldl_cons,
      List.foldl_nil]
    split
    · simp
    · split <;> simp

/-- **The highest section** has the greatest address, and no section behind it has the same. -/
theorem highestSection?_eq_some_iff :
    h.highestSection? = some (s, i) ↔
      h.sections[i]? = some s ∧
        (∀ (j : Nat) (t : Section), h.sections[j]? = some t →
          t.virtualAddress ≤ s.virtualAddress) ∧
        ∀ (j : Nat) (t : Section), i < j → h.sections[j]? = some t →
          t.virtualAddress < s.virtualAddress := by
  have hnone := @highestSection?_eq_none_iff
  unfold highestSection? at hnone ⊢
  -- A section at the end of the table wins over the highest before it, unless it is lower.
  induction h.sections using List.reverseRecOn generalizing s i with
  | nil => simp
  | append_singleton xs x ih =>
    have hbound : ∀ (j : Nat) (t : Section), xs[j]? = some t → j < xs.length :=
      fun j t ht => (List.getElem?_eq_some_iff.mp ht).1
    rw [List.zipIdx_append, List.foldl_append, List.zipIdx_singleton, List.foldl_cons,
      List.foldl_nil, Nat.zero_add]
    simp only [getElem?_concat_eq_some_iff]
    split
    · next hbest =>
      -- Nothing was chosen so far, so this is the first section.
      have hxs : xs = [] := (hnone (h := { h with sections := xs })).mp hbest
      subst hxs
      clear ih hnone hbest
      grind
    · next best hbest =>
      -- The new section is chosen if it is as high as the one that was chosen so far.
      obtain ⟨hfound, hmax, hafter⟩ := ih.mp hbest
      clear ih hnone hbest
      split
      · grind
      · grind

end Rebase.Pe.Headers
