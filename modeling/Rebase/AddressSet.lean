import Std.Data.ExtTreeSet

/-!
# Sets of addresses

The search for relocations ends in a set of addresses. Sets with the same members are equal, and
`toList` lists the members of a set once each, in ascending order.

The main statements are `pairwise_toList` and `eq_of_pairwise`: the ascending list of the members of
a set is the only one.
-/

namespace Rebase

/-- A set of addresses. -/
abbrev AddressSet := Std.ExtTreeSet UInt64

namespace AddressSet

/-- The set of the addresses in a list. -/
def ofList (addresses : List UInt64) : AddressSet := Std.ExtTreeSet.ofList addresses

@[simp] theorem mem_ofList {addresses : List UInt64} {address : UInt64} :
    address ∈ ofList addresses ↔ address ∈ addresses := by
  simp [ofList, Std.ExtTreeSet.mem_ofList]

/-- **The members of a set ascend** in its list. -/
theorem pairwise_toList (set : AddressSet) : set.toList.Pairwise (· < ·) :=
  set.ordered_toList.imp fun h => compareOfLessAndEq_eq_lt.1 h

/-- **An ascending list is known by its members.** -/
theorem eq_of_pairwise {xs ys : List UInt64} (hx : xs.Pairwise (· < ·)) (hy : ys.Pairwise (· < ·))
    (h : ∀ a, a ∈ xs ↔ a ∈ ys) : xs = ys := by
  induction xs generalizing ys with
  | nil =>
    cases ys with
    | nil => rfl
    | cons y ys => exact absurd ((h y).2 List.mem_cons_self) List.not_mem_nil
  | cons x xs ih =>
    cases ys with
    | nil => exact absurd ((h x).1 List.mem_cons_self) List.not_mem_nil
    | cons y ys =>
      obtain ⟨hxs, hxrest⟩ := List.pairwise_cons.1 hx
      obtain ⟨hys, hyrest⟩ := List.pairwise_cons.1 hy
      -- Each of the two heads is the least member of its list, and both lists have it.
      have hxy : x = y := by
        rcases List.mem_cons.1 ((h x).1 List.mem_cons_self) with e | hmem
        · exact e
        · rcases List.mem_cons.1 ((h y).2 List.mem_cons_self) with e | hmem'
          · exact e.symm
          · exact absurd (hys x hmem) (UInt64.lt_asymm (hxs y hmem'))
      subst hxy
      refine congrArg (x :: ·) (ih hxrest hyrest fun a => ⟨fun ha => ?_, fun ha => ?_⟩)
      · rcases List.mem_cons.1 ((h a).1 (List.mem_cons_of_mem _ ha)) with rfl | hmem
        · exact absurd (hxs a ha) (UInt64.lt_irrefl a)
        · exact hmem
      · rcases List.mem_cons.1 ((h a).2 (List.mem_cons_of_mem _ ha)) with rfl | hmem
        · exact absurd (hys a ha) (UInt64.lt_irrefl a)
        · exact hmem

end AddressSet

end Rebase
