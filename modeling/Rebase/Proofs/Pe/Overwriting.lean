import Rebase.Proofs.Pe.Growth

/-!
# One patch after another

A patch leaves an image with a relocation section that can be written over again
(`Headers.Reusable`), whichever way it wrote its table. What such a section holds afterwards depends
on the last table only: nothing of an earlier one is left, not in its contents and not in the
headers.

- **Repeating**: `Plan.apply_again`, the same table once more changes nothing
- **Replacing**: `Plan.apply_replace_apply_replace`, the last of two tables stays
- **Patches**: `last_patch_wins`
-/

namespace Rebase.Pe

open Bytes Edit

/-- A patch is made, writes the table in the given way, and leaves the given image. -/
def PatchesTo (file : Bytes) (t : BaseRelocation.Table) (discardable : Bool) (placement : Placement)
    (after : Bytes) : Prop :=
  ∃ patch, Patch.make file t = .ok patch ∧ patch.plan.placement = placement ∧
    patch.apply discardable file = after

private theorem withRelocations_idempotent (characteristics : UInt16) :
    withRelocations (withRelocations characteristics) = withRelocations characteristics := by
  rw [withRelocations, withRelocations, UInt16.and_assoc, UInt16.and_self]

namespace Plan

variable {plan : Plan} {h : Headers} {file table : Bytes} {index : Nat} {s : Section}
  (discardable : Bool)

/-! ## §1 The same table once more -/

/-- A table fits the section that it was written to. -/
private theorem Suits.le_rawSize {tableSize : Nat} (hsuits : plan.Suits h file.size tableSize) :
    tableSize ≤ (plan.sectionAfter tableSize discardable).rawSize.toNat := by
  cases plan with
  | replace index s => exact hsuits.2.1
  | append place => exact hsuits.newSection_bounds.2.2.2

/-- All of the section of a plan is written to: first the table, then zero bytes. -/
private theorem slice?_contents_apply (hd : h.Describes file)
    (hsuits : plan.Suits h file.size table.size) (hkeeps : plan.KeepsHeaders h) :
    (plan.apply h table discardable file).slice?
        (plan.sectionAfter table.size discardable).rawOffset.toNat
        (plan.sectionAfter table.size discardable).rawSize.toNat =
      some (table ++ zeros
        ((plan.sectionAfter table.size discardable).rawSize.toNat - table.size)) := by
  cases plan with
  | replace index s =>
    obtain ⟨_, hapart⟩ := hkeeps
    exact slice?_replaced discardable hd hsuits (by omega)
  | append place =>
    have hends := endsWith_append discardable hd hsuits
    have hjoined := slice?_join hends.contents hends.rest
    rw [Nat.add_sub_cancel' hsuits.newSection_bounds.2.2.2] at hjoined
    exact hjoined

/-- A changed image has all that its table would be written with again. -/
private theorem keeps_edits_apply (hd : h.Describes file)
    (hsuits : plan.Suits h file.size table.size)
    (hkeeps : plan.KeepsHeaders h) (hlt : table.size < UInt32.size) (again : Bool) :
    ∀ edit ∈ (replace (plan.sectionIndex h) (plan.sectionAfter table.size discardable)).edits
        (plan.headersAfter h table.size discardable) table again,
      edit.Keeps (plan.apply h table discardable file) := by
  -- Each of these fields was written by the plan with the value that it would get now.
  have hfits := hsuits.le_rawSize discardable
  have hcontents := slice?_contents_apply discardable hd hsuits hkeeps
  have hsize := (storedAt_sectionAfter discardable hd hsuits hkeeps hlt).virtualSize
  have hdirectory := slice?_relocationDirectory discardable hd hsuits
  have hflags := slice?_of_word? (word16?_characteristics discardable hd hsuits)
  have hvirtualSize : (plan.sectionAfter table.size discardable).virtualSize =
      UInt32.ofNat table.size := by
    cases plan <;> rfl
  have haddress : (plan.sectionAfter table.size discardable).virtualAddress =
      plan.virtualAddress := by
    cases plan <;> rfl
  rw [hvirtualSize] at hsize
  simp only [edits, sectionEdits, directoryEdits, List.cons_append, List.nil_append,
    List.forall_mem_cons, Keeps, ByteArray.size_append, size_zeros, size_ofWord,
    Nat.add_sub_cancel' hfits]
  refine ⟨hcontents, slice?_of_word? hsize, ?_, ?_, by simp⟩
  · rw [virtualAddress, haddress]
    exact hdirectory
  · have hcleared : (plan.headersAfter h table.size discardable).characteristics =
        withRelocations h.characteristics := rfl
    rw [hcleared, withRelocations_idempotent]
    exact hflags

/-- **The same table once more** changes nothing. -/
theorem apply_again (hd : h.Describes file) (hsuits : plan.Suits h file.size table.size)
    (hkeeps : plan.KeepsHeaders h) (hlt : table.size < UInt32.size) (again : Bool) :
    (replace (plan.sectionIndex h) (plan.sectionAfter table.size discardable)).apply
        (plan.headersAfter h table.size discardable) table again
        (plan.apply h table discardable file) =
      plan.apply h table discardable file :=
  applyAll_of_keeps (keeps_edits_apply discardable hd hsuits hkeeps hlt again)

/-! ## §2 Another table -/

/-- What is written over a section does not leave the image. -/
private theorem allFit_edits_replace (hd : h.Describes file)
    (hsuits : (replace index s).Suits h file.size table.size) :
    AllFit file.size ((replace index s).edits h table discardable) := by
  obtain ⟨hoptional, htable, hstart, hend⟩ := hsuits.inOrder hd
  obtain ⟨_, hflags, _, hdir⟩ := h.fieldOffsets
  obtain ⟨hfound, hfits, hinside⟩ := hsuits
  obtain ⟨hindex, _⟩ := List.getElem?_eq_some_iff.mp
    (Headers.relocationSection?_eq_some_iff.mp hfound).1
  have hheader := Headers.sectionHeaderOffset_add_le hindex
  simp only [Section.headerSize] at hheader
  simp only [edits, sectionEdits, directoryEdits, List.cons_append, List.nil_append, AllFit, Fits,
    sizeAfter, ByteArray.size_append, size_zeros, size_ofWord,
    Nat.add_sub_cancel' hfits]
  exact ⟨hinside, by omega, by omega, by omega, trivial⟩

/-- What is written over a section goes to all places of the plan. -/
private theorem spares_of_not_touches {tableSize i : Nat}
    (hsuits : (replace index s).Suits h tableSize table.size)
    (h' : ∀ edit ∈ (replace index s).edits h table discardable, ¬ edit.Touches i) :
    (replace index s).Spares h i := by
  obtain ⟨_, hfits, _⟩ := hsuits
  simp only [edits, sectionEdits, directoryEdits, List.cons_append, List.nil_append,
    List.forall_mem_cons, Touches, ByteArray.size_append, size_zeros, size_ofWord,
    Nat.add_sub_cancel' hfits] at h'
  simp only [Spares, places, List.forall_mem_cons, Span.Covers]
  exact ⟨h'.1, h'.2.1, h'.2.2.1, h'.2.2.2.1, by simp⟩

/-- **The last of two tables** that are written over a section is all that is left. -/
theorem apply_replace_apply_replace {first : Bytes} (hd : h.Describes file)
    (hfirst : (replace index s).Suits h file.size first.size)
    (hsuits : (replace index s).Suits h file.size table.size) (again : Bool) :
    (replace index s).apply h table again ((replace index s).apply h first discardable file) =
      (replace index s).apply h table again file := by
  have hsize : ((replace index s).apply h first discardable file).size = file.size :=
    size_apply_replace discardable
  refine applyAll_congr hsize ?_ ?_
  · rw [hsize]
    exact allFit_edits_replace again hd hsuits
  · intro i hi huntouched
    -- Both tables are written to the same places.
    have hspares := spares_of_not_touches again hsuits huntouched
    rw [hsize] at hi
    exact getElem?_applyAll hi (not_touches_of_spares hfirst hspares discardable)

/-- After a section was written over it is written over in the same way as before. -/
private theorem apply_headersAfter_replace (tableSize : Nat) (again : Bool) (b : Bytes) :
    (replace index ((replace index s).sectionAfter tableSize discardable)).apply
        ((replace index s).headersAfter h tableSize discardable) table again b =
      (replace index s).apply h table again b := by
  simp only [apply, edits, sectionEdits, directoryEdits, headersAfter, sectionAfter,
    withRelocations_idempotent]
  rfl

end Plan

/-! ## §3 Patches -/

/-- An image has a relocation section that can be written over. -/
structure Headers.Reusable (h : Headers) (file : Bytes) (index : Nat) (s : Section) : Prop where
  read : Headers.read file = .ok h
  found : h.relocationSection? = some (s, index)
  inFile : s.rawOffset.toNat + s.rawSize.toNat ≤ file.size
  keeps : (Plan.replace index s).KeepsHeaders h

/-- **The section of a plan can be written over** in the image that the plan leaves. -/
theorem Plan.reusable_apply {plan : Plan} {h : Headers} {file table : Bytes}
    (hread : Headers.read file = .ok h) (hsuits : plan.Suits h file.size table.size)
    (hkeeps : plan.KeepsHeaders h) (hlt : table.size < UInt32.size) (discardable : Bool) :
    (plan.headersAfter h table.size discardable).Reusable (plan.apply h table discardable file)
      (plan.sectionIndex h) (plan.sectionAfter table.size discardable) where
  read := read_apply discardable hread hsuits hkeeps hlt
  found := relocationSection?_headersAfter discardable hsuits
  inFile := by
    rw [size_apply discardable (Headers.read_eq_ok_iff.mp hread) hsuits]
    cases plan with
    | replace index s => exact hsuits.2.2
    | append place => exact Nat.le_refl _
  keeps := by
    cases plan with
    | replace index s =>
      have hend : ((replace index s).headersAfter h table.size discardable).sectionTableEnd =
          h.sectionTableEnd := by
        simp only [Headers.sectionTableEnd, Headers.sectionHeaderOffset, Headers.sectionCount,
          headersAfter, List.length_set]
      simp only [KeepsHeaders, hend]
      exact hkeeps
    | append place =>
      -- The new section is behind the section table, and that is behind the first 64 bytes.
      have hd := Headers.read_eq_ok_iff.mp hread
      have hbehind := (Headers.Grown.ends_toSection hlt hsuits discardable).behind
      have hstart := ((append place).headersAfter h table.size discardable).le_sectionHeaderOffset
        ((append place).headersAfter h table.size discardable).sectionCount
      have hsame : ((append place).headersAfter h table.size discardable).sectionTableOffset =
          h.sectionTableOffset := rfl
      have htable := hd.le_sectionTable
      have hpointer : Headers.signatureField = 0x3C := rfl
      simp only [Headers.sectionTableEnd] at hbehind
      exact ⟨.inr (by simp only [sectionAfter]; omega), .inr hbehind⟩

namespace Headers.Reusable

variable {h : Headers} {file : Bytes} {index : Nat} {s : Section}

private theorem suits (hr : h.Reusable file index s) {tableSize : Nat}
    (hfits : tableSize ≤ s.rawSize.toNat) : (Plan.replace index s).Suits h file.size tableSize :=
  ⟨hr.found, hfits, hr.inFile⟩

/-- **A table that fits the section** is written over it. -/
theorem patchesTo (hr : h.Reusable file index s) {u : BaseRelocation.Table}
    (hfits : u.size ≤ s.rawSize.toNat) (discardable : Bool) :
    PatchesTo file u discardable .replaced
      ((Plan.replace index s).apply h u.bytes discardable file) := by
  have hplan : Plan.make h file.size u.size = .ok (.replace index s) :=
    Plan.make_eq_ok_iff.mpr ⟨Nat.lt_of_le_of_lt hfits s.rawSize.toNat_lt, hr.suits hfits⟩
  exact ⟨⟨h, .replace index s, u⟩, Patch.make_eq_ok_iff.mpr ⟨hr.read, hplan, rfl⟩, rfl, rfl⟩

/-- **One table after another**: after a first one was written over the section, a second one leaves
what it would have left without the first. -/
theorem patchesTo_after (hr : h.Reusable file index s) {first u : BaseRelocation.Table}
    (hfirst : first.size ≤ s.rawSize.toNat) (hfits : u.size ≤ s.rawSize.toNat)
    (discardable again : Bool) :
    PatchesTo ((Plan.replace index s).apply h first.bytes discardable file) u again .replaced
      ((Plan.replace index s).apply h u.bytes again file) := by
  have hlt := Nat.lt_of_le_of_lt hfirst s.rawSize.toNat_lt
  rw [← BaseRelocation.Table.size_eq] at hfirst hlt
  have hfits' := hfits
  rw [← BaseRelocation.Table.size_eq] at hfits'
  have hreused := Plan.reusable_apply hr.read (hr.suits hfirst) hr.keeps hlt discardable
  have hpatch := hreused.patchesTo (u := u) hfits again
  -- The section is written over as before, and what the first table left is written over.
  rw [Plan.sectionIndex, Plan.apply_headersAfter_replace,
    Plan.apply_replace_apply_replace discardable
    (Headers.read_eq_ok_iff.mp hr.read) (hr.suits hfirst) (hr.suits hfits')] at hpatch
  exact hpatch

end Headers.Reusable

/-- **The last patch wins.** An image that was patched has a relocation section. The same table once
more is written over it and changes nothing. Another table that fits is written over it as well, and
then the first one restores the image as it was. If the first patch wrote over a section of the
image already, the second one leaves what it would have left without the first. -/
theorem last_patch_wins {file : Bytes} {t : BaseRelocation.Table} {patch : Patch}
    (hmake : Patch.make file t = .ok patch) (hfollow : HeadersFollow file)
    (hclears : patch.plan.Clears patch.headers) (discardable : Bool) :
    ∃ h s index, Headers.read (patch.apply discardable file) = .ok h ∧
      h.relocationSection? = some (s, index) ∧
      (∀ again, PatchesTo (patch.apply discardable file) t again .replaced
        (patch.apply discardable file)) ∧
      ∀ u : BaseRelocation.Table, u.size ≤ s.rawSize.toNat → ∀ other, ∃ second,
        PatchesTo (patch.apply discardable file) u other .replaced second ∧
        (∀ again, PatchesTo second t again .replaced (patch.apply discardable file)) ∧
        (patch.plan.placement = .replaced → PatchesTo file u other .replaced second) := by
  obtain ⟨hread, hplan, rfl⟩ := Patch.make_eq_ok_iff.mp hmake
  obtain ⟨h, plan, t⟩ := patch
  simp only at hread hplan hclears ⊢
  have hd := Headers.read_eq_ok_iff.mp hread
  obtain ⟨hlt, hsuits⟩ := Plan.make_eq_ok_iff.mp hplan
  have hkeeps := Plan.keepsHeaders hd hclears hfollow
  have hfits := hsuits.le_rawSize discardable
  rw [← t.size_eq] at hlt hsuits
  -- Whatever the first plan was, its section is written over from now on.
  have hreused := Plan.reusable_apply hread hsuits hkeeps hlt discardable
  have hagain := Plan.apply_again discardable hd hsuits hkeeps hlt
  rw [t.size_eq] at hreused hagain
  refine ⟨_, _, _, hreused.read, hreused.found, fun again => ?_, fun u hu other => ?_⟩
  · have hpatch := hreused.patchesTo hfits again
    rw [hagain again] at hpatch
    exact hpatch
  · refine ⟨_, hreused.patchesTo hu other, fun again => ?_, fun hreplaced => ?_⟩
    · have hback := hreused.patchesTo_after hu hfits other again
      rw [hagain again] at hback
      exact hback
    · -- Without the first patch the section would be written over in the same way.
      cases plan with
      | append place => cases hreplaced
      | replace index s =>
        have hfirst : h.Reusable file index s := ⟨hread, hsuits.1, hsuits.2.2, hkeeps⟩
        have hsecond : (Plan.replace index s).Suits h file.size u.bytes.size := by
          rw [u.size_eq]
          exact hfirst.suits hu
        have hpatch := hfirst.patchesTo hu other
        rw [← Plan.apply_replace_apply_replace discardable hd hsuits hsecond,
          ← Plan.apply_headersAfter_replace discardable t.size] at hpatch
        exact hpatch

theorem last_patch_wins_sectionImage :
    ∃ after, PatchesTo sectionImage twoPages true .replaced after ∧ HeadersFollow sectionImage ∧
      (Plan.replace 0 relocations).Clears sectionHeaders ∧
      ∃ h s index, Headers.read after = .ok h ∧ h.relocationSection? = some (s, index) ∧
        (∀ again, PatchesTo after twoPages again .replaced after) ∧
        ∀ u : BaseRelocation.Table, u.size ≤ s.rawSize.toNat → ∀ other, ∃ second,
          PatchesTo after u other .replaced second ∧
          (∀ again, PatchesTo second twoPages again .replaced after) ∧
          (Placement.replaced = .replaced → PatchesTo sectionImage u other .replaced second) := by
  have hplan : Plan.make sectionHeaders sectionImage.size twoPages.size =
      .ok (.replace 0 relocations) := by
    decide +kernel
  have hmake : Patch.make sectionImage twoPages =
      .ok ⟨sectionHeaders, .replace 0 relocations, twoPages⟩ :=
    Patch.make_eq_ok_iff.mpr ⟨read_sectionImage, hplan, rfl⟩
  have hclears : (Plan.replace 0 relocations).Clears sectionHeaders := by
    show sectionHeaders.sectionTableEnd ≤ relocations.rawOffset.toNat
    decide
  exact ⟨_, ⟨_, hmake, rfl, rfl⟩, headersFollow_sectionImage, hclears,
    last_patch_wins hmake headersFollow_sectionImage hclears true⟩

end Rebase.Pe
