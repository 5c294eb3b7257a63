import Mathlib.Data.List.Forall2

/-!
# Steps that can fail

How a chain of steps that can fail comes to succeed: every step of it succeeded. Two chains can be
compared as a whole, and both comparisons are kept by what is done with the results: `Agree` says
that both give the same or both fail, `Below` that one of them gives whatever the other gives, and
may give more.
-/

namespace Rebase.Fallible

variable {ε α β : Type}

instance decidableEqExcept [DecidableEq ε] [DecidableEq α] : DecidableEq (Except ε α)
  | .ok a, .ok b => decidable_of_iff (a = b) (by simp)
  | .error d, .error e => decidable_of_iff (d = e) (by simp)
  | .ok _, .error _ => .isFalse nofun
  | .error _, .ok _ => .isFalse nofun

theorem pure_eq_ok (a : α) : (pure a : Except ε α) = .ok a := rfl

/-- A chain of two steps succeeds when both do, the second with what the first gave. -/
theorem bind_eq_ok_iff {x : Except ε α} {f : α → Except ε β} {b : β} :
    (x >>= f) = .ok b ↔ ∃ a, x = .ok a ∧ f a = .ok b := by
  cases x with
  | error e =>
    constructor
    · intro h
      cases h
    · intro ⟨a, ha, _⟩
      cases ha
  | ok a =>
    constructor
    · intro h
      exact ⟨a, rfl, h⟩
    · intro ⟨a', ha, h⟩
      cases ha
      exact h

theorem map_eq_ok_iff {x : Except ε α} {f : α → β} {b : β} :
    x.map f = .ok b ↔ ∃ a, x = .ok a ∧ f a = b := by
  cases x <;> simp [Except.map]

theorem map_eq_error_iff {x : Except ε α} {f : α → β} {e : ε} :
    x.map f = .error e ↔ x = .error e := by
  cases x <;> simp [Except.map]

/-- A failure that is worded differently is still a failure, and a success stays one. -/
theorem mapError_eq_ok_iff {ε' : Type} {g : ε → ε'} {x : Except ε α} {a : α} :
    x.mapError g = .ok a ↔ x = .ok a := by
  cases x <;> simp [Except.mapError]

theorem map_map {γ : Type} (x : Except ε α) (f : α → β) (g : β → γ) :
    (x.map f).map g = x.map fun a => g (f a) := by
  cases x <;> rfl

theorem map_bind {γ : Type} (x : Except ε α) (f : α → β) (k : β → Except ε γ) :
    (x.map f >>= k) = x >>= fun a => k (f a) := by
  cases x <;> rfl

theorem bind_map {γ : Type} (x : Except ε α) (k : α → Except ε β) (f : β → γ) :
    (x >>= k).map f = x >>= fun a => (k a).map f := by
  cases x <;> rfl

/-- A step for each element of a list succeeds when all of them do, with one result for each. -/
theorem mapM_eq_ok_iff {f : α → Except ε β} {xs : List α} {ys : List β} :
    xs.mapM f = .ok ys ↔ List.Forall₂ (fun x y => f x = .ok y) xs ys := by
  induction xs generalizing ys with
  | nil =>
    rw [List.mapM_nil, pure_eq_ok]
    constructor
    · intro h
      cases h
      exact .nil
    · intro h
      cases h
      rfl
  | cons x xs ih =>
    rw [List.mapM_cons, bind_eq_ok_iff]
    constructor
    · intro ⟨y, hy, h⟩
      obtain ⟨rest, hrest, h⟩ := bind_eq_ok_iff.mp h
      cases h
      exact .cons hy (ih.mp hrest)
    · intro h
      cases h with
      | cons hy hrest => exact ⟨_, hy, bind_eq_ok_iff.mpr ⟨_, ih.mpr hrest, rfl⟩⟩

/-- A step for each element of a list succeeds as soon as each of them can. -/
theorem exists_mapM_iff {f : α → Except ε β} {xs : List α} :
    (∃ ys, xs.mapM f = .ok ys) ↔ ∀ x ∈ xs, ∃ y, f x = .ok y := by
  simp only [mapM_eq_ok_iff]
  induction xs with
  | nil => exact ⟨fun _ x hx => absurd hx List.not_mem_nil, fun _ => ⟨[], .nil⟩⟩
  | cons x xs ih =>
    rw [List.forall_mem_cons, ← ih]
    constructor
    · rintro ⟨_, hall⟩
      cases hall with
      | cons hy hrest => exact ⟨⟨_, hy⟩, _, hrest⟩
    · rintro ⟨⟨y, hy⟩, ys, hrest⟩
      exact ⟨y :: ys, .cons hy hrest⟩

/-- A step for each element of a list fails as it does for one of them. -/
theorem exists_mem_of_mapM_eq_error {f : α → Except ε β} {xs : List α} {e : ε}
    (h : xs.mapM f = .error e) : ∃ x ∈ xs, f x = .error e := by
  induction xs with
  | nil => cases h
  | cons x xs ih =>
    rw [List.mapM_cons] at h
    cases hx : f x with
    | error e' =>
      rw [hx] at h
      cases h
      exact ⟨x, List.mem_cons_self, hx⟩
    | ok y =>
      -- The first element does not fail, so one of the others does.
      cases hrest : xs.mapM f with
      | error e' =>
        rw [hx, hrest] at h
        cases h
        obtain ⟨x', hmem, hx'⟩ := ih hrest
        exact ⟨x', List.mem_cons_of_mem _ hmem, hx'⟩
      | ok ys =>
        rw [hx, hrest] at h
        cases h

/-- What a step gives for the elements of a list, put together. -/
theorem mem_flatten_of_mapM {f : α → Except ε (List β)} {xs : List α} {yss : List (List β)} {y : β}
    (h : xs.mapM f = .ok yss) : y ∈ yss.flatten ↔ ∃ x ∈ xs, ∃ ys, f x = .ok ys ∧ y ∈ ys := by
  induction mapM_eq_ok_iff.mp h with
  | nil => simp
  | cons hys hrest ih =>
    rw [List.flatten_cons, List.mem_append, ih (mapM_eq_ok_iff.mpr hrest),
      List.exists_mem_cons_iff, hys]
    simp only [Except.ok.injEq, exists_eq_left']

/-- A step for each index below `count` succeeds when all of them do. -/
theorem mapM_range_eq_ok_iff {f : Nat → Except ε β} {count : Nat} {ys : List β} :
    (List.range count).mapM f = .ok ys ↔
      ys.length = count ∧ ∀ i y, ys[i]? = some y → f i = .ok y := by
  rw [mapM_eq_ok_iff, List.forall₂_iff_get]
  constructor
  · intro ⟨hlen, h⟩
    rw [List.length_range] at hlen
    refine ⟨hlen.symm, fun i y hy => ?_⟩
    obtain ⟨hi, rfl⟩ := List.getElem?_eq_some_iff.mp hy
    have hstep := h i (by rw [List.length_range]; omega) hi
    rw [List.get_eq_getElem, List.getElem_range, List.get_eq_getElem] at hstep
    exact hstep
  · intro ⟨hlen, h⟩
    refine ⟨by rw [List.length_range, hlen], fun i hi hi' => ?_⟩
    rw [List.get_eq_getElem, List.getElem_range, List.get_eq_getElem]
    exact h i _ (List.getElem?_eq_getElem hi')

/-- The results of a step for each index below `count` are known by their places in the list. -/
theorem mapM_range_eq_ok_iff_getElem? {f : Nat → Except ε β} {count : Nat} {ys : List β} :
    (List.range count).mapM f = .ok ys ↔
      (∀ i < count, ∃ y, f i = .ok y) ∧ ∀ i y, ys[i]? = some y ↔ i < count ∧ f i = .ok y := by
  rw [mapM_range_eq_ok_iff]
  constructor
  · rintro ⟨rfl, h⟩
    have hall : ∀ i (hi : i < ys.length), f i = .ok ys[i] :=
      fun i hi => h i _ (List.getElem?_eq_getElem hi)
    refine ⟨fun i hi => ⟨_, hall i hi⟩, fun i y => ⟨fun hy => ?_, fun ⟨hi, hy⟩ => ?_⟩⟩
    · exact ⟨(List.getElem?_eq_some_iff.mp hy).1, h i y hy⟩
    · rw [List.getElem?_eq_getElem hi, ← Except.ok.inj ((hall i hi).symm.trans hy)]
  · rintro ⟨hall, h⟩
    refine ⟨?_, fun i y hy => ((h i y).mp hy).2⟩
    -- An index is one of the list exactly when it is below `count`.
    rcases Nat.lt_trichotomy ys.length count with hlt | heq | hgt
    · obtain ⟨y, hy⟩ := hall _ hlt
      obtain ⟨hin, _⟩ := List.getElem?_eq_some_iff.mp ((h _ y).mpr ⟨hlt, hy⟩)
      exact absurd hin (Nat.lt_irrefl _)
    · exact heq
    · exact absurd ((h count _).mp (List.getElem?_eq_getElem hgt)).1 (Nat.lt_irrefl _)

/-! ## Agreement -/

/-- Two computations end alike: both give the same, or both fail, with errors that need only be
similar. -/
inductive Agree (similar : ε → ε → Prop) : Except ε α → Except ε α → Prop
  | ok (a : α) : Agree similar (.ok a) (.ok a)
  | error {e e' : ε} (h : similar e e') : Agree similar (.error e) (.error e')

namespace Agree

variable {similar : ε → ε → Prop} {x y : Except ε α}

theorem refl (hrefl : ∀ e, similar e e) (x : Except ε α) : Agree similar x x := by
  cases x with
  | ok a => exact .ok a
  | error e => exact .error (hrefl e)

theorem imp {similar' : ε → ε → Prop} (h : Agree similar x y)
    (himp : ∀ e e', similar e e' → similar' e e') :
    Agree similar' x y := by
  cases h with
  | ok a => exact .ok a
  | error h => exact .error (himp _ _ h)

/-- What one of two computations that end alike gives the other gives too. -/
theorem eq_ok_iff (h : Agree similar x y) {a : α} : x = .ok a ↔ y = .ok a := by
  cases h with
  | ok b => rfl
  | error h => simp

/-- Computations that give the same whenever they give something end alike. -/
theorem of_eq_ok_iff (h : ∀ a, x = .ok a ↔ y = .ok a)
    (hsimilar : ∀ e e', x = .error e → y = .error e' → similar e e') : Agree similar x y := by
  cases x with
  | ok a =>
    rw [(h a).mp rfl]
    exact .ok a
  | error e =>
    cases y with
    | ok b => cases (h b).mpr rfl
    | error e' => exact .error (hsimilar e e' rfl rfl)

/-- A step after computations that end alike, which itself ends alike for each result. -/
theorem bind {f g : α → Except ε β} (h : Agree similar x y)
    (hstep : ∀ a, x = .ok a → Agree similar (f a) (g a)) : Agree similar (x >>= f) (y >>= g) := by
  cases h with
  | ok a => exact hstep a rfl
  | error h => exact .error h

/-- What is made of the results is alike. -/
theorem map (f : α → β) (h : Agree similar x y) : Agree similar (x.map f) (y.map f) := by
  cases h with
  | ok a => exact .ok (f a)
  | error h => exact .error h

/-- Errors that are worded differently can be similar in another way. -/
theorem mapError {ε' : Type} {similar' : ε' → ε' → Prop} (g : ε → ε')
    (hg : ∀ e e', similar e e' → similar' (g e) (g e')) (h : Agree similar x y) :
    Agree similar' (x.mapError g) (y.mapError g) := by
  cases h with
  | ok a => exact .ok a
  | error h => exact .error (hg _ _ h)

end Agree

/-! ## Extension -/

/-- One computation is below another one, which gives whatever it gives and may succeed where it
fails. -/
def Below (x y : Except ε α) : Prop := ∀ a, x = .ok a → y = .ok a

namespace Below

variable {x y : Except ε α}

theorem refl (x : Except ε α) : Below x x := fun _ h => h

theorem map (f : α → β) (h : Below x y) : Below (x.map f) (y.map f) := by
  intro b hb
  obtain ⟨a, ha, rfl⟩ := map_eq_ok_iff.mp hb
  exact map_eq_ok_iff.mpr ⟨a, h a ha, rfl⟩

/-- It does not matter here how an error is worded. -/
theorem mapError {ε' : Type} (g : ε → ε') (h : Below x y) :
    Below (x.mapError g) (y.mapError g) := by
  intro a ha
  exact mapError_eq_ok_iff.mpr (h a (mapError_eq_ok_iff.mp ha))

/-- A step after computations of which one is below the other, if it is so itself for each
result. -/
theorem bind {f g : α → Except ε β} (h : Below x y) (hstep : ∀ a, Below (f a) (g a)) :
    Below (x >>= f) (y >>= g) := by
  intro b hb
  obtain ⟨a, ha, hb⟩ := bind_eq_ok_iff.mp hb
  exact bind_eq_ok_iff.mpr ⟨a, h a ha, hstep a b hb⟩

/-- A step for each element of a list, if it is so for each of them. -/
theorem mapM {f g : α → Except ε β} (hstep : ∀ a, Below (f a) (g a)) (xs : List α) :
    Below (xs.mapM f) (xs.mapM g) := by
  intro ys hys
  exact mapM_eq_ok_iff.mpr ((mapM_eq_ok_iff.mp hys).imp hstep)

end Below

end Rebase.Fallible
