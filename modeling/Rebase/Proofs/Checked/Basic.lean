import Rebase.Proofs.Bytes.Slice
import Rebase.Proofs.Fallible

/-!
# Operations that can stop a machine

On a machine with words of 64 bits an operation can go wrong without being an error of the program:
a sum that does not fit a word, a difference below zero, a slice that leaves its buffer, a number
that is cut off when it is stored in fewer bits. Such an operation stops the machine. Here each of
them is a function to `Option`, and `none` means that the machine stopped.

- **Operations**: `word`, `sub`, `narrow16`, `narrow32`, `cut`, `byteAt`, `write`, `extend`,
  `resize`
- **Computations**: `Guarded`, which can stop the machine, or fail with an error, or give a value
- **Agreement**: `EndsAs`, a guarded computation does not stop the machine and ends as an unguarded
  one

The stages of a run are written with these operations in the other modules of this folder, and shown
to end as the stages of `Rebase.run` do.
-/

namespace Rebase.Checked

/-- The largest number of bytes that a buffer can have. -/
def maxBufferSize : Nat := 0x7FFFFFFFFFFFFFFF

/-! ## §1 Operations -/

/-- A number that has to fit a word. -/
def word (n : Nat) : Option Nat := if n < UInt64.size then some n else none

/-- A difference that must not be negative. -/
def sub (a b : Nat) : Option Nat := if b ≤ a then some (a - b) else none

/-- A number that has to fit 16 bits. -/
def narrow16 (n : Nat) : Option UInt16 := if n < UInt16.size then some (UInt16.ofNat n) else none

/-- A number that has to fit 32 bits. -/
def narrow32 (n : Nat) : Option UInt32 := if n < UInt32.size then some (UInt32.ofNat n) else none

/-- The bytes from `first` to before `last`, which have to be inside the buffer. -/
def cut (b : Bytes) (first last : Nat) : Option Bytes :=
  if first ≤ last ∧ last ≤ b.size then some (b.extract first last) else none

/-- The byte at an index, which has to be inside the buffer. -/
def byteAt (b : Bytes) (i : Nat) : Option UInt8 := b.data[i]?

/-- Writes over the bytes from `offset` on, which have to be inside the buffer. -/
def write (b : Bytes) (offset : Nat) (data : Bytes) : Option Bytes := do
  let last ← word (offset + data.size)
  if last ≤ b.size then some (b.overwrite offset data) else none

/-- Adds bytes at the end of a buffer, which must not become too large. -/
def extend (b data : Bytes) : Option Bytes :=
  if b.size + data.size ≤ maxBufferSize then some (b ++ data) else none

/-- Cuts a buffer to a size, or adds zero bytes up to it. -/
def resize (b : Bytes) (size : Nat) : Option Bytes :=
  if size ≤ maxBufferSize then some (if size ≤ b.size then b.extract 0 size else b.padTo size)
  else none

theorem word_eq_none {n : Nat} (h : UInt64.size ≤ n) : word n = none := if_neg (Nat.not_lt.mpr h)

theorem word_eq_some {n : Nat} (h : n < UInt64.size) : word n = some n := if_pos h

theorem sub_eq_some {a b : Nat} (h : b ≤ a) : sub a b = some (a - b) := if_pos h

theorem narrow16_eq_some {n : Nat} (h : n < UInt16.size) : narrow16 n = some (UInt16.ofNat n) :=
  if_pos h

theorem narrow32_eq_some {n : Nat} (h : n < UInt32.size) : narrow32 n = some (UInt32.ofNat n) :=
  if_pos h

theorem cut_eq_some {b : Bytes} {first last : Nat} (hle : first ≤ last) (hsize : last ≤ b.size) :
    cut b first last = some (b.extract first last) := if_pos ⟨hle, hsize⟩

theorem extend_eq_some {b data : Bytes} (h : b.size + data.size ≤ maxBufferSize) :
    extend b data = some (b ++ data) := if_pos h

/-- A size that is not below that of the buffer cuts nothing off. -/
theorem resize_eq_some {b : Bytes} {size : Nat} (hsize : size ≤ maxBufferSize)
    (hle : b.size ≤ size) :
    resize b size = some (b.padTo size) := by
  rw [resize, if_pos hsize]
  split
  · next hge =>
    -- The buffer has the size already, so cutting and padding both leave it alone.
    have hsame : size = b.size := Nat.le_antisymm hge hle
    subst hsame
    have hnothing : Bytes.zeros 0 = ByteArray.empty := rfl
    rw [Bytes.padTo, Nat.sub_self, hnothing, ByteArray.append_empty, ByteArray.extract_zero_size]
  · rfl

/-- **An offset inside a buffer is a word.** -/
theorem word_eq_some_of_le {n size : Nat} (hsize : size ≤ maxBufferSize) (h : n ≤ size) :
    word n = some n := by
  refine word_eq_some (Nat.lt_of_le_of_lt (Nat.le_trans h hsize) ?_)
  decide

/-- What `write` asks for is that the range is inside a buffer that a machine can have. -/
theorem write_eq_some {b : Bytes} {offset : Nat} {data : Bytes} (hsize : b.size ≤ maxBufferSize)
    (fits : offset + data.size ≤ b.size) :
    write b offset data = some (b.overwrite offset data) := by
  rw [write, word_eq_some_of_le hsize fits]
  exact if_pos fits

/-- An operation that does not stop the machine, and what comes after it. -/
theorem bind_eq_of_eq_some {α β : Type} {o : Option α} {a : α} {k : α → Option β} {r : Option β}
    (ho : o = some a) (hk : k a = r) : (o >>= k) = r := by
  subst ho
  exact hk

/-! ## §2 Computations -/

/-- A computation that can stop the machine, fail with an error, or give a value. -/
abbrev Guarded (ε α : Type) := ExceptT ε Option α

/-- A value that may be missing, with the error for when it is. -/
def orError {ε α : Type} (o : Option α) (e : ε) : Guarded ε α :=
  match o with
  | some a => pure a
  | none => throw e

/-- **Agreement.** A guarded computation does not stop the machine, and ends as an unguarded one. -/
def EndsAs {ε α : Type} (x : Guarded ε α) (y : Except ε α) : Prop := x.run = some y

namespace EndsAs

variable {ε ε' α β : Type} {x : Guarded ε α} {y : Except ε α}

theorem pure (a : α) : EndsAs (Pure.pure a : Guarded ε α) (.ok a) := rfl

theorem throw (e : ε) : EndsAs (MonadExcept.throw e : Guarded ε α) (.error e) := rfl

/-- A chain of two computations. -/
theorem bind {k : α → Guarded ε β} {k' : α → Except ε β} (hx : EndsAs x y)
    (hk : ∀ a, y = .ok a → EndsAs (k a) (k' a)) : EndsAs (x >>= k) (y >>= k') := by
  unfold EndsAs at hx ⊢
  rw [ExceptT.run_bind, hx]
  cases y with
  | error e => rfl
  | ok a => exact hk a rfl

/-- A chain of which the second part does not fail without a machine. -/
theorem map_of_bind {k : α → Guarded ε β} {f : α → β} (hx : EndsAs x y)
    (hk : ∀ a, y = .ok a → EndsAs (k a) (.ok (f a))) : EndsAs (x >>= k) (y.map f) := by
  unfold EndsAs at hx ⊢
  rw [ExceptT.run_bind, hx]
  cases y with
  | error e => rfl
  | ok a => exact hk a rfl

/-- An operation that does not stop the machine, and what comes after it. -/
theorem guard {o : Option β} {b : β} {k : β → Guarded ε α} (ho : o = some b) (hk : EndsAs (k b) y) :
    EndsAs ((liftM o : Guarded ε β) >>= k) y := by
  subst ho
  exact hk

/-- An operation that does not stop the machine, at the end of a computation. -/
theorem lift {o : Option α} {a : α} (ho : o = some a) : EndsAs (liftM o : Guarded ε α) (.ok a) := by
  subst ho
  rfl

/-- A value that is not missing, and what comes after it. -/
theorem present {o : Option β} {b : β} {e : ε} {k : β → Guarded ε α} (ho : o = some b)
    (hk : EndsAs (k b) y) : EndsAs (orError o e >>= k) y := by
  subst ho
  exact hk

/-- A value that is missing ends the computation with its error. -/
theorem missing {o : Option β} {e : ε} {k : β → Guarded ε α} (ho : o = none) :
    EndsAs (orError o e >>= k) (.error e) := by
  subst ho
  rfl

/-- A number that is cut to 32 bits and, where it does not fit, reported as what a larger test would
report. -/
theorem narrow {p : Prop} [Decidable p] {n : Nat} {e : ε} {k : UInt32 → Guarded ε α}
    (hp : p → n < UInt32.size)
    (hk : n < UInt32.size → EndsAs (k (UInt32.ofNat n)) (if p then y else .error e)) :
    EndsAs (orError (narrow32 n) e >>= k) (if p then y else .error e) := by
  by_cases hlt : n < UInt32.size
  · exact .present (narrow32_eq_some hlt) (hk hlt)
  · rw [if_neg fun h => hlt (hp h)]
    exact .missing (if_neg hlt)

/-- A chain whose first part gives less than that of the unguarded computation. -/
theorem bindMap {z : Except ε β} {f : β → α} {γ : Type} {k : α → Guarded ε γ} {k' : β → Except ε γ}
    (hx : EndsAs x (z.map f)) (hk : ∀ b, z = .ok b → EndsAs (k (f b)) (k' b)) :
    EndsAs (x >>= k) (z >>= k') := by
  unfold EndsAs at hx ⊢
  rw [ExceptT.run_bind, hx]
  cases z with
  | error e => rfl
  | ok b => exact hk b rfl

theorem ite {p : Prop} [Decidable p] {x₁ x₂ : Guarded ε α} {y₁ y₂ : Except ε α}
    (h₁ : p → EndsAs x₁ y₁) (h₂ : ¬ p → EndsAs x₂ y₂) :
    EndsAs (if p then x₁ else x₂) (if p then y₁ else y₂) := by
  split
  · next h => exact h₁ h
  · next h => exact h₂ h

/-- An error that is worded differently. -/
theorem adapt (hx : EndsAs x y) (f : ε → ε') : EndsAs (ExceptT.adapt f x) (y.mapError f) := by
  unfold EndsAs at hx ⊢
  rw [ExceptT.run_adapt, hx]
  rfl

/-- A computation for each element of a list. -/
theorem mapM {f : β → Guarded ε α} {g : β → Except ε α} {xs : List β}
    (h : ∀ b ∈ xs, EndsAs (f b) (g b)) : EndsAs (xs.mapM f) (xs.mapM g) := by
  induction xs with
  | nil => exact pure []
  | cons b rest ih =>
    rw [List.mapM_cons, List.mapM_cons]
    refine (h b List.mem_cons_self).bind fun a _ => ?_
    exact (ih fun b' hb' => h b' (List.mem_cons_of_mem _ hb')).bind fun as _ => pure _

end EndsAs

/-- An operation for each element of a list does not stop the machine if it does for none of
them. -/
theorem mapM_eq_some {α β : Type} {f : α → Option β} {g : α → β} {xs : List α}
    (h : ∀ a ∈ xs, f a = some (g a)) : xs.mapM f = some (xs.map g) := by
  induction xs with
  | nil => rfl
  | cons a rest ih =>
    rw [List.mapM_cons, h a List.mem_cons_self, ih fun a' ha' => h a' (List.mem_cons_of_mem _ ha')]
    rfl

end Rebase.Checked
