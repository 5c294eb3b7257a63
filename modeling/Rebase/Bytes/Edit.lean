import Rebase.Bytes.Basic

/-!
# Edits of a buffer

A patch is a list of edits, applied in order. There are three kinds: bytes written over bytes, zero
bytes added up to a size, and bytes added at the end. Keeping the list as a value lets a patch be
inspected before it is made, and lets one argument about edits serve every patch.

The main statements are `size_applyAll`, the size after a patch, and `getElem?_applyAll`: a byte
that no edit of the list touches is what it was.
-/

namespace Rebase

namespace Bytes

/-- Writes `data` over the bytes from `offset` on; a range that leaves the buffer changes
nothing. -/
def overwrite (b : Bytes) (offset : Nat) (data : Bytes) : Bytes :=
  if offset + data.size ≤ b.size then
    b.extract 0 offset ++ data ++ b.extract (offset + data.size) b.size
  else
    b

/-- Adds zero bytes until the buffer has the given size. -/
def padTo (b : Bytes) (size : Nat) : Bytes := b ++ zeros (size - b.size)

@[simp] theorem size_overwrite (b : Bytes) (offset : Nat) (data : Bytes) :
    (b.overwrite offset data).size = b.size := by
  unfold overwrite
  split
  · simp only [ByteArray.size_append, ByteArray.size_extract]
    omega
  · rfl

@[simp] theorem size_padTo (b : Bytes) (size : Nat) : (b.padTo size).size = max b.size size := by
  simp only [padTo, ByteArray.size_append, size_zeros]
  omega

/-- **The bytes after a write** are the written ones inside its range and the old ones elsewhere. -/
theorem getElem?_overwrite (b : Bytes) {offset : Nat} {data : Bytes}
    (fits : offset + data.size ≤ b.size) (i : Nat) :
    (b.overwrite offset data).data[i]? =
      if offset ≤ i ∧ i < offset + data.size then data.data[i - offset]? else b.data[i]? := by
  have hb : b.data.size = b.size := rfl
  have hd : data.data.size = data.size := rfl
  simp only [overwrite, fits, if_true, ByteArray.data_append, ByteArray.data_extract,
    Array.getElem?_append, Array.size_append, Array.size_extract, Array.getElem?_extract]
  grind

end Bytes

/-- One step of a patch. -/
inductive Edit where
  /-- Write `data` over the bytes from `offset` on. -/
  | overwrite (offset : Nat) (data : Bytes)
  /-- Add zero bytes until the buffer has the given size. -/
  | padTo (size : Nat)
  /-- Add `data` at the end. -/
  | append (data : Bytes)

namespace Edit

/-- The buffer after one edit. -/
def apply (b : Bytes) : Edit → Bytes
  | .overwrite offset data => b.overwrite offset data
  | .padTo size => b.padTo size
  | .append data => b ++ data

/-- The buffer after a list of edits. -/
def applyAll (edits : List Edit) (b : Bytes) : Bytes := edits.foldl apply b

/-- The size that an edit leaves, from the size before it. -/
def sizeAfter (size : Nat) : Edit → Nat
  | .overwrite _ _ => size
  | .padTo target => max size target
  | .append data => size + data.size

/-- Whether an edit makes sense for a buffer of the given size: bytes are written inside of it, and
padding does not ask for fewer bytes than there are. -/
def Fits (size : Nat) : Edit → Prop
  | .overwrite offset data => offset + data.size ≤ size
  | .padTo target => size ≤ target
  | .append _ => True

instance (size : Nat) (edit : Edit) : Decidable (edit.Fits size) := by
  cases edit <;> unfold Fits <;> infer_instance

/-- Whether each edit of a list makes sense for the buffer that the edits before it leave. -/
def AllFit : (size : Nat) → List Edit → Prop
  | _, [] => True
  | size, edit :: edits => edit.Fits size ∧ AllFit (edit.sizeAfter size) edits

/-- Whether an edit writes over the byte at `i`. -/
def Touches (i : Nat) : Edit → Prop
  | .overwrite offset data => offset ≤ i ∧ i < offset + data.size
  | .padTo _ => False
  | .append _ => False

instance (i : Nat) (edit : Edit) : Decidable (edit.Touches i) := by
  cases edit <;> unfold Touches <;> infer_instance

@[simp] theorem size_apply (b : Bytes) (edit : Edit) :
    (edit.apply b).size = edit.sizeAfter b.size := by
  cases edit <;> simp [apply, sizeAfter, ByteArray.size_append]

@[simp] theorem applyAll_nil (b : Bytes) : applyAll [] b = b := rfl

@[simp] theorem applyAll_cons (edit : Edit) (edits : List Edit) (b : Bytes) :
    applyAll (edit :: edits) b = applyAll edits (edit.apply b) := rfl

theorem applyAll_append (first second : List Edit) (b : Bytes) :
    applyAll (first ++ second) b = applyAll second (applyAll first b) :=
  List.foldl_append

/-- **The size after a patch** is found from the size before it and the edits alone. -/
theorem size_applyAll (edits : List Edit) (b : Bytes) :
    (applyAll edits b).size = edits.foldl sizeAfter b.size := by
  induction edits generalizing b with
  | nil => rfl
  | cons edit edits ih => rw [applyAll_cons, ih, size_apply, List.foldl_cons]

/-- No edit shortens a buffer. -/
theorem le_sizeAfter (size : Nat) (edit : Edit) : size ≤ edit.sizeAfter size := by
  cases edit <;> simp only [sizeAfter] <;> omega

/-- A byte that an edit does not write over is what it was. -/
theorem getElem?_apply {b : Bytes} {edit : Edit} {i : Nat} (hi : i < b.size)
    (untouched : ¬ edit.Touches i) : (edit.apply b).data[i]? = b.data[i]? := by
  have hdata : i < b.data.size := hi
  cases edit with
  | overwrite offset data =>
    simp only [apply]
    by_cases fits : offset + data.size ≤ b.size
    · have outside : ¬ (offset ≤ i ∧ i < offset + data.size) := untouched
      rw [Bytes.getElem?_overwrite b fits, if_neg outside]
    · rw [Bytes.overwrite, if_neg fits]
  | padTo size =>
    simp only [apply, Bytes.padTo, ByteArray.data_append]
    exact Array.getElem?_append_left hdata
  | append data =>
    simp only [apply, ByteArray.data_append]
    exact Array.getElem?_append_left hdata

/-- **The frame of a patch**: a byte that no edit writes over is what it was. -/
theorem getElem?_applyAll {edits : List Edit} {b : Bytes} {i : Nat} (hi : i < b.size)
    (untouched : ∀ edit ∈ edits, ¬ edit.Touches i) :
    (applyAll edits b).data[i]? = b.data[i]? := by
  induction edits generalizing b with
  | nil => rfl
  | cons edit edits ih =>
    have hsize : i < (edit.apply b).size := by
      rw [size_apply]
      exact Nat.lt_of_lt_of_le hi (le_sizeAfter _ _)
    rw [applyAll_cons, ih hsize fun e he => untouched e (List.mem_cons_of_mem _ he),
      getElem?_apply hi (untouched edit List.mem_cons_self)]

end Edit

end Rebase
