import Rebase.Bytes.LittleEndian

/-!
# Byte buffers

Both images are held as plain byte buffers. Nothing in an image can be trusted to lie where another
field says it lies, so every access here is bounded:

- `slice?`: a range of bytes, if the whole range is inside the buffer
- `word?`: a little-endian field that holds a word, on the same condition
- `word`, `byte`: a field of a record that has already been cut out whole
- `ofWord`: the bytes of a field
- `cstring?`: the bytes up to the next zero byte

The main statements say when a slice exists (`slice?_eq_some_iff`) and that a slice, once found,
stays what it is however many bytes follow the buffer (`slice?_append`).
-/

namespace Rebase

/-- A file image, or any other run of bytes. -/
abbrev Bytes := ByteArray

namespace Bytes

/-! ## §1 Slices -/

/-- A buffer of zero bytes. -/
def zeros (size : Nat) : Bytes := ⟨Array.replicate size 0⟩

/-- The `length` bytes from `offset` on, if all of them are inside the buffer. -/
def slice? (b : Bytes) (offset length : Nat) : Option Bytes :=
  if offset + length ≤ b.size then some (b.extract offset (offset + length)) else none

@[simp] theorem size_zeros (size : Nat) : (zeros size).size = size := by
  simp [zeros, ByteArray.size]

/-- **A slice exists** exactly when its range is inside the buffer. -/
theorem slice?_eq_some_iff {b s : Bytes} {offset length : Nat} :
    b.slice? offset length = some s ↔
      offset + length ≤ b.size ∧ s = b.extract offset (offset + length) := by
  unfold slice?
  split
  · simp_all [eq_comm]
  · simp only [reduceCtorEq, false_iff]
    omega

theorem slice?_eq_none_iff {b : Bytes} {offset length : Nat} :
    b.slice? offset length = none ↔ b.size < offset + length := by
  unfold slice?
  split <;> simp_all

theorem size_of_slice? {b s : Bytes} {offset length : Nat}
    (h : b.slice? offset length = some s) : s.size = length := by
  obtain ⟨hb, rfl⟩ := slice?_eq_some_iff.1 h
  rw [ByteArray.size_extract]
  omega

/-- **A slice does not see what follows the buffer.** -/
theorem slice?_append {b s : Bytes} {offset length : Nat} (more : Bytes)
    (h : b.slice? offset length = some s) : Bytes.slice? (b ++ more) offset length = some s := by
  obtain ⟨hb, rfl⟩ := slice?_eq_some_iff.1 h
  refine slice?_eq_some_iff.2 ⟨by rw [ByteArray.size_append]; omega, ?_⟩
  rw [ByteArray.extract_append]
  have hnone : more.extract (offset - b.size) (offset + length - b.size) = ByteArray.empty :=
    ByteArray.extract_eq_empty_iff.2 (by omega)
  rw [hnone, ByteArray.append_empty]

/-! ## §2 Fields -/

section Fields

variable (α : Type) {width : Nat} [Word α width]

/-- The field at `offset` that holds a word. -/
def word? (b : Bytes) (offset : Nat) : Option α :=
  (b.slice? offset width).map fun s => Word.ofNat (LittleEndian.decode s.data.toList)

/-- The field at `offset` of a record that holds it. -/
def word (record : Bytes) (offset : Nat) : α := (record.word? α offset).getD (Word.ofNat 0)

/-- The byte at `offset` of a record that holds it. -/
def byte (record : Bytes) (offset : Nat) : UInt8 := (record.data[offset]?).getD 0

variable {α}

/-- The bytes of a field that holds a word. -/
def ofWord (value : α) : Bytes := (LittleEndian.encode width (Word.toNat value)).toByteArray

@[simp] theorem size_ofWord (value : α) : (ofWord value).size = width := by
  simp [ofWord]

/-- **A field exists** exactly when it is inside the buffer. -/
theorem isSome_word? {b : Bytes} {offset : Nat} :
    (b.word? α offset).isSome ↔ offset + width ≤ b.size := by
  unfold word? slice?
  split <;> simp_all

end Fields

/-! ## §3 Zero-terminated strings -/

/-- The offset of the first zero byte at or after `i`. -/
def findZero? (b : Bytes) (i : Nat) : Option Nat :=
  if h : i < b.size then
    if b[i] = 0 then some i else findZero? b (i + 1)
  else
    none
termination_by b.size - i

/-- The bytes from `start` up to the next zero byte, which has to be inside the buffer. -/
def cstring? (b : Bytes) (start : Nat) : Option Bytes :=
  (b.findZero? start).map fun stop => b.extract start stop

/-- **The first zero byte** is inside the buffer, is zero, and no byte before it is. -/
theorem findZero?_eq_some_iff {b : Bytes} {i stop : Nat} :
    b.findZero? i = some stop ↔
      i ≤ stop ∧ b.data[stop]? = some 0 ∧ ∀ j, i ≤ j → j < stop → b.data[j]? ≠ some 0 := by
  -- The induction is on the search: a zero byte is found here, or further on, or not at all.
  fun_induction findZero? b i with
  | case1 i h hz =>
    have hz' : b.data[i]? = some 0 := by
      rw [Array.getElem?_eq_getElem h]
      exact congrArg some hz
    constructor
    · intro e
      cases e
      exact ⟨Nat.le_refl _, hz', fun j hij hji => by omega⟩
    · rintro ⟨hle, hstop, hbefore⟩
      rcases Nat.lt_or_eq_of_le hle with hlt | rfl
      · exact absurd hz' (hbefore i (Nat.le_refl _) hlt)
      · rfl
  | case2 i h hz ih =>
    have hz' : b.data[i]? ≠ some 0 := by
      rw [Array.getElem?_eq_getElem h]
      intro e
      exact hz (Option.some.inj e)
    rw [ih]
    constructor
    · rintro ⟨hle, hstop, hbefore⟩
      refine ⟨by omega, hstop, fun j hij hj => ?_⟩
      rcases Nat.lt_or_eq_of_le hij with hlt | rfl
      · exact hbefore j hlt hj
      · exact hz'
    · rintro ⟨hle, hstop, hbefore⟩
      have hne : i ≠ stop := fun e => by
        subst e
        exact hz' hstop
      exact ⟨by omega, hstop, fun j hij hj => hbefore j (by omega) hj⟩
  | case3 i h =>
    constructor
    · intro e
      cases e
    · rintro ⟨hle, hstop, -⟩
      obtain ⟨hlt, -⟩ := Array.getElem?_eq_some_iff.1 hstop
      exact absurd (Nat.lt_of_le_of_lt hle hlt) h

end Bytes

end Rebase
