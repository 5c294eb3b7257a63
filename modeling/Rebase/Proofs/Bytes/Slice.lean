import Rebase.Bytes.Edit

/-!
# Reading a changed buffer

What a slice or a field of a buffer is after the buffer was changed. A slice is known by its bytes,
so all of this comes from `slice?_congr`: two buffers that agree on a range have the same slice
there.

- **Joining**: a slice of `a ++ b` that stays on one side is a slice of that side, and a string that
  ends in `a` is one of `a` (`cstring?_append`)
- **Nesting**: a slice of a slice is a slice
- **Patching**: a slice that no edit writes over is what it was (`slice?_applyAll`), and one that is
  written over, and not touched again, is what was written (`slice?_applyAll_of_overwrite`)
- **Repeating**: edits that write what is there change nothing (`applyAll_of_keeps`), and what was
  there before does not matter where they write (`applyAll_congr`)
-/

namespace Rebase.Bytes

/-! ## §1 Slices and their bytes -/

theorem size_data (b : Bytes) : b.data.size = b.size := rfl

/-- Two buffers that agree on a range have the same slice there. -/
theorem slice?_congr {b c : Bytes} {offset length : Nat}
    (hsize : offset + length ≤ b.size ↔ offset + length ≤ c.size)
    (h : ∀ i, offset ≤ i → i < offset + length → b.data[i]? = c.data[i]?) :
    b.slice? offset length = c.slice? offset length := by
  unfold slice?
  by_cases hb : offset + length ≤ b.size
  · rw [if_pos hb, if_pos (hsize.mp hb)]
    -- Two slices of one length are equal when their bytes are.
    congr 1
    apply ByteArray.ext
    apply Array.ext_getElem?
    intro k
    have hk := h (offset + k) (Nat.le_add_right _ _)
    have hc := hsize.mp hb
    simp only [ByteArray.data_extract, Array.getElem?_extract, size_data, Nat.min_eq_left hb,
      Nat.min_eq_left hc]
    split
    · exact hk (by omega)
    · rfl
  · rw [if_neg hb, if_neg (fun hc => hb (hsize.mpr hc))]

/-- Bytes that are the same as lists are the same slice. -/
theorem slice?_eq_of_toList {b c : Bytes} {i j n : Nat} (hb : i + n ≤ b.size) (hc : j + n ≤ c.size)
    (h : (b.data.toList.drop i).take n = (c.data.toList.drop j).take n) :
    b.slice? i n = c.slice? j n := by
  rw [slice?_eq_some_iff.mpr ⟨hb, rfl⟩, slice?_eq_some_iff.mpr ⟨hc, rfl⟩, Option.some.injEq]
  apply ByteArray.ext
  rw [← Array.toList_inj]
  simp only [ByteArray.data_extract, Array.toList_extract, List.extract_eq_take_drop,
    Nat.add_sub_cancel_left, h]

/-- The bytes of a slice are those of its range. -/
theorem getElem?_of_slice? {b s : Bytes} {offset length : Nat}
    (h : b.slice? offset length = some s) {k : Nat} (hk : k < length) :
    s.data[k]? = b.data[offset + k]? := by
  obtain ⟨hb, rfl⟩ := slice?_eq_some_iff.mp h
  simp only [ByteArray.data_extract, Array.getElem?_extract, size_data]
  rw [if_pos (by omega)]

/-- A slice that has the bytes of `s` is `s`. -/
private theorem slice?_eq_some_of_getElem? {b s : Bytes} {offset : Nat}
    (hsize : offset + s.size ≤ b.size) (h : ∀ k, k < s.size → b.data[offset + k]? = s.data[k]?) :
    b.slice? offset s.size = some s := by
  refine slice?_eq_some_iff.mpr ⟨hsize, ?_⟩
  apply ByteArray.ext
  apply Array.ext_getElem?
  intro k
  simp only [ByteArray.data_extract, Array.getElem?_extract, size_data, Nat.min_eq_left hsize]
  split
  · exact (h k (by omega)).symm
  · exact Array.getElem?_eq_none (by rw [size_data]; omega)

theorem slice?_self (b : Bytes) : b.slice? 0 b.size = some b := by
  simp [slice?]

theorem slice?_zeros (size : Nat) : (zeros size).slice? 0 size = some (zeros size) := by
  have hself := slice?_self (zeros size)
  rw [size_zeros] at hself
  exact hself

theorem slice?_ofWord {α : Type} {width : Nat} [Word α width] (value : α) :
    (ofWord value).slice? 0 width = some (ofWord value) := by
  have hself := slice?_self (ofWord value)
  rw [size_ofWord] at hself
  exact hself

/-- A slice that stays on the left side of a joint is one of that side. -/
theorem slice?_append_left {a b : Bytes} {offset length : Nat} (h : offset + length ≤ a.size) :
    Bytes.slice? (a ++ b) offset length = a.slice? offset length := by
  apply slice?_congr
  · rw [ByteArray.size_append]
    omega
  · intro i _ hi
    rw [ByteArray.data_append]
    exact Array.getElem?_append_left (by rw [size_data]; omega)

/-- A slice that stays on the right side of a joint is one of that side. -/
theorem slice?_append_right {a b : Bytes} {offset length : Nat} (h : a.size ≤ offset) :
    Bytes.slice? (a ++ b) offset length = b.slice? (offset - a.size) length := by
  unfold slice?
  rw [ByteArray.size_append]
  by_cases hb : offset + length ≤ a.size + b.size
  · rw [if_pos hb, if_pos (by omega), ByteArray.extract_append]
    have hnone : a.extract offset (offset + length) = ByteArray.empty :=
      ByteArray.extract_eq_empty_iff.mpr (by omega)
    have hstop : offset + length - a.size = offset - a.size + length := by omega
    rw [hnone, ByteArray.empty_append, hstop]
  · rw [if_neg hb, if_neg (by omega)]

/-- A slice of a slice is a slice. -/
theorem slice?_of_slice? {b s : Bytes} {offset length start width : Nat}
    (h : b.slice? offset length = some s) (hin : start + width ≤ length) :
    b.slice? (offset + start) width = s.slice? start width := by
  obtain ⟨hb, rfl⟩ := slice?_eq_some_iff.mp h
  rw [slice?, if_pos (by omega), slice?, if_pos (by rw [ByteArray.size_extract]; omega),
    ByteArray.extract_extract]
  congr 2
  omega

/-- What a slice starts with is a slice. -/
theorem slice?_extract_zero {b s : Bytes} {offset length width : Nat}
    (h : b.slice? offset length = some s) (hin : width ≤ length) :
    b.slice? offset width = some (s.extract 0 width) := by
  have hinside := slice?_of_slice? h (show 0 + width ≤ length by omega)
  rw [Nat.add_zero] at hinside
  rw [hinside, slice?_eq_some_iff, size_of_slice? h, Nat.zero_add]
  exact ⟨hin, rfl⟩

/-- Two slices next to each other are one of both. -/
theorem slice?_join {b s t : Bytes} {offset m n : Nat} (hs : b.slice? offset m = some s)
    (ht : b.slice? (offset + m) n = some t) : b.slice? offset (m + n) = some (s ++ t) := by
  obtain ⟨_, rfl⟩ := slice?_eq_some_iff.mp hs
  obtain ⟨hend, rfl⟩ := slice?_eq_some_iff.mp ht
  refine slice?_eq_some_iff.mpr ⟨by omega, ?_⟩
  rw [ByteArray.extract_append_extract, Nat.min_eq_left (by omega), Nat.max_eq_right (by omega),
    Nat.add_assoc]

/-- A write that stays on the left side of a joint does not see the right one. -/
theorem overwrite_append_left {a b data : Bytes} {offset : Nat}
    (fits : offset + data.size ≤ a.size) :
    Bytes.overwrite (a ++ b) offset data = a.overwrite offset data ++ b := by
  apply ByteArray.ext
  apply Array.ext_getElem?
  intro i
  rw [getElem?_overwrite _ (by rw [ByteArray.size_append]; omega), ByteArray.data_append,
    ByteArray.data_append, Array.getElem?_append, Array.getElem?_append,
    getElem?_overwrite a fits, size_data, size_data, size_overwrite]
  -- A byte of the right side is behind the range that is written to.
  by_cases hi : i < a.size
  · simp only [hi, if_true]
  · rw [if_neg hi, if_neg hi, if_neg (by omega)]

/-- Two writes next to each other are one of both. -/
theorem overwrite_append (b : Bytes) {first second : Bytes} {offset : Nat}
    (fits : offset + first.size + second.size ≤ b.size) :
    (b.overwrite offset first).overwrite (offset + first.size) second =
      b.overwrite offset (first ++ second) := by
  apply ByteArray.ext
  apply Array.ext_getElem?
  intro i
  rw [getElem?_overwrite _ (by rw [size_overwrite]; exact fits), getElem?_overwrite b (by omega),
    getElem?_overwrite b (by rw [ByteArray.size_append]; omega), ByteArray.size_append,
    ByteArray.data_append, Array.getElem?_append, size_data]
  -- A byte is in the range of the second write, in that of the first, or in neither.
  by_cases hsecond : offset + first.size ≤ i ∧ i < offset + first.size + second.size
  · have hindex : i - offset - first.size = i - (offset + first.size) := by omega
    rw [if_pos hsecond, if_pos (by omega), if_neg (by omega), hindex]
  · rw [if_neg hsecond]
    by_cases hfirst : offset ≤ i ∧ i < offset + first.size
    · rw [if_pos hfirst, if_pos (by omega), if_pos (by omega)]
    · rw [if_neg hfirst, if_neg (by omega)]

/-- A write to zero bytes at the end of a buffer. -/
theorem overwrite_append_zeros {a data : Bytes} {offset n : Nat} (gap rest : Nat)
    (hoffset : offset = a.size + gap) (hn : n = gap + data.size + rest) :
    Bytes.overwrite (a ++ zeros n) offset data = a ++ zeros gap ++ data ++ zeros rest := by
  have hzeros : ∀ k m, zeros (k + m) = zeros k ++ zeros m := by
    intro k m
    apply ByteArray.ext
    simp [zeros]
  -- The zero bytes are divided into those in front of the range, the range, and those behind it.
  have hfront : (a ++ zeros gap).size = offset := by
    rw [ByteArray.size_append, size_zeros, hoffset]
  subst hn
  rw [hzeros, hzeros, ← ByteArray.append_assoc, ← ByteArray.append_assoc, overwrite, if_pos
    (by simp only [ByteArray.size_append, size_zeros]; omega)]
  congr 1
  · congr 1
    rw [ByteArray.append_assoc, ByteArray.extract_append_eq_left hfront.symm]
  · rw [ByteArray.extract_append_eq_right]
    · simp only [ByteArray.size_append, size_zeros]
      omega
    · rw [ByteArray.size_append]

/-- Zero bytes up to a size, contents, and zero bytes up to a second size, at the end of a
buffer. -/
theorem padTo_append_padTo {b data : Bytes} {start stop : Nat} (hstart : b.size ≤ start) :
    Bytes.padTo (b.padTo start ++ data) stop =
      b ++ (zeros (start - b.size) ++ data ++ zeros (stop - (start + data.size))) := by
  have hsize : (b.padTo start ++ data).size = start + data.size := by
    rw [ByteArray.size_append, size_padTo, Nat.max_eq_right hstart]
  rw [padTo, hsize, padTo]
  simp only [ByteArray.append_assoc]

/-! ## §2 Fields -/

section Fields

variable {α : Type} {width : Nat} [Word α width] {b s : Bytes} {offset length start : Nat}
  {value : α}

theorem word?_congr {c : Bytes} {i j : Nat} (h : b.slice? i width = c.slice? j width) :
    b.word? α i = c.word? α j := by
  rw [word?, word?, h]

theorem word?_eq_some (h : offset + width ≤ b.size) :
    b.word? α offset = some (b.word α offset) := by
  have hsome : (b.word? α offset).isSome := isSome_word?.mpr h
  obtain ⟨value, hvalue⟩ := Option.isSome_iff_exists.mp hsome
  rw [word, hvalue, Option.getD_some]

/-- A byte of a record that was cut out whole is the one at its place in the buffer. -/
private theorem byte_inside (h : b.slice? offset length = some s) (hin : start < length) :
    b.data[offset + start]? = some (s.byte start) := by
  have hlt : start < s.data.size := by
    rw [size_data, size_of_slice? h]
    exact hin
  rw [← getElem?_of_slice? h hin, byte, Array.getElem?_eq_getElem hlt, Option.getD_some]

/-- **A field of a record** that was cut out whole is the one at its place in the buffer. -/
theorem word?_inside (α : Type) [Word α width] (h : b.slice? offset length = some s)
    (hin : start + width ≤ length) :
    b.word? α (offset + start) = some (s.word α start) := by
  rw [word?_congr (slice?_of_slice? h hin)]
  exact word?_eq_some (by rw [size_of_slice? h]; exact hin)

/-- A byte of what a buffer starts with. -/
theorem byte_front (h : b.slice? 0 length = some s) (k : Nat) (hin : k < length) :
    b.data[k]? = some (s.byte k) := by
  have hbyte := byte_inside h hin
  rw [Nat.zero_add] at hbyte
  exact hbyte

/-- A field of what a buffer starts with. -/
theorem word?_front (h : b.slice? 0 length = some s) (k : Nat) (hin : k + width ≤ length) :
    b.word? α k = some (s.word α k) := by
  have hfield : b.word? α (0 + k) = some (s.word α k) := word?_inside _ h hin
  rw [Nat.zero_add] at hfield
  exact hfield

/-- A field that holds the bytes of a word is that word. -/
theorem word?_of_slice? (h : b.slice? offset width = some (ofWord value)) :
    b.word? α offset = some value := by
  rw [word?, h, Option.map_some, ofWord, List.toList_data_toByteArray, Word.ofNat_decode_encode]

/-- The bytes of a field are those of its word. -/
theorem slice?_of_word? (h : b.word? α offset = some value) :
    b.slice? offset width = some (ofWord value) := by
  obtain ⟨s, hs, rfl⟩ := Option.map_eq_some_iff.mp h
  have hlength : s.data.toList.length = width := size_of_slice? hs
  rw [hs, ofWord, Word.encode_toNat_ofNat_decode α hlength]
  exact congrArg some (ByteArray.ext (Array.toList_inj.mp List.toList_data_toByteArray.symm))

/-- The end of a field is inside the buffer. -/
theorem le_size_of_word? (h : b.word? α offset = some value) : offset + width ≤ b.size := by
  have hsome : (b.word? α offset).isSome := by
    rw [h]
    rfl
  exact isSome_word?.mp hsome

end Fields

/-! ## §3 Strings -/

/-- A string is the same in two buffers that agree up to the zero byte behind it. -/
theorem cstring?_congr {b c : Bytes} {start stop : Nat} (hstop : b.findZero? start = some stop)
    (h : ∀ i, start ≤ i → i ≤ stop → c.data[i]? = b.data[i]?) :
    c.cstring? start = b.cstring? start := by
  obtain ⟨hle, hzero, hbefore⟩ := findZero?_eq_some_iff.mp hstop
  have hzero' : c.data[stop]? = some 0 := (h stop hle (Nat.le_refl _)).trans hzero
  -- The string ends at the same place, because the bytes before it are the same.
  have hstop' : c.findZero? start = some stop := by
    refine findZero?_eq_some_iff.mpr ⟨hle, hzero', fun i hfirst hlast => ?_⟩
    rw [h i hfirst (Nat.le_of_lt hlast)]
    exact hbefore i hfirst hlast
  have htext : c.extract start stop = b.extract start stop := by
    obtain ⟨hb, _⟩ := Array.getElem?_eq_some_iff.mp hzero
    obtain ⟨hc, _⟩ := Array.getElem?_eq_some_iff.mp hzero'
    apply ByteArray.ext
    apply Array.ext_getElem?
    intro k
    simp only [ByteArray.data_extract, Array.getElem?_extract, Nat.min_eq_left (Nat.le_of_lt hb),
      Nat.min_eq_left (Nat.le_of_lt hc)]
    split
    · exact h _ (by omega) (by omega)
    · rfl
  rw [cstring?, cstring?, hstop, hstop', Option.map_some, Option.map_some, htext]

/-- **A string does not see what follows the buffer**, because its end is in it. -/
theorem cstring?_append {b text : Bytes} {start : Nat} (more : Bytes)
    (h : b.cstring? start = some text) :
    Bytes.cstring? (b ++ more) start = some text := by
  obtain ⟨stop, hstop, _⟩ := Option.map_eq_some_iff.mp h
  obtain ⟨_, hzero, _⟩ := findZero?_eq_some_iff.mp hstop
  obtain ⟨hinside, _⟩ := Array.getElem?_eq_some_iff.mp hzero
  rw [← h]
  refine cstring?_congr hstop fun i _ hlast => ?_
  rw [ByteArray.data_append]
  exact Array.getElem?_append_left (by omega)

end Rebase.Bytes

namespace Rebase.Edit

open Bytes

/-! ## §4 Patches -/

theorem le_size_applyAll (edits : List Edit) (b : Bytes) : b.size ≤ (applyAll edits b).size := by
  induction edits generalizing b with
  | nil => exact Nat.le_refl _
  | cons edit edits ih =>
    have hstep : b.size ≤ (edit.apply b).size := by
      rw [size_apply]
      exact le_sizeAfter _ _
    exact Nat.le_trans hstep (ih _)

/-- **A slice that no edit writes over** is what it was. -/
theorem slice?_applyAll {edits : List Edit} {b : Bytes} {offset length : Nat}
    (hsize : offset + length ≤ b.size)
    (untouched : ∀ i, offset ≤ i → i < offset + length → ∀ edit ∈ edits, ¬ edit.Touches i) :
    (applyAll edits b).slice? offset length = b.slice? offset length := by
  apply slice?_congr
  · have := le_size_applyAll edits b
    omega
  · intro i hlo hhi
    exact getElem?_applyAll (by omega) (untouched i hlo hhi)

/-- A slice is what is written over it. -/
theorem slice?_overwrite_self {b data : Bytes} {offset : Nat} (fits : offset + data.size ≤ b.size) :
    (b.overwrite offset data).slice? offset data.size = some data := by
  refine slice?_eq_some_of_getElem? (by rw [size_overwrite]; exact fits) ?_
  intro k hk
  rw [getElem?_overwrite b fits, if_pos (by omega)]
  congr 1
  omega

/-- Writing over a slice what it is already changes nothing. -/
private theorem overwrite_of_slice? {b data : Bytes} {offset : Nat}
    (h : b.slice? offset data.size = some data) : b.overwrite offset data = b := by
  obtain ⟨fits, _⟩ := slice?_eq_some_iff.mp h
  apply ByteArray.ext
  apply Array.ext_getElem?
  intro i
  rw [getElem?_overwrite b fits]
  split
  · next hin =>
    rw [getElem?_of_slice? h (by omega), Nat.add_sub_cancel' hin.1]
  · rfl

/-- An edit that writes what is there already. -/
def Keeps (b : Bytes) : Edit → Prop
  | .overwrite offset data => b.slice? offset data.size = some data
  | .padTo _ => False
  | .append _ => False

/-- **Edits that write what is there** change nothing. -/
theorem applyAll_of_keeps {edits : List Edit} {b : Bytes} (h : ∀ edit ∈ edits, edit.Keeps b) :
    applyAll edits b = b := by
  induction edits with
  | nil => rfl
  | cons edit edits ih =>
    have hfirst := h edit List.mem_cons_self
    have hsame : edit.apply b = b := by
      cases edit with
      | overwrite offset data => exact overwrite_of_slice? hfirst
      | padTo size => exact hfirst.elim
      | append data => exact hfirst.elim
    rw [applyAll_cons, hsame, ih fun e he => h e (List.mem_cons_of_mem _ he)]

/-- One edit leaves two buffers of one size alike, if they were alike where it does not write. -/
private theorem getElem?_apply_congr {b c : Bytes} {edit : Edit} (hsize : b.size = c.size)
    (hfits : edit.Fits b.size) {i : Nat}
    (h : ¬ edit.Touches i → i < b.size → b.data[i]? = c.data[i]?) :
    (edit.apply b).data[i]? = (edit.apply c).data[i]? := by
  cases edit with
  | overwrite offset data =>
    have hfits' : offset + data.size ≤ c.size := hsize ▸ hfits
    simp only [apply]
    rw [getElem?_overwrite b hfits, getElem?_overwrite c hfits']
    split
    · rfl
    · next houtside =>
      by_cases hi : i < b.size
      · exact h houtside hi
      · rw [Array.getElem?_eq_none (by rw [size_data]; omega),
          Array.getElem?_eq_none (by rw [size_data]; omega)]
  | padTo size =>
    simp only [apply, Bytes.padTo, hsize, ByteArray.data_append, Array.getElem?_append, size_data]
    split
    · next hi => exact h not_false (hsize ▸ hi)
    · rfl
  | append data =>
    simp only [apply, hsize, ByteArray.data_append, Array.getElem?_append, size_data]
    split
    · next hi => exact h not_false (hsize ▸ hi)
    · rfl

/-- A byte is the same after one patch of two buffers of one size, if it was the same or is written.
The induction is on the edits; a byte that differs before the first of them is written by it or by a
later one. -/
theorem getElem?_applyAll_congr {edits : List Edit} {b c : Bytes} (hsize : b.size = c.size)
    (hfits : AllFit b.size edits) {i : Nat}
    (h : i < b.size → (∀ edit ∈ edits, ¬ edit.Touches i) → b.data[i]? = c.data[i]?) :
    (applyAll edits b).data[i]? = (applyAll edits c).data[i]? := by
  induction edits generalizing b c with
  | nil =>
    by_cases hi : i < b.size
    · exact h hi (by simp)
    · rw [applyAll_nil, applyAll_nil, Array.getElem?_eq_none (by rw [size_data]; omega),
        Array.getElem?_eq_none (by rw [size_data]; omega)]
  | cons edit edits ih =>
    obtain ⟨hfirst, hrest⟩ := hfits
    rw [applyAll_cons, applyAll_cons]
    apply ih
    · rw [size_apply, size_apply, hsize]
    · rw [size_apply]
      exact hrest
    · intro _ huntouched
      refine getElem?_apply_congr hsize hfirst fun hfree hi => h hi ?_
      exact List.forall_mem_cons.mpr ⟨hfree, huntouched⟩

/-- **What was there before does not matter** where a patch writes: two buffers of one size are
alike after it, if they were alike where it does not write. -/
theorem applyAll_congr {edits : List Edit} {b c : Bytes} (hsize : b.size = c.size)
    (hfits : AllFit b.size edits)
    (h : ∀ i, i < b.size → (∀ edit ∈ edits, ¬ edit.Touches i) → b.data[i]? = c.data[i]?) :
    applyAll edits b = applyAll edits c := by
  apply ByteArray.ext
  apply Array.ext_getElem?
  intro i
  exact getElem?_applyAll_congr hsize hfits (h i)

/-- **A slice that an edit writes over**, and no later edit touches, is what was written. -/
theorem slice?_applyAll_of_overwrite {edits after : List Edit} {b data : Bytes}
    {offset length : Nat}
    (before : List Edit) (hsplit : edits = before ++ .overwrite offset data :: after)
    (hlength : data.size = length) (fits : offset + length ≤ b.size)
    (untouched : ∀ i, offset ≤ i → i < offset + length → ∀ edit ∈ after, ¬ edit.Touches i) :
    (applyAll edits b).slice? offset length = some data := by
  -- The edits in front of the write only matter by the size that they leave.
  subst hsplit hlength
  have hfits : offset + data.size ≤ (applyAll before b).size :=
    Nat.le_trans fits (le_size_applyAll before b)
  rw [applyAll_append, applyAll_cons, slice?_applyAll (by rw [size_apply]; exact hfits) untouched]
  exact slice?_overwrite_self hfits

end Rebase.Edit
