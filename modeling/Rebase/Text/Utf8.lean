import Rebase.Bytes.Basic

/-!
# Decoding of text that may be damaged

The name of a section in a PE image is any eight bytes. `lossy` makes text of them whatever they
are: characters that are encoded well are kept, and each longest run of bytes that could still have
become a character, but did not, becomes one `U+FFFD`. What counts as a start of a character is the
well-formed byte sequences table of the Unicode standard.

The main statements are that nothing is lost of a text that was encoded well (`lossy_toUTF8`), and
that a decoding in which no replacement appears stands for exactly the bytes that were decoded
(`toUTF8_lossy`).
-/

namespace Rebase.Text

/-- The character that stands for bytes that encode none. -/
def replacement : Char := Char.ofNat 0xFFFD

/-- The range that the second byte of a character has to lie in, from its first byte. Only a first
byte of a character of three or four bytes has one: no other start can reach past its first byte
without being complete. -/
def secondByteRange (first : UInt8) : Option (UInt8 × UInt8) :=
  if first = 0xE0 then some (0xA0, 0xBF)
  else if first = 0xED then some (0x80, 0x9F)
  else if 0xE1 ≤ first ∧ first ≤ 0xEF then some (0x80, 0xBF)
  else if first = 0xF0 then some (0x90, 0xBF)
  else if 0xF1 ≤ first ∧ first ≤ 0xF3 then some (0x80, 0xBF)
  else if first = 0xF4 then some (0x80, 0x8F)
  else none

/-- Whether the byte at `i` exists and lies between two bounds, both included. -/
def byteWithin (b : Bytes) (i : Nat) (low high : UInt8) : Bool :=
  if h : i < b.size then low ≤ b[i] && b[i] ≤ high else false

/-- The length of the longest start of a character at `i`, where no whole character stands. It is at
least one, so that decoding goes on behind a byte that starts nothing. -/
def brokenLength (b : Bytes) (i : Nat) : Nat :=
  if h : i < b.size then
    match secondByteRange b[i] with
    | none => 1
    | some (low, high) =>
      if byteWithin b (i + 1) low high then
        if 0xF0 ≤ b[i] ∧ byteWithin b (i + 2) 0x80 0xBF then 3 else 2
      else 1
  else 1

private theorem brokenLength_pos (b : Bytes) (i : Nat) : 0 < brokenLength b i := by
  unfold brokenLength
  split
  · split
    · exact Nat.one_pos
    · split
      · split <;> omega
      · exact Nat.one_pos
  · exact Nat.one_pos

/-- The characters of a buffer from `i` on, with a replacement for each broken part. -/
def lossyFrom (b : Bytes) (i : Nat) : List Char :=
  if i < b.size then
    match b.utf8DecodeChar? i with
    | some c => c :: lossyFrom b (i + c.utf8Size)
    | none => replacement :: lossyFrom b (i + brokenLength b i)
  else []
termination_by b.size - i
decreasing_by
  · have := c.utf8Size_pos
    omega
  · have := brokenLength_pos b i
    omega

/-- A buffer as text, with one `U+FFFD` for each longest part that could have become a character. -/
def lossy (b : Bytes) : String := String.ofList (lossyFrom b 0)

/-! ## What is kept -/

private theorem extract_tail {b : Bytes} {i : Nat} {c : Char} {rest : Bytes}
    (h : b.extract i b.size = [c].utf8Encode ++ rest) :
    b.extract (i + c.utf8Size) b.size = rest := by
  have hsize : [c].utf8Encode.size = c.utf8Size := by
    rw [List.utf8Encode_singleton, List.size_toByteArray, String.length_utf8EncodeChar]
  have htotal := congrArg ByteArray.size h
  rw [ByteArray.size_extract, ByteArray.size_append, hsize] at htotal
  have e : b.extract (i + c.utf8Size) b.size =
      (b.extract i b.size).extract c.utf8Size (c.utf8Size + rest.size) := by
    rw [ByteArray.extract_extract]
    congr 1
    omega
  rw [e, h]
  exact ByteArray.extract_append_eq_right hsize.symm (by rw [hsize])

/-- Where text was encoded well, decoding gives that text. -/
private theorem lossyFrom_eq {b : Bytes} {cs : List Char} {i : Nat}
    (h : b.extract i b.size = cs.utf8Encode) : lossyFrom b i = cs := by
  induction cs generalizing i with
  | nil =>
    have hi : b.size ≤ i := by
      have := congrArg ByteArray.size h
      simp [ByteArray.size_extract] at this
      omega
    rw [lossyFrom, if_neg (by omega)]
  | cons c cs ih =>
    rw [List.utf8Encode_cons] at h
    have hdecode : b.utf8DecodeChar? i = some c := by
      rw [ByteArray.utf8DecodeChar?_eq_utf8DecodeChar?_extract, h]
      exact List.utf8DecodeChar?_utf8Encode_singleton_append
    have hi : i < b.size := ByteArray.lt_size_of_isSome_utf8DecodeChar? (by simp [hdecode])
    rw [lossyFrom, if_pos hi]
    simp only [hdecode]
    rw [ih (extract_tail h)]

/-- Where no replacement appears, the decoding stands for the bytes from `i` on. -/
private theorem utf8Encode_lossyFrom {b : Bytes} {i : Nat} (h : replacement ∉ lossyFrom b i) :
    (lossyFrom b i).utf8Encode = b.extract i b.size := by
  fun_induction lossyFrom b i with
  | case1 i hi c hc ih =>
    have hrest : replacement ∉ lossyFrom b (i + c.utf8Size) :=
      fun hmem => h (List.mem_cons_of_mem _ hmem)
    rw [ByteArray.utf8DecodeChar?_eq_utf8DecodeChar?_extract] at hc
    have hsplit := ByteArray.eq_of_utf8DecodeChar?_eq_some hc
    rw [← List.utf8Encode_singleton] at hsplit
    rw [List.utf8Encode_cons, ih hrest, extract_tail hsplit, ← hsplit]
  | case2 i hi hc ih => exact absurd List.mem_cons_self h
  | case3 i hi =>
    rw [List.utf8Encode_nil, ByteArray.extract_eq_empty_iff.2]
    omega

/-- **Nothing is lost** of a text that was encoded well. -/
theorem lossy_toUTF8 (s : String) : lossy s.toUTF8 = s := by
  have h : s.toUTF8.extract 0 s.toUTF8.size = s.toList.utf8Encode := by
    rw [ByteArray.extract_zero_size, String.utf8Encode_toList]
    rfl
  rw [lossy, lossyFrom_eq h, String.ofList_toList]

/-- **A decoding without a replacement** stands for exactly the bytes that were decoded. -/
theorem toUTF8_lossy {b : Bytes} (h : replacement ∉ (lossy b).toList) : (lossy b).toUTF8 = b := by
  rw [lossy, String.toList_ofList] at h
  have e := utf8Encode_lossyFrom h
  rw [ByteArray.extract_zero_size] at e
  show (lossy b).toByteArray = b
  rw [lossy, String.toByteArray_ofList, e]

end Rebase.Text
