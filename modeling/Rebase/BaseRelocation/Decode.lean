import Rebase.BaseRelocation.Table

/-!
# Decoding of base relocation tables

A table is read block by block: the stored size of a block says where the next one starts. What is
refused is a rest too short for a block's fields, a size that is odd or smaller than these fields,
and a size that goes past the end.

The main statements are `split?_eq_some_iff`, on cutting a list in two, and
`Table.bytes_of_ofBytes`: a table that was read has exactly the bytes that it was read from.
-/

namespace Rebase.BaseRelocation

/-- The first `count` elements of a list and the rest, if there are so many. -/
def split? {α : Type} : (count : Nat) → List α → Option (List α × List α)
  | 0, rest => some ([], rest)
  | _ + 1, [] => none
  | count + 1, x :: rest => (split? count rest).map fun (first, last) => (x :: first, last)

/-- **Cutting a list in two** loses nothing and gives as many elements as were asked for. -/
theorem split?_eq_some_iff {α : Type} {count : Nat} {xs first last : List α} :
    split? count xs = some (first, last) ↔ xs = first ++ last ∧ first.length = count := by
  induction count generalizing xs first with
  | zero =>
    simp only [split?, Option.some.injEq, Prod.mk.injEq, List.length_eq_zero_iff]
    constructor
    · rintro ⟨rfl, rfl⟩
      exact ⟨rfl, rfl⟩
    · rintro ⟨rfl, rfl⟩
      exact ⟨rfl, rfl⟩
  | succ count ih =>
    cases xs with
    | nil =>
      simp only [split?, reduceCtorEq, false_iff]
      rintro ⟨h, hlen⟩
      obtain ⟨rfl, -⟩ := List.append_eq_nil_iff.1 h.symm
      simp at hlen
    | cons x xs =>
      simp only [split?, Option.map_eq_some_iff, Prod.mk.injEq, Prod.exists]
      constructor
      · rintro ⟨f, l, h, rfl, rfl⟩
        obtain ⟨rfl, rfl⟩ := ih.1 h
        exact ⟨rfl, rfl⟩
      · rintro ⟨h, hlen⟩
        cases first with
        | nil => simp at hlen
        | cons y first =>
          obtain ⟨rfl, rfl⟩ := List.cons.inj h
          exact ⟨first, last, ih.2 ⟨rfl, by simpa using hlen⟩, rfl, rfl⟩

theorem split?_eq_none_iff {α : Type} {count : Nat} {xs : List α} :
    split? count xs = none ↔ xs.length < count := by
  induction count generalizing xs with
  | zero => simp [split?]
  | succ count ih =>
    cases xs with
    | nil => simp [split?]
    | cons x xs => rw [split?, Option.map_eq_none_iff, ih, List.length_cons, Nat.succ_lt_succ_iff]

namespace Entry

/-- The entries that bytes stand for, two bytes each. -/
def ofBytes : List UInt8 → List Entry
  | low :: high :: rest => decode (UInt16.ofNat (LittleEndian.decode [low, high])) :: ofBytes rest
  | _ => []

/-- Reading entries and writing them back gives the bytes that were read, if their number is
even. -/
theorem flatMap_encode_ofBytes {bytes : List UInt8} (even : bytes.length % 2 = 0) :
    ((ofBytes bytes).flatMap fun e => LittleEndian.encode 2 e.encode.toNat) = bytes := by
  fun_induction ofBytes bytes with
  | case1 low high rest ih =>
    have hrest : rest.length % 2 = 0 := by
      simp only [List.length_cons] at even
      omega
    have hword : LittleEndian.encode 2 (UInt16.ofNat (LittleEndian.decode [low, high])).toNat =
        [low, high] := Word.encode_toNat_ofNat_decode UInt16 rfl
    rw [List.flatMap_cons, ih hrest, encode_decode, hword]
    rfl
  | case2 bytes h =>
    cases bytes with
    | nil => rfl
    | cons low rest =>
      cases rest with
      | nil => simp at even
      | cons high rest => exact absurd rfl (h low high rest)

/-- There is one entry for every two bytes. -/
theorem length_ofBytes (bytes : List UInt8) : (ofBytes bytes).length = bytes.length / 2 := by
  fun_induction ofBytes bytes with
  | case1 low high rest ih =>
    simp only [List.length_cons, ih]
    omega
  | case2 bytes h =>
    cases bytes with
    | nil => rfl
    | cons low rest =>
      cases rest with
      | nil => simp
      | cons high rest => exact absurd rfl (h low high rest)

end Entry

namespace Block

/-- The block at the start of the bytes of a table, and the bytes behind it. The offset says where
these bytes stand in the table. -/
def ofBytes (offset : Nat) (bytes : List UInt8) : Except RelocationFault (Block × List UInt8) :=
  match split? 4 bytes with
  | none => .error (.truncatedBlockHeader offset)
  | some (page, bytes) =>
    match split? 4 bytes with
    | none => .error (.truncatedBlockHeader offset)
    | some (size, bytes) =>
      let size := LittleEndian.decode size
      if size < headerSize ∨ size % 2 = 1 then
        .error (.badBlockSize size offset)
      else
        match split? (size - headerSize) bytes with
        | none => .error (.blockOutsideTable offset)
        | some (body, rest) =>
          .ok (⟨UInt32.ofNat (LittleEndian.decode page), Entry.ofBytes body⟩, rest)

/-- **A block that was read** has exactly the bytes that it was read from. -/
theorem encode_of_ofBytes {offset : Nat} {bytes rest : List UInt8} {b : Block}
    (h : ofBytes offset bytes = .ok (b, rest)) : bytes = b.encode ++ rest := by
  unfold ofBytes at h
  split at h
  · cases h
  · next page afterPage hpage =>
    split at h
    · cases h
    · next size afterSize hsize =>
      simp only at h
      split at h
      · cases h
      · next hvalid =>
        split at h
        · cases h
        · next body last hbody =>
          cases h
          -- Every cut was made at a known length, so each part can be written back by itself.
          obtain ⟨rfl, hpagelen⟩ := split?_eq_some_iff.1 hpage
          obtain ⟨rfl, hsizelen⟩ := split?_eq_some_iff.1 hsize
          obtain ⟨rfl, hbodylen⟩ := split?_eq_some_iff.1 hbody
          have heven : body.length % 2 = 0 := by
            simp only [headerSize] at hvalid hbodylen
            omega
          have hstored : (Block.mk (UInt32.ofNat (LittleEndian.decode page))
              (Entry.ofBytes body)).size = LittleEndian.decode size := by
            simp only [Block.size, Entry.length_ofBytes, headerSize] at hvalid hbodylen ⊢
            omega
          have hpageback : LittleEndian.encode 4 (UInt32.ofNat (LittleEndian.decode page)).toNat =
              page := Word.encode_toNat_ofNat_decode UInt32 hpagelen
          have hsizeback := LittleEndian.encode_decode size
          rw [hsizelen] at hsizeback
          rw [encode, hstored, Entry.flatMap_encode_ofBytes heven, hpageback, hsizeback]
          simp only [List.append_assoc]

/-- What is left behind a block is shorter. -/
theorem length_lt_of_ofBytes {offset : Nat} {bytes rest : List UInt8} {b : Block}
    (h : ofBytes offset bytes = .ok (b, rest)) : rest.length < bytes.length := by
  rw [encode_of_ofBytes h, List.length_append, length_encode, size, headerSize]
  omega

end Block

namespace Table

/-- The blocks that bytes stand for. The offset says where these bytes stand in the table. -/
def blocksOfBytes (offset : Nat) (bytes : List UInt8) : Except RelocationFault (List Block) :=
  if bytes.isEmpty then
    .ok []
  else
    match h : Block.ofBytes offset bytes with
    | .error fault => .error fault
    | .ok (b, rest) =>
      have : rest.length < bytes.length := Block.length_lt_of_ofBytes h
      (blocksOfBytes (offset + b.size) rest).map (b :: ·)
termination_by bytes.length

/-- The table that bytes stand for. -/
def ofBytes (bytes : Bytes) : Except RelocationFault Table :=
  (blocksOfBytes 0 bytes.data.toList).map Table.mk

private theorem flatMap_encode_blocksOfBytes {offset : Nat} {bytes : List UInt8}
    {blocks : List Block} (h : blocksOfBytes offset bytes = .ok blocks) :
    blocks.flatMap Block.encode = bytes := by
  fun_induction blocksOfBytes offset bytes generalizing blocks with
  | case1 offset bytes hempty =>
    cases h
    rw [List.isEmpty_iff.1 hempty]
    rfl
  | case2 offset bytes hempty fault hfault => cases h
  | case3 offset bytes hempty b rest hb hlt ih =>
    cases hrest : blocksOfBytes (offset + b.size) rest with
    | error fault =>
      rw [hrest] at h
      cases h
    | ok more =>
      rw [hrest] at h
      cases h
      rw [List.flatMap_cons, ih hrest, ← Block.encode_of_ofBytes hb]

/-- **A table that was read** has exactly the bytes that it was read from. -/
theorem bytes_of_ofBytes {bytes : Bytes} {t : Table} (h : ofBytes bytes = .ok t) :
    t.bytes = bytes := by
  unfold ofBytes at h
  cases hblocks : blocksOfBytes 0 bytes.data.toList with
  | error fault =>
    rw [hblocks] at h
    cases h
  | ok blocks =>
    rw [hblocks] at h
    cases h
    rw [Table.bytes, flatMap_encode_blocksOfBytes hblocks]
    apply ByteArray.ext
    apply Array.toList_inj.1
    exact List.toList_data_toByteArray

end Table

end Rebase.BaseRelocation
