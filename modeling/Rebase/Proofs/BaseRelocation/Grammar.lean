import Mathlib.Data.List.Basic
import Mathlib.Data.List.Forall2
import Rebase.Proofs.BaseRelocation.RoundTrip

/-!
# The grammar of base relocation tables

A table is a run of blocks, and each block says itself where it ends. `RawBlock` is a block as it
stands in a table: a page, a size that is even and no less than the two fields, and as many further
bytes as the size says. The bytes of a table are those of some raw blocks, one behind the other, and
they can be cut into raw blocks in one way only.

- **Entries**: any 16 bits are an entry, of one of sixteen kinds (`Entry.encodable_decode`)
- **Blocks**: `Block.Refused`, what bytes look like that no block starts with
- **Tables**: `Table.ofBytes_grammar`, what is read, what it is read as, and what is refused
-/

namespace Rebase.BaseRelocation

/-! ## §1 Entries -/

namespace Entry

/-- **Any 16 bits are an entry**: its offset is in the page, and its kind is one of sixteen. -/
theorem encodable_decode (raw : UInt16) : (decode raw).Encodable where
  offset := by
    simp only [decode, UInt16.toNat_mod, UInt16.toNat_ofNat, Nat.reducePow, Nat.reduceMod, pageSize]
    exact Nat.mod_lt _ (by decide)
  kind := by
    have hlt : raw.toNat < 65536 := raw.toNat_lt
    simp only [decode, EntryKind.bits_ofBits, UInt16.toNat_div, UInt16.toNat_ofNat, Nat.reducePow,
      Nat.reduceMod]
    omega
  named := by rw [decode, EntryKind.bits_ofBits]

/-- The bits of an entry are those of its kind, shifted to the top, and those of its offset. -/
private theorem encode_eq_or {e : Entry} (h : e.Encodable) :
    e.encode = e.kind.bits <<< 12 ||| e.offset := by
  have hkind := h.kind
  have hoffset : e.offset.toNat < 2 ^ 12 := h.offset
  apply UInt16.toNat.inj
  -- The kind leaves the low twelve bits free, and the offset has no others.
  have hshift : e.kind.bits.toNat <<< 12 % 2 ^ 16 = e.kind.bits.toNat <<< 12 := by
    rw [Nat.shiftLeft_eq]
    omega
  have hor := Nat.shiftLeft_add_eq_or_of_lt hoffset e.kind.bits.toNat
  rw [toNat_encode h, UInt16.toNat_or, UInt16.toNat_shiftLeft, UInt16.toNat_ofNat]
  simp only [Nat.reducePow, Nat.reduceMod] at hshift ⊢
  rw [hshift, ← hor, Nat.shiftLeft_eq, pageSize]

private theorem encodable_ofBytes (bytes : List UInt8) : ∀ e ∈ ofBytes bytes, e.Encodable := by
  fun_induction ofBytes bytes with
  | case1 low high rest ih =>
    intro e he
    rcases List.mem_cons.mp he with rfl | hrest
    · exact encodable_decode _
    · exact ih e hrest
  | case2 bytes h => simp

end Entry

/-! ## §2 Blocks -/

/-- The two fields in front of the entries of a block. -/
def Block.fields (page size : UInt32) : List UInt8 :=
  LittleEndian.encode 4 page.toNat ++ LittleEndian.encode 4 size.toNat

/-- A block as it stands in a table. -/
structure RawBlock where
  page : UInt32
  /-- The size that is stored. -/
  size : UInt32
  /-- What follows the two fields. -/
  body : List UInt8
  least : Block.headerSize ≤ size.toNat
  even : size.toNat % 2 = 0
  length_body : body.length = size.toNat - Block.headerSize

namespace RawBlock

/-- The bytes of a raw block. -/
def bytes (raw : RawBlock) : List UInt8 := Block.fields raw.page raw.size ++ raw.body

/-- The block that a raw block is read as. -/
def toBlock (raw : RawBlock) : Block := ⟨raw.page, Entry.ofBytes raw.body⟩

/-- The size that is stored is the size of the block. -/
private theorem size_toBlock (raw : RawBlock) : raw.toBlock.size = raw.size.toNat := by
  have hleast := raw.least
  have heven := raw.even
  have hlength := raw.length_body
  simp only [toBlock, Block.size, Entry.length_ofBytes, Block.headerSize] at hleast hlength ⊢
  omega

private theorem length_bytes (raw : RawBlock) : raw.bytes.length = raw.size.toNat := by
  have hleast := raw.least
  have hlength := raw.length_body
  simp only [bytes, Block.fields, List.length_append, LittleEndian.length_encode, Block.headerSize]
    at hleast hlength ⊢
  omega

theorem encodable_toBlock (raw : RawBlock) : raw.toBlock.Encodable where
  entries := Entry.encodable_ofBytes raw.body
  size := by
    rw [size_toBlock]
    exact raw.size.toNat_lt

/-- The entries of the block are the words of the body. -/
private theorem flatMap_encode_toBlock (raw : RawBlock) :
    (raw.toBlock.entries.flatMap fun e => LittleEndian.encode 2 e.encode.toNat) = raw.body := by
  apply Entry.flatMap_encode_ofBytes
  have hleast := raw.least
  have heven := raw.even
  have hlength := raw.length_body
  simp only [Block.headerSize] at hleast hlength
  omega

/-- **A raw block is written back** as it stood in the table. -/
theorem encode_toBlock (raw : RawBlock) : raw.toBlock.encode = raw.bytes := by
  rw [Block.encode, size_toBlock, flatMap_encode_toBlock]
  rfl

/-- Raw blocks that are read as the same block are the same. -/
theorem toBlock_injective {raw raw' : RawBlock} (h : raw.toBlock = raw'.toBlock) : raw = raw' := by
  have hpage : raw.page = raw'.page := congrArg Block.page h
  have hsize : raw.size = raw'.size := by
    apply UInt32.toNat.inj
    rw [← size_toBlock, ← size_toBlock, h]
  have hbody : raw.body = raw'.body := by
    rw [← flatMap_encode_toBlock, ← flatMap_encode_toBlock, h]
  cases raw
  cases raw'
  simp only at hpage hsize hbody
  subst hpage hsize hbody
  rfl

/-- A raw block stores a block: its page, its size, and its entries, one word for each. -/
structure Stores (raw : RawBlock) (b : Block) : Prop where
  page : b.page = raw.page
  size : b.size = raw.size.toNat
  entries : ∀ e ∈ b.entries, e.Encodable
  /-- The kind of an entry is in the four high bits of its word, the offset in the others. -/
  words : (b.entries.flatMap fun e : Entry =>
    LittleEndian.encode 2 (e.kind.bits <<< 12 ||| e.offset).toNat) = raw.body

private theorem stores_toBlock (raw : RawBlock) : raw.Stores raw.toBlock where
  page := rfl
  size := raw.size_toBlock
  entries := raw.encodable_toBlock.entries
  words := by
    rw [← raw.flatMap_encode_toBlock]
    exact List.flatMap_congr fun e he => by
      rw [Entry.encode_eq_or (raw.encodable_toBlock.entries e he)]

end RawBlock

namespace Block

/-- Bytes that no block starts with, at an offset of a table, and what is reported of them. -/
inductive Refused (offset : Nat) : List UInt8 → RelocationFault → Prop where
  /-- They are too few for the two fields. -/
  | short {bytes : List UInt8} (h : bytes.length < headerSize) :
      Refused offset bytes (.truncatedBlockHeader offset)
  /-- The size that is stored is odd, or less than that of the two fields. -/
  | badSize {page size : UInt32} {more : List UInt8}
      (h : size.toNat < headerSize ∨ size.toNat % 2 = 1) :
      Refused offset (fields page size ++ more) (.badBlockSize size.toNat offset)
  /-- The size that is stored goes past the end. -/
  | outside {page size : UInt32} {more : List UInt8}
      (hvalid : headerSize ≤ size.toNat ∧ size.toNat % 2 = 0)
      (h : headerSize + more.length < size.toNat) :
      Refused offset (fields page size ++ more) (.blockOutsideTable offset)

/-- Bytes that are enough for two fields start with two fields. -/
theorem exists_fields_append {bytes : List UInt8} (h : headerSize ≤ bytes.length) :
    ∃ page size more, bytes = fields page size ++ more := by
  rw [headerSize] at h
  have hfirst : (bytes.take 4).length = 4 := by
    rw [List.length_take]
    omega
  have hsecond : ((bytes.drop 4).take 4).length = 4 := by
    rw [List.length_take, List.length_drop]
    omega
  refine ⟨UInt32.ofNat (LittleEndian.decode (bytes.take 4)),
    UInt32.ofNat (LittleEndian.decode ((bytes.drop 4).take 4)), (bytes.drop 4).drop 4, ?_⟩
  -- Any four bytes are those of a word.
  have hword : ∀ four : List UInt8, four.length = 4 →
      LittleEndian.encode 4 (UInt32.ofNat (LittleEndian.decode four)).toNat = four :=
    fun _ h => Word.encode_toNat_ofNat_decode UInt32 h
  rw [fields, hword _ hfirst, hword _ hsecond, List.append_assoc, List.take_append_drop,
    List.take_append_drop]

/-- What is read where two fields stand depends on the size in the second. -/
private theorem ofBytes_fields_append (offset : Nat) (page size : UInt32) (more : List UInt8) :
    ofBytes offset (fields page size ++ more) =
      if size.toNat < headerSize ∨ size.toNat % 2 = 1 then
        .error (.badBlockSize size.toNat offset)
      else
        (split? (size.toNat - headerSize) more).elim (.error (.blockOutsideTable offset))
          fun (body, rest) => .ok (⟨page, Entry.ofBytes body⟩, rest) := by
  have hword : ∀ value : UInt32,
      LittleEndian.decode (LittleEndian.encode 4 value.toNat) = value.toNat := by
    intro value
    have hlt : value.toNat < LittleEndian.capacity 4 := value.toNat_lt
    rw [LittleEndian.decode_encode, Nat.mod_eq_of_lt hlt]
  have hfirst : split? 4 (fields page size ++ more) = some (LittleEndian.encode 4 page.toNat,
      LittleEndian.encode 4 size.toNat ++ more) :=
    split?_eq_some_iff.mpr ⟨List.append_assoc _ _ _, LittleEndian.length_encode 4 _⟩
  have hsecond : split? 4 (LittleEndian.encode 4 size.toNat ++ more) =
      some (LittleEndian.encode 4 size.toNat, more) :=
    split?_eq_some_iff.mpr ⟨rfl, LittleEndian.length_encode 4 _⟩
  rw [ofBytes, hfirst]
  simp only [hsecond, hword, UInt32.ofNat_toNat]
  cases split? (size.toNat - headerSize) more <;> rfl

/-- Bytes that are too few for two fields are refused. -/
private theorem ofBytes_of_length_lt {bytes : List UInt8} (offset : Nat)
    (h : bytes.length < headerSize) :
    ofBytes offset bytes = .error (.truncatedBlockHeader offset) := by
  unfold ofBytes
  split
  · rfl
  · next page rest hpage =>
    split
    · rfl
    · next size more hsize =>
      -- Both fields were found, so there are at least eight bytes.
      obtain ⟨rfl, hfirst⟩ := split?_eq_some_iff.mp hpage
      obtain ⟨rfl, hsecond⟩ := split?_eq_some_iff.mp hsize
      rw [List.length_append, List.length_append, headerSize] at h
      omega

/-- **A block is read** exactly where a raw block stands. -/
theorem ofBytes_eq_ok_iff {offset : Nat} {bytes rest : List UInt8} {b : Block} :
    ofBytes offset bytes = .ok (b, rest) ↔
      ∃ raw : RawBlock, raw.toBlock = b ∧ bytes = raw.bytes ++ rest := by
  constructor
  · intro h
    rcases Nat.lt_or_ge bytes.length headerSize with hshort | hlong
    · rw [ofBytes_of_length_lt offset hshort] at h
      cases h
    obtain ⟨page, size, more, rfl⟩ := exists_fields_append hlong
    rw [ofBytes_fields_append] at h
    split at h
    · cases h
    · next hvalid =>
      cases hbody : split? (size.toNat - headerSize) more with
      | none =>
        rw [hbody] at h
        cases h
      | some parts =>
        obtain ⟨body, last⟩ := parts
        rw [hbody] at h
        cases h
        obtain ⟨rfl, hlength⟩ := split?_eq_some_iff.mp hbody
        exact ⟨⟨page, size, body, by omega, by omega, hlength⟩, rfl, (List.append_assoc _ _ _).symm⟩
  · rintro ⟨raw, rfl, rfl⟩
    rw [← raw.encode_toBlock]
    exact ofBytes_encode raw.encodable_toBlock offset rest

/-- **Bytes are refused** exactly when no block starts with them. -/
theorem ofBytes_eq_error_iff {offset : Nat} {bytes : List UInt8} {fault : RelocationFault} :
    ofBytes offset bytes = .error fault ↔ Refused offset bytes fault := by
  constructor
  · intro h
    -- With both fields there, only the size can be wrong, or more than what is left.
    rcases Nat.lt_or_ge bytes.length headerSize with hshort | hlong
    · rw [ofBytes_of_length_lt offset hshort] at h
      cases h
      exact .short hshort
    obtain ⟨page, size, more, rfl⟩ := exists_fields_append hlong
    rw [ofBytes_fields_append] at h
    split at h
    · next hbad =>
      cases h
      exact .badSize hbad
    · next hvalid =>
      cases hbody : split? (size.toNat - headerSize) more with
      | none =>
        rw [hbody] at h
        cases h
        have hfew := split?_eq_none_iff.mp hbody
        exact .outside (by omega) (by omega)
      | some parts =>
        rw [hbody] at h
        cases h
  · intro h
    cases h with
    | short hshort => exact ofBytes_of_length_lt offset hshort
    | badSize hbad => rw [ofBytes_fields_append, if_pos hbad]
    | @outside page size more hvalid hfew =>
      have hnone : split? (size.toNat - headerSize) more = none :=
        split?_eq_none_iff.mpr (by omega)
      rw [ofBytes_fields_append, if_neg (by omega), hnone, Option.elim_none]

end Block

/-! ## §3 Tables -/

namespace Table

private theorem blocksOfBytes_nil (offset : Nat) : blocksOfBytes offset [] = .ok [] := by
  rw [blocksOfBytes]
  rfl

/-- Where no block starts, reading stops. -/
private theorem blocksOfBytes_of_refused {offset : Nat} {bytes : List UInt8}
    {fault : RelocationFault} (hne : bytes ≠ []) (h : Block.Refused offset bytes fault) :
    blocksOfBytes offset bytes = .error fault := by
  have hnonempty : bytes.isEmpty = false := List.isEmpty_eq_false_iff.mpr hne
  have hfirst := Block.ofBytes_eq_error_iff.mpr h
  rw [blocksOfBytes, hnonempty]
  split
  · contradiction
  · split
    · next fault' hfault =>
      rw [hfirst] at hfault
      cases hfault
      rfl
    · next b rest hread =>
      rw [hfirst] at hread
      cases hread

/-- Raw blocks are read one after the other, whatever follows them. -/
private theorem blocksOfBytes_flatMap_append (raws : List RawBlock) (offset : Nat)
    (rest : List UInt8) :
    blocksOfBytes offset (raws.flatMap RawBlock.bytes ++ rest) =
      (blocksOfBytes (offset + (raws.flatMap RawBlock.bytes).length) rest).map
        (raws.map RawBlock.toBlock ++ ·) := by
  induction raws generalizing offset with
  | nil =>
    simp only [List.flatMap_nil, List.nil_append, List.length_nil, Nat.add_zero, List.map_nil]
    cases blocksOfBytes offset rest <;> rfl
  | cons raw raws ih =>
    rw [List.flatMap_cons, List.append_assoc, ← raw.encode_toBlock,
      blocksOfBytes_encode_append raw.encodable_toBlock, ih, List.length_append,
      Block.length_encode, Nat.add_assoc]
    cases blocksOfBytes _ rest <;> rfl

private theorem ofBytes_of_rawBlocks {bytes : Bytes} {raws : List RawBlock}
    (h : raws.flatMap RawBlock.bytes = bytes.data.toList) :
    ofBytes bytes = .ok ⟨raws.map RawBlock.toBlock⟩ := by
  have hall := blocksOfBytes_flatMap_append raws 0 []
  rw [List.append_nil, blocksOfBytes_nil, h] at hall
  rw [ofBytes, hall]
  simp only [Except.map, List.append_nil]

private theorem ofBytes_of_refused {bytes : Bytes} {raws : List RawBlock} {rest : List UInt8}
    {fault : RelocationFault} (h : bytes.data.toList = raws.flatMap RawBlock.bytes ++ rest)
    (hne : rest ≠ []) (hrefused : Block.Refused (raws.flatMap RawBlock.bytes).length rest fault) :
    ofBytes bytes = .error fault := by
  rw [← Nat.zero_add (raws.flatMap RawBlock.bytes).length] at hrefused
  rw [ofBytes, h, blocksOfBytes_flatMap_append, blocksOfBytes_of_refused hne hrefused]
  rfl

/-- **Any bytes start with raw blocks** behind which nothing is left, or something that no block
starts with. The induction follows the reader from block to block. -/
theorem exists_rawBlocks (offset : Nat) (bytes : List UInt8) :
    ∃ (raws : List RawBlock) (rest : List UInt8), bytes = raws.flatMap RawBlock.bytes ++ rest ∧
      (rest ≠ [] → ∃ fault,
        Block.Refused (offset + (raws.flatMap RawBlock.bytes).length) rest fault) := by
  fun_induction blocksOfBytes offset bytes with
  | case1 offset bytes hempty =>
    exact ⟨[], [], List.isEmpty_iff.mp hempty, absurd rfl⟩
  | case2 offset bytes hempty fault hfault =>
    exact ⟨[], bytes, rfl, fun _ => ⟨fault, Block.ofBytes_eq_error_iff.mp hfault⟩⟩
  | case3 offset bytes hempty b rest hb hlt ih =>
    obtain ⟨raw, rfl, rfl⟩ := Block.ofBytes_eq_ok_iff.mp hb
    obtain ⟨raws, last, rfl, hlast⟩ := ih
    rw [raw.size_toBlock] at hlast
    refine ⟨raw :: raws, last, by rw [List.flatMap_cons, List.append_assoc], ?_⟩
    rw [List.flatMap_cons, List.length_append, RawBlock.length_bytes, ← Nat.add_assoc]
    exact hlast

/-- **A table is read** exactly from raw blocks, one behind the other. -/
theorem ofBytes_eq_ok_iff {bytes : Bytes} {t : Table} :
    ofBytes bytes = .ok t ↔ ∃ raws : List RawBlock,
      raws.map RawBlock.toBlock = t.blocks ∧ raws.flatMap RawBlock.bytes = bytes.data.toList := by
  constructor
  · intro h
    obtain ⟨raws, rest, hbytes, hrest⟩ := exists_rawBlocks 0 bytes.data.toList
    rw [Nat.zero_add] at hrest
    by_cases hne : rest = []
    · rw [hne, List.append_nil] at hbytes
      rw [ofBytes_of_rawBlocks hbytes.symm] at h
      cases h
      exact ⟨raws, rfl, hbytes.symm⟩
    · obtain ⟨fault, hfault⟩ := hrest hne
      rw [ofBytes_of_refused hbytes hne hfault] at h
      cases h
  · rintro ⟨raws, hblocks, hbytes⟩
    rw [ofBytes_of_rawBlocks hbytes, hblocks]

/-- **A table is refused** exactly when something that no block starts with is left behind some
blocks, and the offset that is reported is where these end. -/
theorem ofBytes_eq_error_iff {bytes : Bytes} {fault : RelocationFault} :
    ofBytes bytes = .error fault ↔ ∃ (raws : List RawBlock) (rest : List UInt8),
      bytes.data.toList = raws.flatMap RawBlock.bytes ++ rest ∧ rest ≠ [] ∧
        Block.Refused (raws.flatMap RawBlock.bytes).length rest fault := by
  constructor
  · intro h
    obtain ⟨raws, rest, hbytes, hrest⟩ := exists_rawBlocks 0 bytes.data.toList
    rw [Nat.zero_add] at hrest
    by_cases hne : rest = []
    · rw [hne, List.append_nil] at hbytes
      rw [ofBytes_of_rawBlocks hbytes.symm] at h
      cases h
    · obtain ⟨fault', hfault⟩ := hrest hne
      rw [ofBytes_of_refused hbytes hne hfault] at h
      cases h
      exact ⟨raws, rest, hbytes, hne, hfault⟩
  · rintro ⟨raws, rest, hbytes, hne, hfault⟩
    exact ofBytes_of_refused hbytes hne hfault

/-- Bytes can be cut into raw blocks in one way only, as they are read in one way only. -/
theorem rawBlocks_unique {raws raws' : List RawBlock}
    (h : raws.flatMap RawBlock.bytes = raws'.flatMap RawBlock.bytes) : raws = raws' := by
  have hbytes : (raws'.flatMap RawBlock.bytes).toByteArray.data.toList =
      raws'.flatMap RawBlock.bytes := List.toList_data_toByteArray
  have hread := ofBytes_of_rawBlocks (h.trans hbytes.symm)
  rw [ofBytes_of_rawBlocks hbytes.symm] at hread
  injection hread with hsame
  exact (List.map_injective_iff.mpr fun _ _ => RawBlock.toBlock_injective) (Table.mk.inj hsame).symm

/-- **The grammar of tables.** Bytes are read as a table exactly when they are raw blocks, one
behind the other; these raw blocks are the only ones, and the blocks of the table are what they
store. A table that was read has the bytes that it was read from. All other bytes are refused, with
a fault that names the place where the blocks end and what is wrong there. -/
theorem ofBytes_grammar (bytes : Bytes) :
    ((∃ t, ofBytes bytes = .ok t) ↔
      ∃ raws : List RawBlock, raws.flatMap RawBlock.bytes = bytes.data.toList) ∧
    (∀ raws raws' : List RawBlock, raws.flatMap RawBlock.bytes = bytes.data.toList →
      raws'.flatMap RawBlock.bytes = bytes.data.toList → raws = raws') ∧
    (∀ t raws, ofBytes bytes = .ok t → raws.flatMap RawBlock.bytes = bytes.data.toList →
      List.Forall₂ RawBlock.Stores raws t.blocks) ∧
    (∀ t, ofBytes bytes = .ok t → t.bytes = bytes) ∧
    ∀ fault, ofBytes bytes = .error fault ↔ ∃ (raws : List RawBlock) (rest : List UInt8),
      bytes.data.toList = raws.flatMap RawBlock.bytes ++ rest ∧ rest ≠ [] ∧
        Block.Refused (raws.flatMap RawBlock.bytes).length rest fault := by
  refine ⟨⟨?_, ?_⟩, ?_, ?_, fun t => bytes_of_ofBytes, fun fault => ofBytes_eq_error_iff⟩
  · rintro ⟨t, ht⟩
    obtain ⟨raws, _, hbytes⟩ := ofBytes_eq_ok_iff.mp ht
    exact ⟨raws, hbytes⟩
  · rintro ⟨raws, hbytes⟩
    exact ⟨_, ofBytes_of_rawBlocks hbytes⟩
  · intro raws raws' h h'
    exact rawBlocks_unique (h.trans h'.symm)
  · intro t raws ht hbytes
    rw [ofBytes_of_rawBlocks hbytes] at ht
    cases ht
    exact List.forall₂_map_right_iff.mpr
      (List.forall₂_same.mpr fun raw _ => raw.stores_toBlock)

end Table

end Rebase.BaseRelocation
