import Rebase.BaseRelocation.Decode

/-!
# Reading back a base relocation table

A table that was read has the bytes that it was read from. Here is the other direction: the bytes of
a table are read as that table. This needs every entry to fit its 16 bits and every block to fit the
32 bits of its size, which is what `Block.Encodable` says.

- **Entries**: `Entry.ofBytes_flatMap_encode`
- **Blocks**: `Block.ofBytes_encode`, whatever bytes follow the block
- **Tables**: `Table.ofBytes_bytes`
-/

namespace Rebase.BaseRelocation

/-! ## §1 Entries -/

namespace Entry

/-- The bits of an entry keep its offset and its kind. -/
structure Encodable (e : Entry) : Prop where
  offset : e.offset.toNat < pageSize
  kind : e.kind.bits.toNat < 16
  named : EntryKind.ofBits e.kind.bits = e.kind

theorem toNat_encode {e : Entry} (h : e.Encodable) :
    e.encode.toNat = e.kind.bits.toNat * pageSize + e.offset.toNat := by
  have hoffset := h.offset
  have hkind := h.kind
  simp only [pageSize] at hoffset ⊢
  simp only [encode, UInt16.toNat_add, UInt16.toNat_mul, UInt16.toNat_mod, UInt16.toNat_ofNat,
    Nat.reducePow, Nat.reduceMod]
  omega

/-- **An entry is read back** from its bits. -/
theorem decode_encode {e : Entry} (h : e.Encodable) : decode e.encode = e := by
  have hoffset := h.offset
  have hencode := toNat_encode h
  simp only [pageSize] at hoffset hencode
  -- The offset is the low part of the bits and the kind the high one.
  have hlow : e.encode % 4096 = e.offset := by
    apply UInt16.toNat.inj
    simp only [UInt16.toNat_mod, UInt16.toNat_ofNat, Nat.reducePow, Nat.reduceMod]
    omega
  have hhigh : e.encode / 4096 = e.kind.bits := by
    apply UInt16.toNat.inj
    simp only [UInt16.toNat_div, UInt16.toNat_ofNat, Nat.reducePow, Nat.reduceMod]
    omega
  rw [decode, hlow, hhigh, h.named]

/-- Entries are read back from their bytes, one after the other. -/
theorem ofBytes_flatMap_encode {entries : List Entry} (h : ∀ e ∈ entries, e.Encodable) :
    ofBytes (entries.flatMap fun e => LittleEndian.encode 2 e.encode.toNat) = entries := by
  induction entries with
  | nil => rfl
  | cons e rest ih =>
    -- Two bytes are taken off for the first entry, and they are those of its bits.
    have hlt : e.encode.toNat < LittleEndian.capacity 2 := e.encode.toNat_lt
    have hword := LittleEndian.decode_encode 2 e.encode.toNat
    simp only [LittleEndian.encode, Nat.mod_eq_of_lt hlt] at hword
    simp only [List.flatMap_cons, LittleEndian.encode, List.cons_append, List.nil_append, ofBytes,
      hword, UInt16.ofNat_toNat]
    rw [decode_encode (h e List.mem_cons_self)]
    exact congrArg (e :: ·) (ih fun e' he' => h e' (List.mem_cons_of_mem _ he'))

end Entry

/-! ## §2 Blocks -/

namespace Block

/-- The bytes of a block keep its entries and its size. -/
structure Encodable (b : Block) : Prop where
  entries : ∀ e ∈ b.entries, e.Encodable
  size : b.size < UInt32.size

/-- **A block is read back** from its bytes, and what follows it is left. -/
theorem ofBytes_encode {b : Block} (h : b.Encodable) (offset : Nat) (rest : List UInt8) :
    ofBytes offset (b.encode ++ rest) = .ok (b, rest) := by
  have hsize : LittleEndian.decode (LittleEndian.encode 4 b.size) = b.size := by
    rw [LittleEndian.decode_encode]
    exact Nat.mod_eq_of_lt h.size
  have hpage : UInt32.ofNat (LittleEndian.decode (LittleEndian.encode 4 b.page.toNat)) = b.page :=
    Word.ofNat_decode_encode b.page
  have hvalid : ¬ (b.size < headerSize ∨ b.size % 2 = 1) := by
    simp only [size, headerSize]
    omega
  obtain ⟨body, hbody⟩ : ∃ body, (b.entries.flatMap fun e => LittleEndian.encode 2 e.encode.toNat) =
    body := ⟨_, rfl⟩
  have hlength : body.length = b.size - headerSize := by
    have hall := length_encode b
    simp only [encode, List.length_append, LittleEndian.length_encode, hbody] at hall
    simp only [headerSize]
    omega
  -- The three parts of the block are cut off one by one.
  have hfirst : split? 4 (b.encode ++ rest) = some (LittleEndian.encode 4 b.page.toNat,
      LittleEndian.encode 4 b.size ++ (body ++ rest)) :=
    split?_eq_some_iff.mpr
      ⟨by simp only [encode, hbody, List.append_assoc], LittleEndian.length_encode 4 _⟩
  have hsecond : split? 4 (LittleEndian.encode 4 b.size ++ (body ++ rest)) =
      some (LittleEndian.encode 4 b.size, body ++ rest) :=
    split?_eq_some_iff.mpr ⟨rfl, LittleEndian.length_encode 4 _⟩
  have hthird : split? (b.size - headerSize) (body ++ rest) = some (body, rest) :=
    split?_eq_some_iff.mpr ⟨rfl, hlength⟩
  unfold ofBytes
  simp only [hfirst, hsecond, hsize, hvalid, if_false, hthird, hpage]
  rw [← hbody, Entry.ofBytes_flatMap_encode h.entries]

end Block

/-! ## §3 Tables -/

namespace Table

/-- A block is read first, and then the rest from where the block ends. -/
theorem blocksOfBytes_encode_append {b : Block} (h : b.Encodable) (offset : Nat)
    (rest : List UInt8) :
    blocksOfBytes offset (b.encode ++ rest) =
      (blocksOfBytes (offset + b.size) rest).map (b :: ·) := by
  -- A block has at least its header, so there is something to read.
  have hnonempty : (b.encode ++ rest).isEmpty = false := by
    rw [List.isEmpty_eq_false_iff, ← List.length_pos_iff, List.length_append, Block.length_encode,
      Block.size, Block.headerSize]
    omega
  have hfirst := Block.ofBytes_encode h offset rest
  rw [blocksOfBytes, hnonempty]
  split
  · contradiction
  · split
    · next fault hfault =>
      rw [hfirst] at hfault
      cases hfault
    · next b' rest' hread =>
      rw [hfirst] at hread
      cases hread
      rfl

/-- Blocks are read back from their bytes, one after the other. -/
private theorem blocksOfBytes_flatMap_encode {blocks : List Block} (h : ∀ b ∈ blocks, b.Encodable)
    (offset : Nat) : blocksOfBytes offset (blocks.flatMap Block.encode) = .ok blocks := by
  induction blocks generalizing offset with
  | nil =>
    rw [List.flatMap_nil, blocksOfBytes]
    rfl
  | cons b rest ih =>
    have hrest := ih (fun b' hb' => h b' (List.mem_cons_of_mem _ hb')) (offset + b.size)
    rw [List.flatMap_cons, blocksOfBytes_encode_append (h b List.mem_cons_self), hrest]
    rfl

/-- **A table is read back** from its bytes. -/
theorem ofBytes_bytes {t : Table} (h : ∀ b ∈ t.blocks, b.Encodable) : ofBytes t.bytes = .ok t := by
  rw [ofBytes, bytes, List.toList_data_toByteArray, blocksOfBytes_flatMap_encode h]
  rfl

end Table

end Rebase.BaseRelocation
