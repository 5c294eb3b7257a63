import Rebase.Proofs.BaseRelocation.Pages
import Rebase.Proofs.Checked.Basic

/-!
# Building a table on a machine

The table of a set of addresses, built with operations that can stop the machine. Three numbers are
stored in fewer bits than they are computed with: the offset of an address in its page, the size of
a block, and the kind of an entry moved to its high bits. All of them fit because a page has 4096
addresses.

- **Addresses**: `locate_endsAs`
- **Blocks**: `encodeBlock_eq_some`
- **Tables**: `size_ofSet_le`, a table does not outgrow a buffer, and `table_endsAs`
-/

namespace Rebase.Checked

open BaseRelocation
open BaseRelocation.Table (addFront addresses entryOf fits ofSet pageOf)

/-! ## §1 Addresses -/

/-- The page of an address and its entry there. -/
def locate (address : UInt64) : Guarded RelocationFault (UInt32 × Entry) := do
  let low ← orError (narrow32 address.toNat) (.addressTooLarge address)
  let offset ← narrow16 (low.toNat % pageSize)
  pure (UInt32.ofNat (low.toNat / pageSize * pageSize), ⟨offset, .dir64⟩)

/-- Adds an entry in front of blocks: to the first of them, if that is of its page, and otherwise as
a block of its own. -/
def addEntry (page : UInt32) (e : Entry) : List Block → List Block
  | [] => [⟨page, [e]⟩]
  | b :: rest => if b.page = page then
    ⟨b.page, e :: b.entries⟩ :: rest else ⟨page, [e]⟩ :: b :: rest

private theorem addEntry_eq_addFront (a : UInt64) (blocks : List Block) :
    addEntry (pageOf a) (entryOf a) blocks = addFront a blocks := by
  cases blocks <;> rfl

/-- An address that fits has a page and an offset of 16 bits; another one is reported. -/
theorem locate_endsAs (a : UInt64) :
    EndsAs (locate a)
      (if fits a then .ok (pageOf a, entryOf a) else .error (.addressTooLarge a)) := by
  unfold locate
  by_cases hfits : fits a = true
  · have hlt : a.toNat < UInt32.size := by simpa [fits] using hfits
    have hlow : (UInt32.ofNat a.toNat).toNat = a.toNat := UInt32.toNat_ofNat_of_lt' hlt
    rw [if_pos hfits]
    refine .present (narrow32_eq_some hlt) ?_
    rw [hlow]
    refine .guard (narrow16_eq_some ?_) ?_
    · exact Nat.lt_trans (Nat.mod_lt _ (by decide)) (show pageSize < UInt16.size by decide)
    · rw [← toNat_pageOf hfits, ← toNat_offset_entryOf, UInt32.ofNat_toNat, UInt16.ofNat_toNat]
      exact .pure _
  · have hge : UInt32.size ≤ a.toNat := by simpa [fits] using hfits
    rw [if_neg hfits]
    exact .missing (if_neg (Nat.not_lt.mpr hge))

/-- Locating the addresses of a list fails as building their table does. -/
private theorem mapM_locate_endsAs (xs : List UInt64) :
    EndsAs (xs.mapM locate)
      ((Table.ofAddresses xs).map fun _ => xs.map fun a => (pageOf a, entryOf a)) := by
  have hlocate := EndsAs.mapM fun a (_ : a ∈ xs) => locate_endsAs a
  -- What is left is a statement without the machine, by induction on the list.
  suffices hsame : (xs.mapM fun a => if fits a then Except.ok (pageOf a, entryOf a) else
      Except.error (RelocationFault.addressTooLarge a)) =
      (Table.ofAddresses xs).map fun _ => xs.map fun a => (pageOf a, entryOf a) by
    rw [← hsame]
    exact hlocate
  clear hlocate
  unfold Table.ofAddresses
  induction xs with
  | nil => rfl
  | cons a rest ih =>
    rw [List.mapM_cons, List.find?_cons]
    by_cases hfits : fits a = true
    · simp only [hfits, if_true, Bool.not_true]
      rw [ih]
      cases rest.find? fun a => !fits a <;> rfl
    · simp only [hfits, Bool.not_false]
      rfl

/-! ## §2 Blocks -/

/-- The size of a block in bytes. -/
def blockSize (b : Block) : Option Nat := do
  let body ← word (2 * b.entries.length)
  word (Block.headerSize + body)

/-- A block with an entry that does nothing added where its size is no multiple of four. -/
def padded (b : Block) : Option Block := do
  let size ← blockSize b
  some (if size % 4 = 0 then b else ⟨b.page, b.entries ++ [Entry.padding]⟩)

/-- Blocks, each filled up. -/
def paddedBlocks (blocks : List Block) : Option (List Block) := blocks.mapM padded

/-- The 16 bits of an entry. -/
def entryBits (e : Entry) : Option UInt16 := do
  let high ← narrow16 (e.kind.bits.toNat * pageSize)
  some (high + e.offset % 4096)

/-- The bytes of a block. -/
def encodeBlock (b : Block) : Option (List UInt8) := do
  let size ← blockSize b
  let stored ← narrow32 size
  let entries ← b.entries.mapM entryBits
  some (LittleEndian.encode 4 b.page.toNat ++ LittleEndian.encode 4 stored.toNat ++
    entries.flatMap fun raw => LittleEndian.encode 2 raw.toNat)

/-- The bytes of blocks, added at the end of a buffer. -/
def encodeBlocks (data : Bytes) : List Block → Option Bytes
  | [] => some data
  | b :: rest => do
    let encoded ← encodeBlock b
    let grown ← extend data encoded.toByteArray
    encodeBlocks grown rest

private theorem blockSize_eq_some {b : Block} (h : b.size < UInt32.size) :
    blockSize b = some b.size := by
  simp only [Block.size, Block.headerSize, UInt32.size] at h
  rw [blockSize, word_eq_some (by simp only [UInt64.size]; omega)]
  exact word_eq_some (by simp only [Block.headerSize, UInt64.size]; omega)

private theorem padded_eq_some {b : Block} (h : b.size < UInt32.size) :
    padded b = some (Table.padded b) := by
  rw [padded, blockSize_eq_some h]
  rfl

private theorem entryBits_eq_some {e : Entry} (h : e.Encodable) : entryBits e = some e.encode := by
  have hkind := h.kind
  have hlt : e.kind.bits.toNat * pageSize < UInt16.size := by
    simp only [pageSize, UInt16.size]
    omega
  have hhigh : UInt16.ofNat (e.kind.bits.toNat * pageSize) = e.kind.bits * 4096 := by
    apply UInt16.toNat.inj
    simp [pageSize]
  rw [entryBits, narrow16_eq_some hlt, hhigh]
  rfl

/-- **No bit of a block is lost** when it can be written. -/
theorem encodeBlock_eq_some {b : Block} (h : b.Encodable) : encodeBlock b = some b.encode := by
  have hentries : b.entries.mapM entryBits = some (b.entries.map Entry.encode) :=
    mapM_eq_some fun e he => entryBits_eq_some (h.entries e he)
  have hstored : (UInt32.ofNat b.size).toNat = b.size := UInt32.toNat_ofNat_of_lt' h.size
  refine bind_eq_of_eq_some (blockSize_eq_some h.size) ?_
  refine bind_eq_of_eq_some (narrow32_eq_some h.size) ?_
  refine bind_eq_of_eq_some hentries ?_
  rw [hstored, List.flatMap_map]
  rfl

private theorem encodeBlocks_eq_some {blocks : List Block} {data : Bytes}
    (h : ∀ b ∈ blocks, b.Encodable)
    (hsize : data.size + Table.size ⟨blocks⟩ ≤ maxBufferSize) :
    encodeBlocks data blocks = some (data ++ Table.bytes ⟨blocks⟩) := by
  induction blocks generalizing data with
  | nil => simp [encodeBlocks, Table.bytes]
  | cons b rest ih =>
    have hsplit : Table.size ⟨b :: rest⟩ = b.size + Table.size ⟨rest⟩ := rfl
    have hlength : b.encode.toByteArray.size = b.size := by
      rw [List.size_toByteArray, Block.length_encode]
    refine bind_eq_of_eq_some (encodeBlock_eq_some (h b List.mem_cons_self)) ?_
    refine bind_eq_of_eq_some (extend_eq_some (by omega)) ?_
    rw [ih (fun b' hb' => h b' (List.mem_cons_of_mem _ hb'))
      (by rw [ByteArray.size_append, hlength]; omega)]
    simp only [Table.bytes, List.flatMap_cons, List.toByteArray_append, ByteArray.append_assoc]

/-! ## §3 Tables -/

/-- The table of a list of addresses, and its bytes. -/
def table (addresses : List UInt64) : Guarded RelocationFault (Table × Bytes) := do
  let located ← addresses.mapM locate
  let blocks ← paddedBlocks (located.foldr (fun place => addEntry place.1 place.2) [])
  let bytes ← encodeBlocks ByteArray.empty blocks
  pure (⟨blocks⟩, bytes)

/-- The size of a table whose blocks are filled up, from the addresses that it was built of. -/
private theorem size_padded_foldr_addFront_le (xs : List UInt64) :
    Table.size ⟨(xs.foldr addFront []).map Table.padded⟩ ≤ 12 * xs.length := by
  have hpadded : ∀ b : Block, (Table.padded b).size ≤ b.size + 2 := by
    intro b
    unfold Table.padded
    split
    · omega
    · simp only [Block.size, List.length_append, List.length_singleton]
      omega
  -- What an address adds is at most a header, an entry and one more entry to fill up.
  suffices hraw : ((xs.foldr addFront []).foldr (fun b total => b.size + 2 + total) 0) ≤
      12 * xs.length by
    refine Nat.le_trans ?_ hraw
    generalize xs.foldr addFront [] = blocks
    induction blocks with
    | nil => exact Nat.le_refl _
    | cons b rest ih =>
      have hfirst := hpadded b
      simp only [Table.size, List.map_cons, List.foldr_cons] at ih ⊢
      omega
  induction xs with
  | nil => exact Nat.zero_le _
  | cons a rest ih =>
    rw [List.foldr_cons]
    generalize rest.foldr addFront [] = blocks at ih ⊢
    cases blocks with
    | nil =>
      simp only [addFront, List.foldr_cons, List.foldr_nil, Block.size, Block.headerSize,
        List.length_cons, List.length_nil]
      omega
    | cons b more =>
      rw [addFront]
      split <;>
        simp only [List.foldr_cons, Block.size, Block.headerSize, List.length_cons,
          List.length_nil] at ih ⊢ <;>
        omega

/-- **A table does not outgrow a buffer**: there are at most as many addresses as 32 bits can tell
apart. -/
theorem size_ofSet_le {set : AddressSet} (hfits : ∀ a ∈ set.toList, fits a) :
    (ofSet set).size ≤ maxBufferSize := by
  have hascending : (set.toList.map UInt64.toNat).Pairwise (· < ·) :=
    List.pairwise_map.mpr (set.pairwise_toList.imp fun hlt => hlt)
  -- Ascending addresses below 4 GiB are at most as many as there are numbers below 4 GiB.
  have hcount := length_le_of_pairwise (Nat.zero_le UInt32.size) hascending
    (fun _ _ => Nat.zero_le _) fun x hx => by
      obtain ⟨a, ha, rfl⟩ := List.mem_map.mp hx
      simpa [fits] using hfits a ha
  have hsize : (ofSet set).size ≤ 12 * set.toList.length :=
    size_padded_foldr_addFront_le set.toList
  rw [List.length_map] at hcount
  simp only [UInt32.size] at hcount
  simp only [maxBufferSize]
  omega

/-- **Building the table of a set does not stop the machine**, and gives its bytes. -/
theorem table_endsAs (set : AddressSet) :
    EndsAs (table set.toList) ((Table.ofAddresses set.toList).map fun t => (t, t.bytes)) := by
  have hmap : ((Table.ofAddresses set.toList).map fun t => (t, t.bytes)) =
      Table.ofAddresses set.toList >>= fun t => .ok (t, t.bytes) := by
    cases Table.ofAddresses set.toList <;> rfl
  rw [hmap, table]
  refine (mapM_locate_endsAs set.toList).bindMap fun t ht => ?_
  obtain ⟨hfits, rfl⟩ := Table.ofAddresses_toList_eq_ok_iff.mp ht
  have hencodable := Table.encodable_ofSet hfits
  have hfoldr : (set.toList.map fun a => (pageOf a, entryOf a)).foldr
      (fun place => addEntry place.1 place.2) [] = set.toList.foldr addFront [] := by
    rw [List.foldr_map]
    simp only [addEntry_eq_addFront]
  have hpadded : paddedBlocks (set.toList.foldr addFront []) = some (ofSet set).blocks := by
    refine mapM_eq_some fun b hb => padded_eq_some ?_
    -- A block fits 32 bits before it is filled up because it does afterwards.
    have hlarger : b.size ≤ (Table.padded b).size := by
      unfold Table.padded
      split
      · exact Nat.le_refl _
      · simp only [Block.size, List.length_append]
        omega
    exact Nat.lt_of_le_of_lt hlarger (hencodable _ (List.mem_map_of_mem hb)).size
  have hbytes : encodeBlocks ByteArray.empty (ofSet set).blocks = some (ofSet set).bytes := by
    have hsize : ByteArray.empty.size + (ofSet set).size ≤ maxBufferSize := by
      rw [ByteArray.size_empty, Nat.zero_add]
      exact size_ofSet_le hfits
    rw [encodeBlocks_eq_some hencodable hsize, ByteArray.empty_append]
  rw [hfoldr]
  refine .guard hpadded ?_
  refine .guard hbytes ?_
  exact .pure _

end Rebase.Checked
