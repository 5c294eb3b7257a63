import Rebase.Pe.Plan
import Rebase.Proofs.Checked.Basic
import Rebase.Proofs.Pe.Layout

/-!
# Planning on a machine

The headers of the destination image and the place of a new table, found with operations that can
stop the machine. Every offset is a 32-bit number of the image with less than 4 MiB added to it, so
no sum of offsets leaves a word; the sums that can be larger than 32 bits are tested before they are
stored.

- **Names**: `trimZeros_eq_extract`, a name without the zero bytes at its end can be cut out
- **Headers**: `readHeaders_endsAs`
- **Plans**: `makePlan_endsAs`
-/

namespace Rebase.Checked

open Bytes Pe
open Pe.Section (headerSize trimZeros)

/-- A test that reads nothing and computes nothing. -/
def tested {ε α : Type} (y : Except ε α) : Guarded ε α := ExceptT.mk (some y)

private theorem tested_endsAs {ε α : Type} (y : Except ε α) : EndsAs (tested y) y := rfl

/-! ## §1 Section headers -/

/-- The index of the last byte in front of `stop` that is not zero. -/
def lastNonzero? (raw : Bytes) : (stop : Nat) → Option Nat
  | 0 => none
  | stop + 1 => if raw.data[stop]? = some 0 then lastNonzero? raw stop else some stop

/-- How many bytes are left without the zero bytes at the end. -/
def trimmedSize (raw : Bytes) : Option Nat :=
  match lastNonzero? raw raw.size with
  | none => some 0
  | some position => word (position + 1)

/-- The name in a section header. -/
def sectionName (header : Bytes) : Option String := do
  let raw ← cut header 0 8
  let size ← trimmedSize raw
  let name ← cut raw 0 size
  some (Text.lossy name)

/-- The section of an index, when the section table starts at `table`. -/
def readSection (file : Bytes) (table index : Nat) : Guarded PeFault Pe.Section := do
  let distance ← word (index * headerSize)
  let offset ← word (table + distance)
  let header ← orError (file.slice? offset headerSize) (.sectionHeaderTruncated index)
  let name ← sectionName header
  let virtualSize ← header.word? UInt32 8
  let virtualAddress ← header.word? UInt32 12
  let rawSize ← header.word? UInt32 16
  let rawOffset ← header.word? UInt32 20
  let characteristics ← header.word? UInt32 36
  pure { name, virtualSize, virtualAddress, rawSize, rawOffset, characteristics }

/-- The zero bytes at the end of a prefix are those behind its last other byte. -/
private theorem reverse_dropWhile_take (raw : Bytes) {stop : Nat} (hstop : stop ≤ raw.size) :
    ((raw.data.toList.take stop).reverse.dropWhile (· = 0)).reverse =
      raw.data.toList.take ((lastNonzero? raw stop).elim 0 (· + 1)) := by
  induction stop with
  | zero => rfl
  | succ stop ih =>
    have hin : stop < raw.data.size := hstop
    -- The last byte of the prefix is the first one to be looked at.
    have hlast : raw.data.toList.take (stop + 1) =
        raw.data.toList.take stop ++ [raw.data[stop]] := by
      rw [List.take_add_one, Array.getElem?_toList, Array.getElem?_eq_getElem hin]
      rfl
    rw [hlast, List.reverse_append, List.reverse_singleton, List.singleton_append,
      List.dropWhile_cons, lastNonzero?, Array.getElem?_eq_getElem hin]
    by_cases hzero : raw.data[stop] = 0
    · simp only [hzero, decide_true, if_true]
      exact ih (Nat.le_of_succ_le hstop)
    · simp only [hzero, decide_false, Option.some.injEq, if_false, Option.elim_some,
        Bool.false_eq_true, List.reverse_cons, List.reverse_reverse, hlast]

/-- **A name without the zero bytes at its end** is a part of the field it is in. -/
theorem trimZeros_eq_extract (raw : Bytes) :
    trimZeros raw = raw.extract 0 ((lastNonzero? raw raw.size).elim 0 (· + 1)) := by
  -- The whole field is the longest prefix of it.
  have hall : raw.data.toList.take raw.size = raw.data.toList :=
    List.take_of_length_le (Nat.le_of_eq Array.length_toList)
  have htake := reverse_dropWhile_take raw (Nat.le_refl raw.size)
  rw [hall] at htake
  rw [trimZeros, htake]
  apply ByteArray.ext
  rw [ByteArray.data_extract, ← Array.toList_inj, Array.toList_extract]
  simp [List.extract]

private theorem lastNonzero?_lt {raw : Bytes} {stop position : Nat}
    (h : lastNonzero? raw stop = some position) : position < stop := by
  induction stop with
  | zero => cases h
  | succ stop ih =>
    rw [lastNonzero?] at h
    split at h
    · exact Nat.lt_succ_of_lt (ih h)
    · cases h
      exact Nat.lt_succ_self _

private theorem sectionName_eq_some {header : Bytes} (hsize : header.size = headerSize) :
    sectionName header = some (Text.lossy (trimZeros (header.extract 0 8))) := by
  have hraw : cut header 0 8 = some (header.extract 0 8) :=
    cut_eq_some (by decide) (by rw [hsize]; decide)
  have hlength : (header.extract 0 8).size = 8 := by
    rw [ByteArray.size_extract, hsize]
    rfl
  rw [trimZeros_eq_extract]
  simp only [sectionName, hraw, Option.bind_eq_bind, Option.bind_some]
  generalize header.extract 0 8 = raw at hlength ⊢
  unfold trimmedSize
  cases hlast : lastNonzero? raw raw.size with
  | none => rfl
  | some position =>
    have hlt := lastNonzero?_lt hlast
    have hword : word (position + 1) = some (position + 1) :=
      word_eq_some (by simp only [UInt64.size]; omega)
    have hcut : cut raw 0 (position + 1) = some (raw.extract 0 (position + 1)) :=
      cut_eq_some (Nat.zero_le _) hlt
    simp only [hword, hcut, Option.bind_some, Option.elim_some]

/-- Reading a section header does not stop the machine when its offset is a word. -/
private theorem readSection_endsAs {file : Bytes} {table index : Nat}
    (hoffset : table + index * headerSize < UInt64.size) :
    EndsAs (readSection file table index) (Headers.readSection file table index) := by
  unfold readSection Headers.readSection
  refine .guard (word_eq_some (by omega)) ?_
  refine .guard (word_eq_some hoffset) ?_
  cases hheader : file.slice? (table + index * headerSize) headerSize with
  | none => exact .missing rfl
  | some header =>
    have hsize := size_of_slice? hheader
    have hfield : ∀ k, k + 4 ≤ headerSize → header.word? UInt32 k = some (header.word UInt32 k) :=
      fun k hk => word?_eq_some (by rw [hsize]; exact hk)
    refine .present rfl ?_
    refine .guard (sectionName_eq_some hsize) ?_
    refine .guard (hfield 8 (by decide)) ?_
    refine .guard (hfield 12 (by decide)) ?_
    refine .guard (hfield 16 (by decide)) ?_
    refine .guard (hfield 20 (by decide)) ?_
    refine .guard (hfield 36 (by decide)) ?_
    exact .pure _

/-! ## §2 Headers -/

/-- The header field at a distance from an offset. -/
def headerField (α : Type) {width : Nat} [Word α width] (file : Bytes) (base distance : Nat) :
    Guarded PeFault α := do
  let offset ← word (base + distance)
  orError (file.word? α offset) .truncated

/-- The headers of a file. -/
def readHeaders (file : Bytes) : Guarded PeFault Headers := do
  let signatureOffset ← headerField UInt32 file 0 Headers.signatureField
  tested (Headers.checkSignature (file.word? UInt32 signatureOffset.toNat))
  let fileHeader ← word (signatureOffset.toNat + 4)
  let count ← headerField UInt16 file fileHeader 2
  let optionalHeaderSize ← headerField UInt16 file fileHeader 16
  let characteristics ← headerField UInt16 file fileHeader 18
  let optionalHeader ← word (fileHeader + 20)
  let magic ← headerField UInt16 file optionalHeader 0
  tested (Headers.checkMagic magic)
  let sizeOfImage ← headerField UInt32 file optionalHeader 56
  let sizeOfHeaders ← headerField UInt32 file optionalHeader 60
  let directoryCount ← headerField UInt32 file optionalHeader 108
  tested (Headers.checkDirectory directoryCount optionalHeaderSize)
  let table ← word (optionalHeader + optionalHeaderSize.toNat)
  let sections ← (List.range count.toNat).mapM (readSection file table)
  pure {
    fileHeaderOffset := fileHeader
    optionalHeaderOffset := optionalHeader
    sectionTableOffset := table
    characteristics
    sizeOfImage
    sizeOfHeaders
    sections }

private theorem orError_endsAs {α : Type} (o : Option α) :
    EndsAs (orError o PeFault.truncated) (Headers.required o) := by
  cases o <;> rfl

private theorem headerField_endsAs {α : Type} {width : Nat} [Word α width] {file : Bytes}
    {base distance : Nat} (h : base + distance < UInt64.size) :
    EndsAs (headerField α file base distance) (Headers.required (file.word? α (base + distance))) :=
  .guard (word_eq_some h) (orError_endsAs _)

/-- A number below 8 GiB is far from the largest word. -/
private theorem lt_wordSize {n : Nat} (h : n < 0x200000000) : n < UInt64.size :=
  Nat.lt_trans h (by decide)

/-- **Reading the headers does not stop the machine.** -/
theorem readHeaders_endsAs (file : Bytes) : EndsAs (readHeaders file) (Headers.read file) := by
  unfold readHeaders Headers.read
  have hsignature : EndsAs (headerField UInt32 file 0 Headers.signatureField)
      (Headers.required (file.word? UInt32 (0 + Headers.signatureField))) :=
    headerField_endsAs (by decide)
  rw [Nat.zero_add] at hsignature
  refine hsignature.bind fun e _ => ?_
  have he : e.toNat < UInt32.size := e.toNat_lt
  simp only [UInt32.size] at he
  refine (tested_endsAs _).bind fun _ _ => ?_
  refine .guard (word_eq_some (lt_wordSize (by omega))) ?_
  refine (headerField_endsAs (lt_wordSize (by omega))).bind fun count _ => ?_
  refine (headerField_endsAs (lt_wordSize (by omega))).bind fun size _ => ?_
  refine (headerField_endsAs (lt_wordSize (by omega))).bind fun flags _ => ?_
  refine .guard (word_eq_some (lt_wordSize (by omega))) ?_
  refine (headerField_endsAs (lt_wordSize (by omega))).bind fun magic _ => ?_
  refine (tested_endsAs _).bind fun _ _ => ?_
  refine (headerField_endsAs (lt_wordSize (by omega))).bind fun image _ => ?_
  refine (headerField_endsAs (lt_wordSize (by omega))).bind fun area _ => ?_
  refine (headerField_endsAs (lt_wordSize (by omega))).bind fun directories _ => ?_
  refine (tested_endsAs _).bind fun _ _ => ?_
  -- The section table adds at most two numbers of 16 bits, one of them times the size of a header.
  have hcount : count.toNat < UInt16.size := count.toNat_lt
  have hsize : size.toNat < UInt16.size := size.toNat_lt
  simp only [UInt16.size] at hcount hsize
  refine .guard (word_eq_some (lt_wordSize (by omega))) ?_
  refine (EndsAs.mapM fun index hindex => readSection_endsAs (lt_wordSize ?_)).bind
    fun sections _ => .pure _
  have hlt := List.mem_range.mp hindex
  simp only [headerSize]
  omega

/-! ## §3 Plans -/

/-- The least multiple of `step` that is not below `n`. -/
def alignUp (n step : Nat) : Option Nat := do
  let sum ← word (n + step)
  let last ← sub sum 1
  let _ ← sub step 1
  some (last / step * step)

/-- The size of an image that ends with a table, if it fits 32 bits. -/
def imageSize (address : UInt32) (tableSize : Nat) : Option (Option UInt32) := do
  let size ← alignUp (max tableSize 1) sectionAlignment
  let sum ← word (address.toNat + size)
  some (narrow32 sum)

/-- The address after the last one that a section may take up. -/
def virtualEnd (s : Pe.Section) : Option Nat :=
  word (s.virtualAddress.toNat + max s.virtualSize.toNat s.rawSize.toNat)

/-- Where the memory of the image ends. -/
def mappedEnd (h : Headers) : Option Nat := do
  let last ← match h.highestSection? with
    | none => some 0
    | some (s, _) => virtualEnd s
  some (max last h.sizeOfHeaders.toNat)

/-- Where the section header of an index stands. -/
def sectionHeaderOffset (h : Headers) (index : Nat) : Option Nat := do
  let distance ← word (index * headerSize)
  word (h.sectionTableOffset + distance)

/-- The place of a new section whose header goes to an offset. Whatever does not fit 32 bits is an
error. -/
def placeOf (h : Headers) (fileSize tableSize headerOffset : Nat) : Guarded Error NewSection := do
  let mapped ← mappedEnd h
  let address ← alignUp mapped sectionAlignment
  let virtualAddress ← orError (narrow32 address) (.capacity .imageTooLarge)
  let offset ← alignUp fileSize fileAlignment
  let rawOffset ← orError (narrow32 offset) (.capacity .imageTooLarge)
  let size ← alignUp tableSize fileAlignment
  let rawSize ← orError (narrow32 size) (.capacity .imageTooLarge)
  let _ ← orError (narrow32 (rawOffset.toNat + rawSize.toNat)) (.capacity .imageTooLarge)
  let image ← imageSize virtualAddress tableSize
  let _ ← orError image (.capacity .imageTooLarge)
  pure { headerOffset, virtualAddress, rawOffset, rawSize }

/-- The place of a new section for a table of the given size. -/
def newSection (h : Headers) (fileSize tableSize : Nat) : Guarded Error NewSection :=
  if maxSectionCount ≤ h.sectionCount then
    throw (.capacity (.sectionTableFull h.sectionCount))
  else do
    let headerOffset ← sectionHeaderOffset h h.sectionCount
    let headerEnd ← word (headerOffset + headerSize)
    if h.sizeOfHeaders.toNat < headerEnd then
      throw (.capacity (.noHeaderRoom headerOffset h.sizeOfHeaders.toNat))
    else if fileSize < headerEnd then
      throw (.pe (.headerAreaOutsideFile headerEnd))
    else
      placeOf h fileSize tableSize headerOffset

/-- Where a table of the given size goes in a file of the given size. -/
def makePlan (h : Headers) (fileSize tableSize : Nat) : Guarded Error Plan := do
  let _ ← orError (narrow32 tableSize) (.relocation .tableTooLarge)
  match h.usableSection? tableSize with
  | some (s, index) => do
    let last ← word (s.rawOffset.toNat + s.rawSize.toNat)
    if last ≤ fileSize then
      pure (.replace index s)
    else
      throw (.pe (.relocationsOutsideFile s.rawOffset.toNat last))
  | none => do
    let place ← newSection h fileSize tableSize
    pure (.append place)

private theorem alignUp_eq_some {n step : Nat} (hstep : 0 < step) (h : n + step < UInt64.size) :
    alignUp n step = some (Pe.alignUp n step) := by
  refine bind_eq_of_eq_some (word_eq_some h) ?_
  refine bind_eq_of_eq_some (sub_eq_some (by omega)) ?_
  exact bind_eq_of_eq_some (sub_eq_some hstep) rfl

theorem imageSize_eq_some {address : UInt32} {tableSize : Nat} (h : tableSize < UInt32.size) :
    imageSize address tableSize = some (narrow32 (address.toNat + mappedSize tableSize)) := by
  have haddress : address.toNat < UInt32.size := address.toNat_lt
  have hsize : max tableSize 1 + sectionAlignment < UInt64.size := by
    simp only [UInt32.size] at h
    simp only [sectionAlignment, UInt64.size]
    omega
  have hmapped : mappedSize tableSize ≤ max tableSize 1 + sectionAlignment := by
    have hdiv := Nat.div_mul_le_self (max tableSize 1 + sectionAlignment - 1) sectionAlignment
    simp only [mappedSize, Pe.alignUp]
    omega
  have hsum : address.toNat + mappedSize tableSize < UInt64.size := by
    simp only [UInt32.size] at h haddress
    simp only [sectionAlignment] at hmapped
    simp only [UInt64.size]
    omega
  refine bind_eq_of_eq_some (alignUp_eq_some (by decide) hsize) ?_
  exact bind_eq_of_eq_some (word_eq_some hsum) rfl

private theorem virtualEnd_lt (s : Pe.Section) : s.virtualEnd < 2 * UInt32.size := by
  have haddress : s.virtualAddress.toNat < UInt32.size := s.virtualAddress.toNat_lt
  have hvirtual : s.virtualSize.toNat < UInt32.size := s.virtualSize.toNat_lt
  have hraw : s.rawSize.toNat < UInt32.size := s.rawSize.toNat_lt
  simp only [Section.virtualEnd]
  omega

private theorem virtualEnd_eq_some (s : Pe.Section) : virtualEnd s = some s.virtualEnd := by
  exact word_eq_some (lt_wordSize (virtualEnd_lt s))

/-- The memory of an image ends below 8 GiB, as sections start and have sizes below 4 GiB. -/
theorem mappedEnd_lt (h : Headers) : h.mappedEnd < 2 * UInt32.size := by
  have hheaders : h.sizeOfHeaders.toNat < UInt32.size := h.sizeOfHeaders.toNat_lt
  unfold Headers.mappedEnd
  cases h.highestSection? with
  | none =>
    simp only [Option.map_none, Option.getD_none]
    omega
  | some found =>
    have hlt := virtualEnd_lt found.1
    simp only [Option.map_some, Option.getD_some]
    omega

private theorem mappedEnd_eq_some (h : Headers) : mappedEnd h = some h.mappedEnd := by
  unfold mappedEnd Headers.mappedEnd
  cases h.highestSection? with
  | none => rfl
  | some found =>
    simp only [virtualEnd_eq_some]
    rfl

private theorem sectionHeaderOffset_eq_some {h : Headers} {index : Nat}
    (hoffset : h.sectionHeaderOffset index < UInt64.size) :
    sectionHeaderOffset h index = some (h.sectionHeaderOffset index) := by
  simp only [Headers.sectionHeaderOffset] at hoffset
  rw [sectionHeaderOffset, word_eq_some (by omega)]
  exact word_eq_some hoffset

/-- The fields of headers that were read have offsets that are far from the largest word. -/
theorem sectionTableEnd_lt {h : Headers} {file : Bytes} (hd : h.Describes file) :
    h.sectionTableEnd + headerSize < UInt64.size := by
  obtain ⟨e, _, _, hfile⟩ := hd.signed
  obtain ⟨z, _, _, htable⟩ := hd.sectionTable
  have hoptional := hd.optionalHeader
  have hcount := hd.count_lt
  have he : e.toNat < UInt32.size := e.toNat_lt
  have hz : z.toNat < UInt16.size := z.toNat_lt
  simp only [UInt32.size] at he
  simp only [UInt16.size] at hz hcount
  simp only [Headers.sectionTableEnd, Headers.sectionHeaderOffset, headerSize, UInt64.size]
  omega

section Planned

variable {h : Headers} {fileSize tableSize : Nat} (hfile : fileSize ≤ maxBufferSize)
  (htable : tableSize < UInt32.size)

include hfile htable

/-- **What fits 32 bits is found out without leaving 64 bits.** -/
theorem placeOf_endsAs (headerOffset : Nat) :
    EndsAs (placeOf h fileSize tableSize headerOffset)
      (if Pe.alignUp fileSize fileAlignment + Pe.alignUp tableSize fileAlignment < UInt32.size ∧
          Pe.alignUp h.mappedEnd sectionAlignment + mappedSize tableSize < UInt32.size then
        .ok {
          headerOffset
          virtualAddress := UInt32.ofNat (Pe.alignUp h.mappedEnd sectionAlignment)
          rawOffset := UInt32.ofNat (Pe.alignUp fileSize fileAlignment)
          rawSize := UInt32.ofNat (Pe.alignUp tableSize fileAlignment) }
      else
        .error (.capacity .imageTooLarge)) := by
  have hmapped := mappedEnd_lt h
  simp only [UInt32.size] at hmapped
  simp only [maxBufferSize] at hfile
  have hword : ∀ n step, n ≤ 0x7FFFFFFFFFFFFFFF → step ≤ 0x1000 → n + step < UInt64.size := by
    intro n step hn hstep
    simp only [UInt64.size]
    omega
  have htableWord : tableSize ≤ 0x7FFFFFFFFFFFFFFF := by
    simp only [UInt32.size] at htable
    omega
  -- The numbers are tested one by one, and each that is too large is reported in the same way.
  unfold placeOf
  refine .guard (mappedEnd_eq_some h) ?_
  refine .guard (alignUp_eq_some (by decide) (hword _ _ (by omega) (by decide))) ?_
  generalize Pe.alignUp h.mappedEnd sectionAlignment = address
  refine .narrow (fun hp => by omega) fun haddress => ?_
  refine .guard (alignUp_eq_some (by decide) (hword _ _ hfile (by decide))) ?_
  generalize Pe.alignUp fileSize fileAlignment = offset
  refine .narrow (fun hp => by omega) fun hoffset => ?_
  refine .guard (alignUp_eq_some (by decide) (hword _ _ htableWord (by decide))) ?_
  generalize Pe.alignUp tableSize fileAlignment = size
  refine .narrow (fun hp => by omega) fun hsize => ?_
  rw [UInt32.toNat_ofNat_of_lt' hoffset, UInt32.toNat_ofNat_of_lt' hsize]
  refine .narrow And.left fun hraw => ?_
  refine .guard (imageSize_eq_some htable) ?_
  rw [UInt32.toNat_ofNat_of_lt' haddress]
  refine .narrow And.right fun himage => ?_
  rw [if_pos ⟨hraw, himage⟩]
  exact .pure _

variable (hoffset : h.sectionTableEnd + headerSize < UInt64.size)

include hoffset

private theorem newSection_endsAs :
    EndsAs (newSection h fileSize tableSize) (h.newSection fileSize tableSize) := by
  unfold newSection Headers.newSection
  refine .ite (fun _ => .throw _) fun _ => ?_
  refine .guard (sectionHeaderOffset_eq_some (Nat.lt_of_le_of_lt (Nat.le_add_right _ _) hoffset)) ?_
  refine .guard (word_eq_some hoffset) ?_
  refine .ite (fun _ => .throw _) fun _ => ?_
  refine .ite (fun _ => .throw _) fun _ => ?_
  exact placeOf_endsAs hfile htable _

end Planned

/-- **Planning does not stop the machine.** -/
theorem makePlan_endsAs {h : Headers} {fileSize : Nat} (tableSize : Nat)
    (hfile : fileSize ≤ maxBufferSize) (hoffset : h.sectionTableEnd + headerSize < UInt64.size) :
    EndsAs (makePlan h fileSize tableSize) (Plan.make h fileSize tableSize) := by
  unfold makePlan Plan.make
  by_cases htable : tableSize < UInt32.size
  case neg =>
    rw [if_neg htable]
    exact .missing (if_neg htable)
  rw [if_pos htable]
  refine .present (narrow32_eq_some htable) ?_
  cases h.usableSection? tableSize with
  | some found =>
    obtain ⟨s, index⟩ := found
    have hraw : s.rawOffset.toNat < UInt32.size := s.rawOffset.toNat_lt
    have hsize : s.rawSize.toNat < UInt32.size := s.rawSize.toNat_lt
    simp only [UInt32.size] at hraw hsize
    refine .guard (word_eq_some (lt_wordSize (by omega))) ?_
    exact .ite (fun _ => .pure _) fun _ => .throw _
  | none =>
    exact (newSection_endsAs hfile htable hoffset).map_of_bind fun place _ => .pure _

end Rebase.Checked
