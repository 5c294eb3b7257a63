import Rebase.Discovery.Basic
import Rebase.Proofs.Checked.Source

/-!
# Discovery on a machine

The search for the addresses that need a base relocation, with operations that can stop the machine.
Records and words are taken from the contents of a section chunk by chunk, which is possible as long
as a chunk is not empty.

The search for pointers ends at the first pointer whose own address would not fit a word. This drops
nothing: all later words lie at higher addresses (`pointersFrom_eq`).

- **Records**: `recordedAddresses_endsAs`
- **Pointers**: `scannedAddresses_endsAs`
- **Both**: `discoverIn_endsAs`, for any order of the sections
-/

namespace Rebase.Checked

open Bytes Discovery Fallible
open Elf (AddressRange Machine SectionTable)

/-! ## §1 Chunks -/

/-- How many whole chunks of a size there are; the size must not be zero. -/
def chunkCount (contents : Bytes) (size : Nat) : Option Nat :=
  if size = 0 then none else some (contents.size / size)

/-- The chunk of an index. -/
def chunk (contents : Bytes) (size index : Nat) : Option Bytes := do
  let first ← word (index * size)
  let last ← word (first + size)
  cut contents first last

private theorem chunk_eq_some {contents : Bytes} {size index : Nat}
    (hsize : contents.size ≤ maxBufferSize) (hindex : index < contents.size / size) :
    ∃ record, chunk contents size index = some record ∧
      contents.slice? (index * size) size = some record := by
  -- The chunk of an index ends where the next one starts, which is inside the contents.
  have hlast : index * size + size ≤ contents.size := by
    have hmul := Nat.mul_le_of_le_div size (index + 1) contents.size hindex
    rw [Nat.add_mul, Nat.one_mul] at hmul
    exact hmul
  refine ⟨contents.extract (index * size) (index * size + size), ?_,
    slice?_eq_some_iff.mpr ⟨hlast, rfl⟩⟩
  refine bind_eq_of_eq_some (word_eq_some_of_le hsize (by omega)) ?_
  refine bind_eq_of_eq_some (word_eq_some_of_le hsize hlast) ?_
  exact cut_eq_some (Nat.le_add_right _ _) hlast

/-- The first word of a chunk that holds one is the word at its place in the contents. -/
private theorem word?_chunk {contents record : Bytes} {first size distance : Nat}
    (hrecord : contents.slice? first size = some record) (hin : distance + 8 ≤ size) :
    record.word? UInt64 distance = some (contents.word UInt64 (first + distance)) := by
  rw [Bytes.word, word?_inside _ hrecord hin, Option.getD_some]
  exact word?_eq_some (by rw [size_of_slice? hrecord]; exact hin)

/-! ## §2 Records -/

/-- The address of a record, if it is of the absolute type. -/
def recordAddress (machine : Machine) (record : Bytes) : Option (Option UInt64) := do
  let address ← record.word? UInt64 0
  let info ← record.word? UInt64 8
  let type ← narrow32 (info.toNat % UInt32.size)
  some (if type = machine.absoluteRelocation then some address else none)

/-- The address of the record of an index, if it is of the absolute type. -/
def addressAt (machine : Machine) (size : Nat) (contents : Bytes) (index : Nat) :
    Option (Option UInt64) := do
  let record ← chunk contents size index
  recordAddress machine record

/-- The addresses of the records of the absolute type, when a record starts every `size` bytes. -/
def absoluteAddresses (machine : Machine) (size : Nat) (contents : Bytes) :
    Option (List UInt64) := do
  let count ← chunkCount contents size
  let found ← (List.range count).mapM (addressAt machine size contents)
  some (found.filterMap id)

/-- The contents of a section. -/
def sectionContents (file : Bytes) (s : Elf.Section) : Guarded ElfSectionFault Bytes :=
  orError (file.slice? s.offset.toNat s.size.toNat) (.contentsOutsideFile s.name s.offset s.size)

/-- The addresses that the records of one section give. -/
def sectionAddresses (machine : Machine) (file : Bytes) (s : Elf.Section) :
    Guarded ElfSectionFault (List UInt64) :=
  if recordSize s < readRecordSize then
    throw (.recordTooSmall s.name s.entrySize)
  else do
    let contents ← sectionContents file s
    absoluteAddresses machine (recordSize s) contents

/-- The addresses that the records of an image give. -/
def recordedAddresses (machine : Machine) (file : Bytes) (order : List Elf.Section) :
    Guarded ElfSectionFault AddressSet := do
  let lists ← (order.filter holdsRecords).mapM (sectionAddresses machine file)
  pure (AddressSet.ofList lists.flatten)

/-- A record that is long enough for its two fields gives the address that it gives without a
machine. -/
private theorem recordAddress_eq {contents record : Bytes} {size first : Nat} (machine : Machine)
    (hsize : readRecordSize ≤ size) (hrecord : contents.slice? first size = some record) :
    recordAddress machine record =
      some (if (contents.word UInt64 (first + 8)).toUInt32 = machine.absoluteRelocation then
        some (contents.word UInt64 first) else none) := by
  simp only [readRecordSize] at hsize
  have haddress : record.word? UInt64 0 = some (contents.word UInt64 first) :=
    word?_chunk hrecord (by omega)
  have hinfo : record.word? UInt64 8 = some (contents.word UInt64 (first + 8)) :=
    word?_chunk hrecord (by omega)
  have htype : narrow32 ((contents.word UInt64 (first + 8)).toNat % UInt32.size) =
      some (contents.word UInt64 (first + 8)).toUInt32 := by
    rw [narrow32_eq_some (Nat.mod_lt _ (by decide))]
    congr 1
    apply UInt32.toNat.inj
    simp
  refine bind_eq_of_eq_some haddress ?_
  refine bind_eq_of_eq_some hinfo ?_
  exact bind_eq_of_eq_some htype rfl

private theorem absoluteAddresses_eq {machine : Machine} {size : Nat} {contents : Bytes}
    (hcontents : contents.size ≤ maxBufferSize) (hsize : readRecordSize ≤ size) :
    absoluteAddresses machine size contents =
      some (Discovery.absoluteAddresses machine size contents) := by
  -- A record has at least 16 bytes, so the contents can be divided into records.
  have hpos : size ≠ 0 := by
    simp only [readRecordSize] at hsize
    omega
  have hmap := mapM_eq_some (f := addressAt machine size contents)
    (g := fun index => if (contents.word UInt64 (index * size + 8)).toUInt32 =
      machine.absoluteRelocation
      then some (contents.word UInt64 (index * size)) else none)
    fun index (hindex : index ∈ List.range (contents.size / size)) => by
      obtain ⟨record, hchunk, hrecord⟩ := chunk_eq_some hcontents (List.mem_range.mp hindex)
      exact bind_eq_of_eq_some hchunk (recordAddress_eq machine hsize hrecord)
  refine bind_eq_of_eq_some (if_neg hpos) ?_
  refine bind_eq_of_eq_some hmap ?_
  rw [List.filterMap_map]
  rfl

/-! ## §3 Pointers -/

/-- The pointer at the word of an index, if the word holds an address of the image. -/
def pointerAt (range : AddressRange) (start : UInt64) (contents : Bytes) (index : Nat) :
    Option Pointer :=
  if range.contains (contents.word UInt64 (index * pointerSize)) ∧
      start.toNat + index * pointerSize < UInt64.size then
    some ⟨UInt64.ofNat (start.toNat + index * pointerSize),
      contents.word UInt64 (index * pointerSize)⟩
  else
    none

/-- The pointers at the words of some indices, up to the first one that would have no address. -/
def pointersFrom (range : AddressRange) (start : UInt64) (contents : Bytes) :
    List Nat → Option (List Pointer)
  | [] => some []
  | index :: rest => do
    let record ← chunk contents pointerSize index
    let value ← record.word? UInt64 0
    if range.contains value then
      let distance ← word (index * pointerSize)
      match word (start.toNat + distance) with
      | none => some []
      | some address =>
        let found ← pointersFrom range start contents rest
        some (⟨UInt64.ofNat address, value⟩ :: found)
    else
      pointersFrom range start contents rest

/-- The addresses of the pointers in the section that is searched. -/
def scannedAddresses (file : Bytes) (table : SectionTable) (order : List Elf.Section) :
    Guarded ElfSectionFault AddressSet :=
  match scanTarget table order with
  | none => pure ∅
  | some (s, range) => do
    let contents ← sectionContents file s
    let count ← chunkCount contents pointerSize
    let found ← pointersFrom range s.address contents (List.range count)
    pure (AddressSet.ofList (found.map Pointer.address))

/-- Behind an index whose word would have no address there are no pointers. -/
private theorem filterMap_pointerAt_eq_nil {range : AddressRange} {start : UInt64}
    {contents : Bytes}
    {index : Nat} {rest : List Nat} (hindex : UInt64.size ≤ start.toNat + index * pointerSize)
    (hrest : ∀ later ∈ rest, index < later) :
    rest.filterMap (pointerAt range start contents) = [] := by
  rw [List.filterMap_eq_nil_iff]
  intro later hlater
  have hmul : index * pointerSize ≤ later * pointerSize :=
    Nat.mul_le_mul_right _ (Nat.le_of_lt (hrest later hlater))
  exact if_neg fun h => by omega

/-- **Ending the search early drops nothing.** -/
theorem pointersFrom_eq {range : AddressRange} {start : UInt64} {contents : Bytes}
    {indices : List Nat} (hcontents : contents.size ≤ maxBufferSize)
    (hindices : ∀ index ∈ indices, index < contents.size / pointerSize)
    (hascending : indices.Pairwise (· < ·)) :
    pointersFrom range start contents indices =
      some (indices.filterMap (pointerAt range start contents)) := by
  induction indices with
  | nil => rfl
  | cons index rest ih =>
    obtain ⟨hless, hrest⟩ := List.pairwise_cons.mp hascending
    have hindex := hindices index List.mem_cons_self
    have hmore := ih (fun later hlater => hindices later (List.mem_cons_of_mem _ hlater)) hrest
    obtain ⟨record, hchunk, hrecord⟩ := chunk_eq_some hcontents hindex
    have hvalue : record.word? UInt64 0 = some (contents.word UInt64 (index * pointerSize)) :=
      word?_chunk hrecord (by decide)
    have hdistance : word (index * pointerSize) = some (index * pointerSize) :=
      word_eq_some_of_le hcontents (Nat.mul_le_of_le_div _ _ _ (Nat.le_of_lt hindex))
    simp only [pointersFrom, hchunk, hvalue, hdistance, Option.bind_eq_bind,
      Option.bind_some, hmore, List.filterMap_cons]
    by_cases hcontains : range.contains (contents.word UInt64 (index * pointerSize)) = true
    · by_cases haddress : start.toNat + index * pointerSize < UInt64.size
      · simp only [pointerAt, hcontains, haddress, if_true, and_self, word_eq_some haddress]
      -- The search ends here, and there would have been nothing more to find.
      · have hnothing : rest.filterMap (pointerAt range start contents) = [] :=
          filterMap_pointerAt_eq_nil (Nat.not_lt.mp haddress) hless
        simp only [pointerAt, hcontains, haddress, if_true, and_false, if_false,
          word_eq_none (Nat.not_lt.mp haddress), hnothing]
    · simp only [pointerAt, hcontains]
      rfl

/-! ## §4 Both sources -/

/-- The addresses of an image that need a base relocation, when its sections are looked at in a
given order. -/
def discoverIn (scan : Bool) (file : Bytes) (table : SectionTable) (order : List Elf.Section) :
    Guarded ElfSectionFault Discovery := do
  let recorded ← recordedAddresses table.machine file order
  let scanned ← if scan then scannedAddresses file table order else pure ∅
  pure { recorded, scanned }

section Contents

variable {file : Bytes} (hfile : file.size ≤ maxBufferSize)

private theorem sectionContents_endsAs (s : Elf.Section) :
    EndsAs (sectionContents file s) (s.contents file) := by
  unfold sectionContents Elf.Section.contents
  cases file.slice? s.offset.toNat s.size.toNat <;> rfl

include hfile

/-- The contents of a section are not larger than the file. -/
private theorem size_contents_le {s : Elf.Section} {contents : Bytes}
    (h : s.contents file = .ok contents) :
    contents.size ≤ maxBufferSize := by
  obtain ⟨hinside, rfl⟩ := Elf.Section.contents_eq_ok_iff.mp h
  rw [ByteArray.size_extract]
  omega

private theorem sectionAddresses_endsAs (machine : Machine) (s : Elf.Section) :
    EndsAs (sectionAddresses machine file s) (Discovery.sectionAddresses machine file s) := by
  unfold sectionAddresses Discovery.sectionAddresses
  refine .ite (fun _ => .throw _) fun hlarge => ?_
  refine EndsAs.map_of_bind (sectionContents_endsAs s) fun contents hcontents => ?_
  exact .lift (absoluteAddresses_eq (size_contents_le hfile hcontents) (Nat.not_lt.mp hlarge))

/-- **Collecting the recorded addresses does not stop the machine.** -/
theorem recordedAddresses_endsAs (machine : Machine) (order : List Elf.Section) :
    EndsAs (recordedAddresses machine file order)
      (Discovery.recordedAddresses machine file order) := by
  unfold recordedAddresses Discovery.recordedAddresses
  refine EndsAs.map_of_bind
    (.mapM fun s _ => sectionAddresses_endsAs hfile machine s) fun lists _ => ?_
  exact .pure _

/-- **Searching for pointers does not stop the machine.** -/
theorem scannedAddresses_endsAs (table : SectionTable) (order : List Elf.Section) :
    EndsAs (scannedAddresses file table order) (Discovery.scannedAddresses file table order) := by
  unfold scannedAddresses Discovery.scannedAddresses Discovery.scan
  cases scanTarget table order with
  | none => exact .pure _
  | some target =>
    obtain ⟨s, range⟩ := target
    simp only [map_map]
    refine EndsAs.map_of_bind (sectionContents_endsAs s) fun contents hcontents => ?_
    have hscan : pointersFrom range s.address contents (List.range (contents.size / pointerSize)) =
        some (pointers range s.address contents) :=
      pointersFrom_eq (size_contents_le hfile hcontents)
        (fun index hindex => List.mem_range.mp hindex) List.pairwise_lt_range
    refine .guard (b := contents.size / pointerSize) rfl ?_
    refine .guard hscan ?_
    exact .pure _

/-- **Discovery does not stop the machine**, in whatever order the sections are looked at. -/
theorem discoverIn_endsAs (scan : Bool) (table : SectionTable) (order : List Elf.Section) :
    EndsAs (discoverIn scan file table order) (Discovery.inOrder scan file table order) := by
  unfold discoverIn Discovery.inOrder
  refine (recordedAddresses_endsAs hfile table.machine order).bind fun recorded _ => ?_
  cases scan with
  | true => exact (scannedAddresses_endsAs hfile table order).bind fun scanned _ => .pure _
  | false => exact .pure _

end Contents

end Rebase.Checked
