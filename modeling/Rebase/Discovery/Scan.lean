import Rebase.AddressSet
import Rebase.Elf.ImageRange
import Rebase.Elf.SectionTable

/-!
# Pointers without a record

A linker fills some words of `.data` with addresses and leaves no record of it. Such words are found
by looking: each aligned word of the section whose value lies in the range of the image is taken for
a pointer. Read-only data is not searched, because the ends of strings there look like addresses.

The main statement is `mem_pointers_iff`, which says what the pointers of a section are.
-/

namespace Rebase.Discovery

open Elf (AddressRange Section SectionTable)

/-- The section that is searched. -/
def scannedSection : String := ".data"

/-- The size of a pointer in bytes. -/
def pointerSize : Nat := 8

/-- A word that holds an address of the image. -/
structure Pointer where
  /-- Where the word is. -/
  address : UInt64
  /-- What it holds. -/
  value : UInt64
  deriving DecidableEq

/-- The pointers among the words of a section that starts at `start`, in the order of the words. A
word that would lie above the last address there is has no address. -/
def pointers (range : AddressRange) (start : UInt64) (contents : Bytes) : List Pointer :=
  (List.range (contents.size / pointerSize)).filterMap fun index =>
    let value := contents.word UInt64 (index * pointerSize)
    let address := start.toNat + index * pointerSize
    if range.contains value ∧ address < UInt64.size then
      some ⟨UInt64.ofNat address, value⟩
    else
      none

/-- The section that is searched and the range its words are compared with, if an image has both.
The sections of the image may be listed in any order. -/
def scanTarget (table : SectionTable) (order : List Section) : Option (Section × AddressRange) := do
  let s ← table.get? scannedSection
  let range ← Elf.imageRange order
  pure (s, range)

/-- The pointers in the section that is searched. -/
def scan (file : Bytes) (table : SectionTable) (order : List Section) :
    Except ElfSectionFault (List Pointer) :=
  match scanTarget table order with
  | none => .ok []
  | some (s, range) => (s.contents file).map (pointers range s.address)

/-- The addresses of the pointers in the section that is searched. -/
def scannedAddresses (file : Bytes) (table : SectionTable) (order : List Section) :
    Except ElfSectionFault AddressSet :=
  (scan file table order).map fun found => AddressSet.ofList (found.map Pointer.address)

/-- **The pointers of a section** are its whole words that hold an address of the image. -/
theorem mem_pointers_iff {range : AddressRange} {start : UInt64} {contents : Bytes} {p : Pointer} :
    p ∈ pointers range start contents ↔
      ∃ index, (index + 1) * pointerSize ≤ contents.size ∧
        p.value = contents.word UInt64 (index * pointerSize) ∧ range.contains p.value ∧
        p.address.toNat = start.toNat + index * pointerSize := by
  unfold pointers pointerSize
  rw [List.mem_filterMap]
  constructor
  · rintro ⟨index, hlt, h⟩
    have hlt' := List.mem_range.1 hlt
    obtain ⟨⟨hvalue, haddress⟩, e⟩ := Option.ite_none_right_eq_some.1 h
    cases e
    refine ⟨index, by omega, rfl, hvalue, ?_⟩
    rw [UInt64.toNat_ofNat', Nat.mod_eq_of_lt haddress]
  · rintro ⟨index, hle, hvalue, hcontains, haddress⟩
    refine ⟨index, List.mem_range.2 (by omega), Option.ite_none_right_eq_some.2 ⟨⟨?_, ?_⟩, ?_⟩⟩
    · rw [← hvalue]
      exact hcontains
    · rw [← haddress]
      exact p.address.toNat_lt
    · rw [← hvalue, ← haddress, UInt64.ofNat_toNat]

end Rebase.Discovery
