import Rebase.Bytes.Basic
import Rebase.Error

/-!
# Sections of the source image

A section is a named range of addresses together with the place of its contents in the file. Only
what the search for relocations needs is kept of a section header.

The main statements are `toNat_finish`, which says that the end of a section stops at the last
address there is, and `contents_eq_ok_iff`, which says when the contents of a section can be had.
-/

namespace Rebase.Elf

/-- A section of the source image. -/
structure Section where
  /-- The name, found through the image's table of names. -/
  name : String
  /-- The address at which the section is loaded, or zero. -/
  address : UInt64
  /-- Where its contents start in the file. -/
  offset : UInt64
  /-- Its size in bytes. -/
  size : UInt64
  /-- What it holds. -/
  type : UInt32
  /-- The size of one entry, for a section that holds a table. -/
  entrySize : UInt64
  deriving DecidableEq

namespace Section

/-- The size of a section header in bytes. -/
def headerByteSize : Nat := 64

/-- Where the name stands in the table of names, from a section header. -/
def nameOffset (header : Bytes) : Nat := (header.word UInt32 0).toNat

/-- The section of a name, from its section header. -/
def ofHeader (name : String) (header : Bytes) : Section where
  name
  address := header.word UInt64 16
  offset := header.word UInt64 24
  size := header.word UInt64 32
  type := header.word UInt32 4
  entrySize := header.word UInt64 56

/-- Whether a section takes up part of the loaded image. -/
def isMapped (s : Section) : Bool := 0 < s.address && 0 < s.size

/-- The address after the last one of a section, or the last address there is. -/
def finish (s : Section) : UInt64 :=
  if s.address.toNat + s.size.toNat < UInt64.size then s.address + s.size else 0xFFFFFFFFFFFFFFFF

/-- The contents of a section. -/
def contents (s : Section) (file : Bytes) : Except ElfSectionFault Bytes :=
  match file.slice? s.offset.toNat s.size.toNat with
  | some bytes => .ok bytes
  | none => .error (.contentsOutsideFile s.name s.offset s.size)

theorem toNat_finish (s : Section) :
    s.finish.toNat = if s.address.toNat + s.size.toNat < UInt64.size
      then s.address.toNat + s.size.toNat else UInt64.size - 1 := by
  unfold finish
  split
  · next h => rw [UInt64.toNat_add, Nat.mod_eq_of_lt h]
  · rfl

/-- **The contents of a section** are there exactly when their range is inside the file. -/
theorem contents_eq_ok_iff {s : Section} {file bytes : Bytes} :
    s.contents file = .ok bytes ↔
      s.offset.toNat + s.size.toNat ≤ file.size ∧
        bytes = file.extract s.offset.toNat (s.offset.toNat + s.size.toNat) := by
  rw [← Bytes.slice?_eq_some_iff]
  unfold contents
  split <;> simp_all

/-- The contents of a section are a slice of the file. -/
theorem slice?_of_contents {s : Section} {file bytes : Bytes} (h : s.contents file = .ok bytes) :
    file.slice? s.offset.toNat s.size.toNat = some bytes :=
  Bytes.slice?_eq_some_iff.2 (contents_eq_ok_iff.1 h)

/-- Contents that are not inside the file are reported with their range. -/
theorem contents_eq_error_iff {s : Section} {file : Bytes} {fault : ElfSectionFault} :
    s.contents file = .error fault ↔
      file.size < s.offset.toNat + s.size.toNat ∧
        fault = .contentsOutsideFile s.name s.offset s.size := by
  rw [← Bytes.slice?_eq_none_iff]
  unfold contents
  cases file.slice? s.offset.toNat s.size.toNat <;> simp [eq_comm]

end Section

end Rebase.Elf
