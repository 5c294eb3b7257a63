import Rebase.Bytes.Basic
import Rebase.Elf.Machine
import Rebase.Error

/-!
# The header of the source image

The first 64 bytes of the image. Only 64-bit images, stored with the least significant byte first
and made for a supported machine, are accepted. The fields are checked in the order in which they
stand, and the first one that is wrong is reported.
-/

namespace Rebase.Elf

/-- The header of a source image. The machine is held as such; the other fields as they are
stored. -/
structure Header where
  /-- The machine of the image. -/
  machine : Machine
  /-- The first sixteen bytes of the image. -/
  ident : Bytes
  /-- What the image is: a program, a library, an object. -/
  fileType : UInt16
  version : UInt32
  entry : UInt64
  programHeaderOffset : UInt64
  /-- Where the section header table starts. -/
  sectionHeaderOffset : UInt64
  flags : UInt32
  headerSize : UInt16
  programHeaderSize : UInt16
  programHeaderCount : UInt16
  /-- The distance between two section headers. -/
  sectionHeaderSize : UInt16
  sectionCount : UInt16
  /-- The index of the section that holds the names of the sections. -/
  nameTableIndex : UInt16

namespace Header

/-- The size of a header in bytes. -/
def byteSize : Nat := 64

/-- What the first four bytes of every image spell, as a number. -/
def magic : UInt32 := 0x464C457F

/-- The header at the start of a file. -/
def read (file : Bytes) : Except ElfHeaderFault Header :=
  match file.slice? 0 byteSize with
  | none => .error .badMagic
  | some raw =>
    if raw.word UInt32 0 ≠ magic then .error .badMagic
    else if raw.byte 4 ≠ 2 then .error .not64Bit
    else if raw.byte 5 ≠ 1 then .error .notLittleEndian
    else
      match Machine.ofCode? (raw.word UInt16 18) with
      | none => .error (.unsupportedMachine (raw.word UInt16 18))
      | some machine => .ok {
          machine
          ident := raw.extract 0 16
          fileType := raw.word UInt16 16
          version := raw.word UInt32 20
          entry := raw.word UInt64 24
          programHeaderOffset := raw.word UInt64 32
          sectionHeaderOffset := raw.word UInt64 40
          flags := raw.word UInt32 48
          headerSize := raw.word UInt16 52
          programHeaderSize := raw.word UInt16 54
          programHeaderCount := raw.word UInt16 56
          sectionHeaderSize := raw.word UInt16 58
          sectionCount := raw.word UInt16 60
          nameTableIndex := raw.word UInt16 62 }

end Header

end Rebase.Elf
