import Rebase.Bytes.Basic
import Rebase.Error
import Rebase.Text.Utf8

/-!
# The headers of the destination image

The headers of an image say where the fields stand that a new relocation table changes. They are
found by following offsets: a field of the first 64 bytes gives the signature, behind it come a file
header of 20 bytes, an optional header of a stored size, and the section table. Only the 64-bit kind
with a slot for the base relocation directory is accepted.

`Headers` keeps these offsets and the values that are needed; the file itself stays with the caller.
-/

namespace Rebase.Pe

/-! ## §1 Sections -/

/-- A section of the destination image. -/
structure Section where
  /-- The name, without the zero bytes that fill it up. -/
  name : String
  /-- The size in memory. -/
  virtualSize : UInt32
  /-- The address in memory, relative to that of the image. -/
  virtualAddress : UInt32
  /-- The size of the contents in the file. -/
  rawSize : UInt32
  /-- Where the contents start in the file. -/
  rawOffset : UInt32
  characteristics : UInt32
  deriving DecidableEq

namespace Section

/-- The size of a section header in bytes. -/
def headerSize : Nat := 40

/-- The address after the last one that a section may take up. -/
def virtualEnd (s : Section) : Nat :=
  s.virtualAddress.toNat + max s.virtualSize.toNat s.rawSize.toNat

/-- Bytes without the zero bytes at their end. -/
def trimZeros (bytes : Bytes) : Bytes :=
  (bytes.data.toList.reverse.dropWhile (· = 0)).reverse.toByteArray

/-- The section that a section header describes. -/
def ofHeader (header : Bytes) : Section where
  name := Text.lossy (trimZeros (header.extract 0 8))
  virtualSize := header.word UInt32 8
  virtualAddress := header.word UInt32 12
  rawSize := header.word UInt32 16
  rawOffset := header.word UInt32 20
  characteristics := header.word UInt32 36

/-- The contents of a section, as far as they are used in memory. -/
def stored? (s : Section) (file : Bytes) : Option Bytes :=
  file.slice? s.rawOffset.toNat s.virtualSize.toNat

end Section

/-- The name of the section that holds base relocations. -/
def relocationSectionName : String := ".reloc"

/-! ## §2 Headers -/

/-- The headers of a destination image. -/
structure Headers where
  /-- Where the file header starts. -/
  fileHeaderOffset : Nat
  /-- Where the optional header starts. -/
  optionalHeaderOffset : Nat
  /-- Where the section table starts. -/
  sectionTableOffset : Nat
  characteristics : UInt16
  sizeOfImage : UInt32
  sizeOfHeaders : UInt32
  /-- The sections in the order of the table. -/
  sections : List Section

namespace Headers

/-- Where the offset of the signature is stored. -/
def signatureField : Nat := 0x3C

/-- The signature of the format. -/
def signature : UInt32 := 0x4550

/-- The index of the base relocation directory among the data directories. -/
def relocationDirectoryIndex : Nat := 5

/-- Where the data directories start in the optional header. -/
def directoriesOffset : Nat := 112

/-- The size of a data directory in bytes. -/
def directorySize : Nat := 8

/-- How many sections an image has. -/
def sectionCount (h : Headers) : Nat := h.sections.length

/-- Where the section header of an index stands. -/
def sectionHeaderOffset (h : Headers) (index : Nat) : Nat :=
  h.sectionTableOffset + index * Section.headerSize

/-- Where the section table ends. -/
def sectionTableEnd (h : Headers) : Nat := h.sectionHeaderOffset h.sectionCount

/-- Where the number of sections is stored. -/
def sectionCountOffset (h : Headers) : Nat := h.fileHeaderOffset + 2

/-- Where the characteristics of the image are stored. -/
def characteristicsOffset (h : Headers) : Nat := h.fileHeaderOffset + 18

/-- Where the size of the image is stored. -/
def sizeOfImageOffset (h : Headers) : Nat := h.optionalHeaderOffset + 56

/-- Where the base relocation directory stands. -/
def relocationDirectoryOffset (h : Headers) : Nat :=
  h.optionalHeaderOffset + directoriesOffset + relocationDirectoryIndex * directorySize

/-- The last section with the name of the relocation section, and its index. -/
def relocationSection? (h : Headers) : Option (Section × Nat) :=
  (h.sections.zipIdx.filter fun (s, _) => s.name = relocationSectionName).getLast?

/-- The section with the highest address and its index; of several, the last in the table. -/
def highestSection? (h : Headers) : Option (Section × Nat) :=
  h.sections.zipIdx.foldl (fun best candidate =>
    match best with
    | none => some candidate
    | some found =>
      if found.1.virtualAddress ≤ candidate.1.virtualAddress then some candidate else some found)
    none

/-! ## §3 Reading -/

/-- A header field, which has to be inside the file. -/
def required {α : Type} : Option α → Except PeFault α
  | some value => .ok value
  | none => .error .truncated

/-- Checks the signature of the format. -/
def checkSignature (found : Option UInt32) : Except PeFault Unit :=
  if found = some signature then .ok () else .error .badSignature

/-- Checks that the optional header is of the 64-bit kind. -/
def checkMagic (magic : UInt16) : Except PeFault Unit :=
  if magic = 0x20B then .ok ()
  else if magic = 0x10B then .error .only32Bit
  else .error (.unknownOptionalHeader magic)

/-- Checks that there is a slot for the base relocation directory: the directories have to reach so
far by their number and by the size of the optional header. -/
def checkDirectory (directoryCount : UInt32) (optionalHeaderSize : UInt16) : Except PeFault Unit :=
  if directoryCount.toNat ≤ relocationDirectoryIndex ∨
      optionalHeaderSize.toNat < directoriesOffset + (relocationDirectoryIndex + 1) * directorySize
  then .error .noRelocationDirectory
  else .ok ()

/-- The section of an index, when the section table starts at `table`. -/
def readSection (file : Bytes) (table index : Nat) : Except PeFault Section :=
  match file.slice? (table + index * Section.headerSize) Section.headerSize with
  | some header => .ok (Section.ofHeader header)
  | none => .error (.sectionHeaderTruncated index)

/-- The headers of a file. -/
def read (file : Bytes) : Except PeFault Headers := do
  let signatureOffset ← required (file.word? UInt32 signatureField)
  checkSignature (file.word? UInt32 signatureOffset.toNat)
  let fileHeader := signatureOffset.toNat + 4
  let count ← required (file.word? UInt16 (fileHeader + 2))
  let optionalHeaderSize ← required (file.word? UInt16 (fileHeader + 16))
  let characteristics ← required (file.word? UInt16 (fileHeader + 18))
  let optionalHeader := fileHeader + 20
  let magic ← required (file.word? UInt16 optionalHeader)
  checkMagic magic
  let sizeOfImage ← required (file.word? UInt32 (optionalHeader + 56))
  let sizeOfHeaders ← required (file.word? UInt32 (optionalHeader + 60))
  let directoryCount ← required (file.word? UInt32 (optionalHeader + 108))
  checkDirectory directoryCount optionalHeaderSize
  let table := optionalHeader + optionalHeaderSize.toNat
  let sections ← (List.range count.toNat).mapM (readSection file table)
  pure {
    fileHeaderOffset := fileHeader
    optionalHeaderOffset := optionalHeader
    sectionTableOffset := table
    characteristics
    sizeOfImage
    sizeOfHeaders
    sections }

end Headers

end Rebase.Pe
