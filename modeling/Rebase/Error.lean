import Rebase.Text.Hex

/-!
# Errors

Everything that can go wrong, as causes. Each stage of the program has its own type of faults, so
the type of a stage says which faults it can report; `Error` is their union, and `Error.message` the
one place where an error becomes text.

- `FileFault`: a path cannot be read or written
- `ElfHeaderFault`, `ElfSectionFault`: the source image is not what it has to be
- `PeFault`: the destination image is not what it has to be
- `CapacityFault`: the destination image has no room for one more section
- `RelocationFault`: a relocation table cannot be built or decoded
-/

namespace Rebase

open Text (hex)

/-- Why a file could not be read or written. -/
inductive FileFault where
  /-- Nothing exists at the path. -/
  | notFound
  /-- A directory is at the path. -/
  | isDirectory
  /-- The path leads through something that is not a directory. -/
  | notDirectory
  /-- The path, or a name on it, is too long. -/
  | nameTooLong
  /-- Any other reason, as the operating system words it. -/
  | refused (reason : String)
  deriving DecidableEq

/-- Why the header of the source image was not accepted. -/
inductive ElfHeaderFault where
  /-- The file is shorter than a header, or does not start with the four magic bytes. -/
  | badMagic
  /-- The image is not of the 64-bit class. -/
  | not64Bit
  /-- The image is not stored with the least significant byte first. -/
  | notLittleEndian
  /-- The image is for a machine that is not supported. -/
  | unsupportedMachine (code : UInt16)
  deriving DecidableEq

/-- Why the sections of the source image, or their contents, could not be read. -/
inductive ElfSectionFault where
  /-- The entries of the section header table are too small to hold a section header. -/
  | headerSizeTooSmall (size : Nat)
  /-- The section that should hold the names is not in the table. -/
  | nameTableOutOfRange (index count : Nat)
  /-- The offset of a section header does not fit 64 bits. -/
  | headerOffsetOverflow
  /-- A section header is not inside the file. -/
  | headerOutsideFile (offset : Nat)
  /-- The name of a section does not end inside the file. -/
  | unterminatedName (index : Nat)
  /-- The name of a section is not text. -/
  | malformedName (index : Nat)
  /-- The records of a relocation section are too small to hold an offset and a type. -/
  | recordTooSmall (name : String) (size : UInt64)
  /-- The contents of a section are not inside the file. -/
  | contentsOutsideFile (name : String) (offset size : UInt64)
  deriving DecidableEq

/-- Why the headers of the destination image were not accepted. -/
inductive PeFault where
  /-- A header field is not inside the file. -/
  | truncated
  /-- The signature of the image format is missing. -/
  | badSignature
  /-- The image is of the 32-bit kind. -/
  | only32Bit
  /-- The optional header is of an unknown kind. -/
  | unknownOptionalHeader (magic : UInt16)
  /-- The optional header has no slot for the base relocation directory. -/
  | noRelocationDirectory
  /-- A section header is not inside the file. -/
  | sectionHeaderTruncated (index : Nat)
  /-- The contents of the relocation section are not inside the file. -/
  | relocationsOutsideFile (first last : Nat)
  /-- The place for a new section header is not inside the file. -/
  | headerAreaOutsideFile (last : Nat)
  deriving DecidableEq

/-- Why the destination image has no room for one more section. -/
inductive CapacityFault where
  /-- The number of sections is at its limit. -/
  | sectionTableFull (count : Nat)
  /-- The header area has no room for one more section header. -/
  | noHeaderRoom (tableEnd sizeOfHeaders : Nat)
  /-- The file or the image would outgrow 32 bits. -/
  | imageTooLarge
  deriving DecidableEq

/-- Why a base relocation table could not be built, decoded or placed. -/
inductive RelocationFault where
  /-- An address does not fit 32 bits. -/
  | addressTooLarge (address : UInt64)
  /-- The size of the table does not fit 32 bits. -/
  | tableTooLarge
  /-- Fewer bytes than a block header are left. -/
  | truncatedBlockHeader (offset : Nat)
  /-- The stored size of a block is odd or smaller than its header. -/
  | badBlockSize (size offset : Nat)
  /-- The stored size of a block goes past the end of the table. -/
  | blockOutsideTable (offset : Nat)
  deriving DecidableEq

/-- Anything that can go wrong in a run. -/
inductive Error where
  | file (path : String) (fault : FileFault)
  | elfHeader (fault : ElfHeaderFault)
  | elfSection (fault : ElfSectionFault)
  | pe (fault : PeFault)
  | capacity (fault : CapacityFault)
  | relocation (fault : RelocationFault)
  deriving DecidableEq

/-! ## Wording -/

namespace FileFault

/-- The wording of a file fault. -/
def detail : FileFault → String
  | .notFound => "No such file or directory (os error 2)"
  | .isDirectory => "Is a directory (os error 21)"
  | .notDirectory => "Not a directory (os error 20)"
  | .nameTooLong => "File name too long (os error 36)"
  | .refused reason => reason

end FileFault

namespace ElfHeaderFault

/-- The wording of a fault of the source image's header. -/
def detail : ElfHeaderFault → String
  | .badMagic => "invalid ELF magic"
  | .not64Bit => "not a 64-bit ELF file"
  | .notLittleEndian => "not a little-endian ELF file"
  | .unsupportedMachine code => s!"unsupported e_machine {hex code.toNat}"

end ElfHeaderFault

namespace ElfSectionFault

/-- The wording of a fault of the source image's sections. -/
def detail : ElfSectionFault → String
  | .headerSizeTooSmall size => s!"section header entry size {size} is too small"
  | .nameTableOutOfRange index count =>
    s!"section name table index {index} out of range ({count} sections)"
  | .headerOffsetOverflow => "section header offset overflow"
  | .headerOutsideFile offset => s!"section header at {hex offset} lies outside the file"
  | .unterminatedName index => s!"unterminated name for section {index}"
  | .malformedName index => s!"section {index} name is not valid UTF-8"
  | .recordTooSmall name size =>
    s!"{name} has entry size {size.toNat}, too small for a RELA record"
  | .contentsOutsideFile name offset size =>
    s!"contents of section {name} ({hex offset.toNat}+{hex size.toNat}) lie outside the file"

end ElfSectionFault

namespace PeFault

/-- The wording of a fault of the destination image's headers. -/
def detail : PeFault → String
  | .truncated => "truncated PE headers"
  | .badSignature => "invalid PE signature"
  | .only32Bit => "not PE32+ (found PE32)"
  | .unknownOptionalHeader magic => s!"not PE32+ (optional header magic {hex magic.toNat})"
  | .noRelocationDirectory => "optional header has no base relocation directory"
  | .sectionHeaderTruncated index => s!"section header {index} is truncated"
  | .relocationsOutsideFile first last =>
    s!".reloc raw data {hex first}..{hex last} lies outside the file"
  | .headerAreaOutsideFile last =>
    s!"header area ends at {hex last}, past the end of the file"

end PeFault

namespace CapacityFault

/-- The wording of a lack of room. -/
def detail : CapacityFault → String
  | .sectionTableFull count => s!"section table already holds {count} sections"
  | .noHeaderRoom tableEnd sizeOfHeaders =>
    "no room in PE header area for new section " ++
      s!"(headers_end={hex tableEnd}, SizeOfHeaders={hex sizeOfHeaders})"
  | .imageTooLarge => "new section does not fit the 32-bit image layout"

end CapacityFault

namespace RelocationFault

/-- The wording of a fault of a relocation table. -/
def detail : RelocationFault → String
  | .addressTooLarge address => s!"RVA {hex address.toNat} does not fit a PE image"
  | .tableTooLarge => "relocation table exceeds 4 GiB"
  | .truncatedBlockHeader offset => s!"truncated relocation block header at {hex offset}"
  | .badBlockSize size offset => s!"invalid relocation block size {hex size} at {hex offset}"
  | .blockOutsideTable offset => s!"relocation block at {hex offset} runs past the table"

end RelocationFault

/-- The part of the work that an error belongs to. -/
inductive ErrorKind where
  | file
  | elfHeader
  | elfSection
  | pe
  | capacity
  | relocation
  deriving DecidableEq

namespace ErrorKind

/-- What every message of one kind starts with. -/
def heading : ErrorKind → String
  | .file => "I/O error"
  | .elfHeader => "ELF header parsing error"
  | .elfSection => "ELF section parsing error"
  | .pe => "PE header parsing error"
  | .capacity => "PE capacity error"
  | .relocation => "Relocation error"

/-- A message: the heading of its kind, then the detail. -/
def message (kind : ErrorKind) (detail : String) : String := kind.heading ++ ": " ++ detail

end ErrorKind

namespace Error

/-- The part of the work that an error belongs to. -/
def kind : Error → ErrorKind
  | .file .. => .file
  | .elfHeader _ => .elfHeader
  | .elfSection _ => .elfSection
  | .pe _ => .pe
  | .capacity _ => .capacity
  | .relocation _ => .relocation

/-- What an error says beyond its kind. -/
def detail : Error → String
  | .file path fault => path ++ ": " ++ fault.detail
  | .elfHeader fault => fault.detail
  | .elfSection fault => fault.detail
  | .pe fault => fault.detail
  | .capacity fault => fault.detail
  | .relocation fault => fault.detail

/-- An error as the user reads it. -/
def message (error : Error) : String := error.kind.message error.detail

end Error

end Rebase
