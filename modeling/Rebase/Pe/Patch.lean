import Rebase.BaseRelocation.Table
import Rebase.Bytes.Edit
import Rebase.Pe.Plan

/-!
# Writing a relocation table

A plan is carried out by a list of edits. They write the table and zero bytes up to the end of its
section, then the fields of the headers that describe it: the section header, for a new section also
the number of sections and the size of the image, the base relocation directory, and last the flag
that says that an image has no relocations, which is cleared.
-/

namespace Rebase.Pe

/-- The characteristics of a section with initialised data that can be read. -/
def readableData : UInt32 := 0x40000040

/-- The flag of a section that can be dropped once the image is loaded. -/
def discardableFlag : UInt32 := 0x02000000

/-- The flag of an image without relocations. -/
def relocationsStripped : UInt16 := 1

/-- Characteristics without the flag of an image without relocations. -/
def withRelocations (characteristics : UInt16) : UInt16 :=
  characteristics &&& ~~~relocationsStripped

namespace NewSection

/-- The characteristics of a new section. -/
def characteristics (discardable : Bool) : UInt32 :=
  if discardable then readableData ||| discardableFlag else readableData

/-- The section header of a new section. -/
def header (place : NewSection) (tableSize : UInt32) (discardable : Bool) : Bytes :=
  relocationSectionName.toUTF8 ++ Bytes.zeros 2 ++
    Bytes.ofWord tableSize ++ Bytes.ofWord place.virtualAddress ++
    Bytes.ofWord place.rawSize ++ Bytes.ofWord place.rawOffset ++
    Bytes.zeros 12 ++ Bytes.ofWord (characteristics discardable)

end NewSection

namespace Plan

/-- The edits that write the table and the fields of its section. -/
def sectionEdits (h : Headers) (table : Bytes) (discardable : Bool) : Plan → List Edit
  | .replace index target =>
    [.overwrite target.rawOffset.toNat
        (table ++ Bytes.zeros (target.rawSize.toNat - table.size)),
      .overwrite (h.sectionHeaderOffset index + 8) (Bytes.ofWord (UInt32.ofNat table.size))]
  | .append place =>
    [.overwrite place.headerOffset (place.header (UInt32.ofNat table.size) discardable),
      .overwrite h.sectionCountOffset (Bytes.ofWord (UInt16.ofNat (h.sectionCount + 1))),
      .overwrite h.sizeOfImageOffset
        (Bytes.ofWord (UInt32.ofNat (place.virtualAddress.toNat + mappedSize table.size))),
      .padTo place.rawOffset.toNat,
      .append table,
      .padTo (place.rawOffset.toNat + place.rawSize.toNat)]

/-- The edits that tell the loader of the table. -/
def directoryEdits (h : Headers) (table : Bytes) (plan : Plan) : List Edit :=
  [.overwrite h.relocationDirectoryOffset
      (Bytes.ofWord plan.virtualAddress ++ Bytes.ofWord (UInt32.ofNat table.size)),
    .overwrite h.characteristicsOffset (Bytes.ofWord (withRelocations h.characteristics))]

/-- The edits that carry out a plan. -/
def edits (plan : Plan) (h : Headers) (table : Bytes) (discardable : Bool) : List Edit :=
  plan.sectionEdits h table discardable ++ plan.directoryEdits h table

/-- The file after a plan was carried out. -/
def apply (plan : Plan) (h : Headers) (table : Bytes) (discardable : Bool) (file : Bytes) : Bytes :=
  Edit.applyAll (plan.edits h table discardable) file

end Plan

/-- A table together with the place for it in an image, all found before the image is changed. -/
structure Patch where
  /-- The headers of the image. -/
  headers : Headers
  /-- Where the table goes. -/
  plan : Plan
  /-- What is written. -/
  table : BaseRelocation.Table

namespace Patch

/-- The patch that gives an image a table. -/
def make (file : Bytes) (table : BaseRelocation.Table) : Except Error Patch := do
  let headers ← (Headers.read file).mapError Error.pe
  let plan ← Plan.make headers file.size table.size
  pure { headers, plan, table }

/-- The image after a patch. -/
def apply (patch : Patch) (discardable : Bool) (file : Bytes) : Bytes :=
  patch.plan.apply patch.headers patch.table.bytes discardable file

end Patch

end Rebase.Pe
