import Rebase.Run
import Rebase.Text.Quoted

/-!
# The journal of a run

What a run finds and decides, step by step, for a user who wants to follow it. The journal is a
function of the same input as the run; a stage that fails leaves in it what it had found before, and
what comes `behind` it is left out. `Event.level` says how much detail an event is, `Event.message`
what is written for it.
-/

namespace Rebase

open Text (hex quoted)

/-- How much detail an event is, from the most to the least. -/
inductive Level where
  | trace
  | debug
  | info
  | warn
  deriving DecidableEq

namespace Level

/-- The name of a level. -/
def name : Level → String
  | .trace => "trace"
  | .debug => "debug"
  | .info => "info"
  | .warn => "warn"

end Level

/-- Something that a run found or decided. -/
inductive Event where
  /-- The header of the source image was accepted. -/
  | elfHeader (header : Elf.Header)
  /-- A section of the source image was read. -/
  | elfSection (index : Nat) (s : Elf.Section)
  /-- A record gave an address. -/
  | record (sectionName : String) (machine : Elf.Machine) (address : UInt64)
  /-- The search for pointers started. -/
  | scanning (s : Elf.Section) (range : Elf.AddressRange)
  /-- The search found a pointer. -/
  | pointer (found : Discovery.Pointer)
  /-- All addresses were found. -/
  | discovered (discovery : Discovery)
  /-- There was no address. -/
  | nothingFound
  /-- The headers of the destination image were accepted. -/
  | peHeaders (headers : Pe.Headers)
  /-- The relocation section cannot hold the table. -/
  | sectionTooSmall (s : Pe.Section) (tableSize : Nat)
  /-- The relocation section is written over. -/
  | replacing (s : Pe.Section) (tableSize : Nat)
  /-- A new section is appended. -/
  | appending (place : Pe.NewSection)
  /-- The destination is left as it is. -/
  | dryRun

namespace Event

/-- How much detail an event is. -/
def level : Event → Level
  | .elfSection .. | .record .. | .pointer _ => .trace
  | .elfHeader _ | .scanning .. | .discovered _ | .peHeaders _ | .replacing .. | .appending _ =>
    .debug
  | .nothingFound | .dryRun => .info
  | .sectionTooSmall .. => .warn

/-- What is written for an event. -/
def message : Event → String
  | .elfHeader h =>
    s!"[ELF] arch: {h.machine.name}, shoff: {hex h.sectionHeaderOffset.toNat}, " ++
      s!"shentsize: {h.sectionHeaderSize.toNat}, shnum: {h.sectionCount.toNat}, " ++
      s!"shstrndx: {h.nameTableIndex.toNat}"
  | .elfSection index s =>
    s!"[ELF] section {index}: {quoted s.name} type: {s.type.toNat} addr: {hex s.address.toNat} " ++
      s!"offset: {hex s.offset.toNat} size: {hex s.size.toNat}"
  | .record sectionName machine address =>
    s!"[Reloc] {sectionName}: {machine.relocationName machine.absoluteRelocation} " ++
      s!"at {hex address.toNat}"
  | .scanning s range =>
    s!"[Scan] image range [{hex range.low.toNat}, {hex range.high.toNat}), {s.name} " ++
      s!"at {hex s.address.toNat} size {hex s.size.toNat}"
  | .pointer found =>
    s!"[Scan] pointer {hex found.value.toNat} at {hex found.address.toNat}"
  | .discovered d =>
    s!"[Reloc] {d.total} offsets ({d.recordedCount} explicit, {d.scannedCount} from scan)"
  | .nothingFound => "no absolute relocations found"
  | .peHeaders h =>
    s!"[PE] sections: {h.sectionCount}, size of image: {hex h.sizeOfImage.toNat}, " ++
      s!"size of headers: {hex h.sizeOfHeaders.toNat}, " ++
      s!"section table at {hex h.sectionTableOffset}"
  | .sectionTooSmall s tableSize =>
    s!"existing .reloc ({hex s.rawSize.toNat} bytes) is too small for {hex tableSize} bytes; " ++
      "appending a new section and leaving the old one unused"
  | .replacing s tableSize =>
    s!"[Patch] replacing .reloc at {hex s.virtualAddress.toNat} " ++
      s!"(raw size {hex s.rawSize.toNat}, table {hex tableSize})"
  | .appending place =>
    s!"[Patch] appending .reloc at rva {hex place.virtualAddress.toNat}, " ++
      s!"file offset {hex place.rawOffset.toNat}, raw size {hex place.rawSize.toNat}"
  | .dryRun => "dry run, leaving the PE image untouched"

end Event

namespace Journal

/-- The results of a step for the elements of a list, up to the first for which it fails. -/
def successes {α β ε : Type} (step : α → Except ε β) : List α → List β
  | [] => []
  | x :: rest =>
    match step x with
    | .ok y => y :: successes step rest
    | .error _ => []

/-- The events behind a step. If it fails there are none. -/
def behind {ε α : Type} (step : Except ε α) (events : α → List Event) : List Event :=
  match step with
  | .ok a => events a
  | .error _ => []

/-- The events of reading the sections of a source image. -/
def ofSections (header : Elf.Header) (elf : Bytes) : List Event :=
  if header.sectionCount = 0 then
    []
  else
    behind (header.nameTable elf) fun names =>
      successes (fun index => (header.sectionAt elf names index).map (Event.elfSection index))
        (List.range header.sectionCount.toNat)

/-- The events of reading a source image. -/
def ofSource (elf : Bytes) : List Event :=
  behind (Elf.Header.read elf) fun header => .elfHeader header :: ofSections header elf

/-- The events of reading the records of a source image. -/
def ofRecords (elf : Bytes) (table : Elf.SectionTable) : List Event :=
  (successes
    (fun s => (Discovery.sectionAddresses table.machine elf s).map fun addresses =>
      addresses.map (Event.record s.name table.machine))
    (table.sections.filter Discovery.holdsRecords)).flatten

/-- The events of the search for pointers. -/
def ofScan (elf : Bytes) (table : Elf.SectionTable) : List Event :=
  match Discovery.scanTarget table table.sections with
  | none => []
  | some (s, range) =>
    .scanning s range ::
      behind (Discovery.scan elf table table.sections) fun found => found.map .pointer

/-- The events of the discovery of addresses. -/
def ofDiscovery (scan : Bool) (elf : Bytes) (table : Elf.SectionTable) : List Event :=
  ofRecords elf table ++
    behind (Discovery.recordedAddresses table.machine elf table.sections) fun _ =>
      (if scan then ofScan elf table else []) ++
        behind (Discovery.ofImage scan elf table) fun discovery => [.discovered discovery]

/-- The event of a plan for a table of some size. -/
def planned (tableSize : Nat) : Pe.Plan → Event
  | .replace _ s => .replacing s tableSize
  | .append place => .appending place

/-- The events of the choice of a place for a table. -/
def ofPlan (headers : Pe.Headers) (fileSize tableSize : Nat) : List Event :=
  let tooSmall :=
    match headers.relocationSection? with
    | some (s, _) =>
      if s.rawSize.toNat < tableSize ∧ tableSize < UInt32.size then
        [.sectionTooSmall s tableSize]
      else
        []
    | none => []
  tooSmall ++ behind (Pe.Plan.make headers fileSize tableSize) fun plan => [planned tableSize plan]

/-- The events of giving a destination image a table. -/
def ofPatch (dryRun : Bool) (pe : Bytes) (table : BaseRelocation.Table) : List Event :=
  behind (Pe.Headers.read pe) fun headers =>
    .peHeaders headers :: ofPlan headers pe.size table.size ++
      behind (Pe.Plan.make headers pe.size table.size) fun _ => if dryRun then [.dryRun] else []

/-- The events behind the discovery of addresses. -/
def ofAddresses (options : Options) (pe : Bytes) (discovery : Discovery) : List Event :=
  if discovery.total = 0 then
    [.nothingFound]
  else
    behind (BaseRelocation.Table.ofAddresses discovery.addresses.toList)
      (ofPatch options.dryRun pe)

/-- The events of a run. -/
def ofRun (options : Options) (elf pe : Bytes) : List Event :=
  ofSource elf ++
    behind (Elf.SectionTable.read elf) fun table =>
      ofDiscovery options.scan elf table ++
        behind (Discovery.ofImage options.scan elf table) (ofAddresses options pe)

end Journal

end Rebase
