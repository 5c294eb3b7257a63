import Rebase.Proofs.Elf.Appending
import Rebase.Proofs.Run.Options
import Rebase.Proofs.Run.Reordering

/-!
# Runs do not see bytes behind the source

A source that can be read is read from the bytes of its parts, and so are the addresses in it. When
other bytes follow it, a table of symbols for debugging or another image, the same addresses are
found, and a run reports and writes the same.

- **Discovery**: `inOrder_append`, from the contents of one section to those of all that are read
- **Runs**: `runIn_congr`, a run looks at the source only for what is discovered in it, and
  `run_append`
-/

namespace Rebase

open Fallible
open Elf (Machine Section SectionTable)
open Pe (bareImage)

/-! ## §1 Discovery -/

namespace Discovery

variable {file more : Bytes} (table : SectionTable) (order : List Section)

private theorem sectionAddresses_append (machine : Machine) (s : Section) :
    Below (sectionAddresses machine file s) (sectionAddresses machine (file ++ more) s) := by
  unfold sectionAddresses
  split
  · exact .refl _
  · exact s.contents_append.map _

private theorem recordedAddresses_append (machine : Machine) :
    Below (recordedAddresses machine file order) (recordedAddresses machine (file ++ more) order) :=
  (Below.mapM (sectionAddresses_append machine) _).map _

/-- Which section is searched, and for which range, is known from the section table alone. -/
private theorem scannedAddresses_append :
    Below (scannedAddresses file table order) (scannedAddresses (file ++ more) table order) := by
  unfold scannedAddresses scan
  cases scanTarget table order with
  | none => exact .refl _
  | some target => exact (target.1.contents_append.map _).map _

/-- **What is discovered** in an image is discovered in it with bytes behind it, for the same
section table. -/
theorem inOrder_append (scan : Bool) :
    Below (inOrder scan file table order) (inOrder scan (file ++ more) table order) := by
  unfold inOrder
  refine (recordedAddresses_append order table.machine).bind fun recorded => ?_
  cases scan with
  | false => exact .refl _
  | true => exact (scannedAddresses_append table order).bind fun scanned => .refl _

end Discovery

/-! ## §2 Runs -/

section Discovered

variable {order order' : SectionTable → List Section} {options : Options} {scan : Bool}
  {elf elf' more : Bytes} {d : Discovery}

private theorem discoverIn_append (order : SectionTable → List Section) (scan : Bool) :
    Below (discoverIn order scan elf) (discoverIn order scan (elf ++ more)) := by
  unfold discoverIn
  refine SectionTable.read_append.bind fun table => ?_
  exact (Discovery.inOrder_append table (order table) scan).mapError Error.elfSection

end Discovered

/-- **Bytes behind a source do not matter.** If a source can be read and its addresses found, with
its sections listed in some order, then with any bytes behind it the same section table is read, and
with the sections listed in any order the same is found, and a run ends in the same way and leaves
the same destination, whatever that was. -/
theorem run_append (options : Options) {order : SectionTable → List Section}
    (horder : ∀ table, (order table).Perm table.sections) {elf : Bytes} {table : SectionTable}
    {d : Discovery}
    (hread : SectionTable.read elf = .ok table) (hfound : discoverIn order options.scan elf = .ok d)
    (more : Bytes) :
    SectionTable.read (elf ++ more) = .ok table ∧
      (∀ order' : SectionTable → List Section, (∀ table, (order' table).Perm table.sections) →
        discoverIn order' options.scan (elf ++ more) = .ok d ∧
        ∀ pe, runIn order' options (elf ++ more) pe = runIn order options elf pe) ∧
      discover options.scan (elf ++ more) = .ok d ∧
      ∀ pe, run options (elf ++ more) pe = run options elf pe := by
  have hfound' : ∀ order' : SectionTable →
      List Section, (∀ table, (order' table).Perm table.sections) →
      discoverIn order' options.scan (elf ++ more) = .ok d := fun order' horder' =>
    (discoverIn_perm horder horder' _ _).eq_ok_iff.mp
      (discoverIn_append order options.scan d hfound)
  -- The order of the names is one of the orders.
  have hnames : ∀ table : SectionTable, table.sections.Perm table.sections := fun table => .refl _
  refine ⟨SectionTable.read_append table hread,
    fun order' horder' => ⟨hfound' order' horder', fun pe => ?_⟩, ?_, ?_⟩
  · exact runIn_congr ((hfound' order' horder').trans hfound.symm) pe
  · exact hfound' _ hnames
  · have hnamed := (discoverIn_perm horder hnames options.scan elf).eq_ok_iff.mp hfound
    exact fun pe => runIn_congr ((hfound' _ hnames).trans hnamed.symm) pe

/-- A whole image behind another one changes nothing: the record and the pointers of the first one
are found. -/
theorem run_append_recordAndPointers :
    ∃ table d, (∀ table : SectionTable, table.sections.reverse.Perm table.sections) ∧
      SectionTable.read recordAndPointers = .ok table ∧
      discoverIn (fun table => table.sections.reverse) true recordAndPointers = .ok d ∧
      d.addresses.toList = [0x1000, 0x1008] ∧
      SectionTable.read (recordAndPointers ++ oneRecord) = .ok table ∧
      discover true (recordAndPointers ++ oneRecord) = .ok d ∧
      (run {} (recordAndPointers ++ oneRecord) bareImage).1 =
        .ok (.patched ⟨2, 1, 1, 12, .appended⟩) := by
  have hreverse : ∀ table : SectionTable, table.sections.reverse.Perm table.sections :=
    fun table => List.reverse_perm table.sections
  have hfacts : (discoverIn (fun table => table.sections.reverse) true recordAndPointers).map
      (fun d => d.addresses.toList) = .ok [0x1000, 0x1008] := by
    decide +kernel
  have hrun : (run {} recordAndPointers bareImage).1 = .ok (.patched ⟨2, 1, 1, 12, .appended⟩) := by
    decide +kernel
  obtain ⟨d, hfound, hlist⟩ := map_eq_ok_iff.mp hfacts
  obtain ⟨table, hread, _⟩ := bind_eq_ok_iff.mp hfound
  obtain ⟨hread', _, hfound', hsame⟩ := run_append {} hreverse hread hfound oneRecord
  refine ⟨table, d, hreverse, hread, hfound, hlist, hread', hfound', ?_⟩
  rw [hsame bareImage]
  exact hrun

end Rebase
