import Rebase.Discovery.Basic
import Rebase.Elf.SectionTable
import Rebase.Pe.Patch

/-!
# Runs

A run takes a source image and the destination image that was made of it, finds the addresses that
need a base relocation in the one, and writes their table into the other. Everything that can fail
comes first (`prepareIn`); only then is the destination changed (`finish`), and not in a dry run.

The sections of the source are found by name, and nothing fixes the order in which they are listed,
so it is a parameter of every stage that lists them. `run` lists them in the order of their names.

The main statements are `runIn_fst`, that a run ends as its preparation does, and `runIn_snd`, that
a run which fails, finds nothing or is a dry one leaves the destination as it was.
-/

namespace Rebase

/-- What a user can choose. -/
structure Options where
  /-- Whether a new relocation section can be dropped once the image is loaded. -/
  discardable : Bool := true
  /-- Whether pointers without a record are searched for. -/
  scan : Bool := true
  /-- Whether the destination is left as it is. -/
  dryRun : Bool := false
  deriving DecidableEq

/-- What a run did. -/
structure Report where
  /-- How many addresses the table has. -/
  total : Nat
  /-- How many of them records gave. -/
  recorded : Nat
  /-- How many of them only the search gave. -/
  scanned : Nat
  /-- The size of the table in bytes. -/
  tableSize : Nat
  placement : Pe.Placement
  deriving DecidableEq

/-- How a run ended. -/
inductive Outcome where
  /-- The source holds no absolute address; the destination was not looked at. -/
  | noRelocations
  /-- The table was built and, if the run was not a dry one, written. -/
  | patched (report : Report)
  deriving DecidableEq

namespace Report

/-- A report in words. -/
def text (r : Report) : String :=
  s!"{r.total} relocations ({r.recorded} from .rela + {r.scanned} from scan), " ++
    s!"{r.tableSize} bytes of .reloc data"

end Report

/-- A run that is ready to be carried out. -/
structure Job where
  discovery : Discovery
  patch : Pe.Patch

namespace Job

/-- What a job does. -/
def report (job : Job) : Report where
  total := job.discovery.total
  recorded := job.discovery.recordedCount
  scanned := job.discovery.scannedCount
  tableSize := job.patch.table.size
  placement := job.patch.plan.placement

end Job

/-! ## Stages -/

/-- The addresses of a source image that need a base relocation, when its sections are listed in a
given order. -/
def discoverIn (order : Elf.SectionTable → List Elf.Section) (scan : Bool) (elf : Bytes) :
    Except Error Discovery := do
  let table ← Elf.SectionTable.read elf
  (Discovery.inOrder scan elf table (order table)).mapError Error.elfSection

/-- The job for the addresses that were found in a source. There is none where there is no address
to relocate. -/
def jobFor (discovery : Discovery) (pe : Bytes) : Except Error (Option Job) :=
  if discovery.total = 0 then
    pure none
  else do
    let table ← (BaseRelocation.Table.ofAddresses discovery.addresses.toList).mapError
      Error.relocation
    let patch ← Pe.Patch.make pe table
    pure (some { discovery, patch })

/-- Everything that can fail in a run. -/
def prepareIn (order : Elf.SectionTable → List Elf.Section) (scan : Bool) (elf pe : Bytes) :
    Except Error (Option Job) := do
  let discovery ← discoverIn order scan elf
  jobFor discovery pe

/-- How a run ends that was prepared, and the destination image after it. -/
def finish (options : Options) (pe : Bytes) :
    Except Error (Option Job) → Except Error Outcome × Bytes
  | .error e => (.error e, pe)
  | .ok none => (.ok .noRelocations, pe)
  | .ok (some job) =>
    (.ok (.patched job.report),
      if options.dryRun then pe else job.patch.apply options.discardable pe)

/-- A run: how it ends, and the destination image after it. -/
def runIn (order : Elf.SectionTable → List Elf.Section) (options : Options) (elf pe : Bytes) :
    Except Error Outcome × Bytes :=
  finish options pe (prepareIn order options.scan elf pe)

/-! ## The order of the names -/

/-- The addresses of a source image that need a base relocation. -/
def discover (scan : Bool) (elf : Bytes) : Except Error Discovery :=
  discoverIn Elf.SectionTable.sections scan elf

/-- Everything that can fail in a run that lists the sections in the order of their names. -/
def prepare (scan : Bool) (elf pe : Bytes) : Except Error (Option Job) :=
  prepareIn Elf.SectionTable.sections scan elf pe

/-- A run that lists the sections in the order of their names. -/
def run (options : Options) (elf pe : Bytes) : Except Error Outcome × Bytes :=
  runIn Elf.SectionTable.sections options elf pe

theorem run_eq_finish (options : Options) (elf pe : Bytes) :
    run options elf pe = finish options pe (prepare options.scan elf pe) := rfl

/-! ## Results -/

variable (order : Elf.SectionTable → List Elf.Section) {options : Options} {elf pe : Bytes}

/-- **A run ends as its preparation does**, whatever else the user chose. -/
theorem runIn_fst (options : Options) (elf pe : Bytes) :
    (runIn order options elf pe).1 = (prepareIn order options.scan elf pe).map
      fun job => (job.map fun j => Outcome.patched j.report).getD .noRelocations := by
  unfold runIn
  cases prepareIn order options.scan elf pe with
  | error e => rfl
  | ok job => cases job <;> rfl

/-- Only whether pointers are searched for has a part in how a run ends. -/
theorem runIn_fst_congr {first second : Options} (hscan : first.scan = second.scan)
    (elf pe : Bytes) : (runIn order first elf pe).1 = (runIn order second elf pe).1 := by
  rw [runIn_fst, runIn_fst, hscan]

/-- **A run that fails, finds nothing or is a dry one** leaves the destination as it was. -/
theorem runIn_snd (h : (∃ e, (runIn order options elf pe).1 = .error e) ∨
    (runIn order options elf pe).1 = .ok .noRelocations ∨ options.dryRun = true) :
    (runIn order options elf pe).2 = pe := by
  unfold runIn at h ⊢
  cases hprepared : prepareIn order options.scan elf pe with
  | error e => rfl
  | ok found =>
    rw [hprepared] at h
    cases found with
    | none => rfl
    | some job =>
      rcases h with ⟨e, he⟩ | hnone | hdry
      · cases he
      · cases hnone
      · exact if_pos hdry

end Rebase
