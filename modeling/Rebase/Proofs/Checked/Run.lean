import Rebase.Proofs.Checked.Discovery
import Rebase.Proofs.Checked.Table
import Rebase.Proofs.Checked.Writes
import Rebase.Proofs.Run.RoundTrip

/-!
# Runs on a machine

A run with operations that can stop the machine. The sections of the source are found by name, and a
machine may list them in any order, so the order is a parameter here.

The main statement is `run_eq_some_of_size_le`: no run on buffers that a machine can have stops it,
and a run that fails, finds nothing to relocate or is a dry one leaves the destination as it was.
-/

namespace Rebase.Checked

open BaseRelocation Fallible Pe
open Elf (SectionTable)

/-! ## §1 Preparation -/

/-- What is written in a run, and its report. -/
structure Work where
  report : Report
  headers : Headers
  plan : Plan
  table : Bytes

/-- The work of a job. -/
def Work.ofJob (job : Job) : Work where
  report := job.report
  headers := job.patch.headers
  plan := job.patch.plan
  table := job.patch.table.bytes

/-- Everything that can fail in a run, with operations that can stop the machine. -/
def prepare (order : SectionTable → List Elf.Section) (scan : Bool) (elf pe : Bytes) :
    Guarded Error (Option Work) := do
  let sections ← sectionTable elf
  let discovery ← ExceptT.adapt Error.elfSection (discoverIn scan elf sections (order sections))
  let scanned ← sub discovery.total discovery.recordedCount
  if discovery.total = 0 then
    pure none
  else do
    let (_, bytes) ← ExceptT.adapt Error.relocation (table discovery.addresses.toList)
    let headers ← ExceptT.adapt Error.pe (readHeaders pe)
    let plan ← makePlan headers pe.size bytes.size
    pure (some {
      report := ⟨discovery.total, discovery.recordedCount, scanned, bytes.size, plan.placement⟩
      headers
      plan
      table := bytes })

section Prepared

variable {elf pe : Bytes} (helf : elf.size ≤ maxBufferSize) (hpe : pe.size ≤ maxBufferSize)

include helf hpe

/-- **Preparing a run does not stop the machine**, in whatever order the sections are listed. -/
theorem prepare_endsAs (order : SectionTable → List Elf.Section) (scan : Bool) :
    EndsAs (prepare order scan elf pe)
      ((prepareIn order scan elf pe).map fun job => job.map Work.ofJob) := by
  unfold prepare prepareIn Rebase.discoverIn jobFor
  rw [bind_assoc, bind_map]
  refine (sectionTable_endsAs helf).bind fun sections _ => ?_
  rw [bind_map]
  refine ((discoverIn_endsAs helf scan sections _).adapt Error.elfSection).bind fun d _ => ?_
  -- No address that a record gives is lost, so the difference is the number of the others.
  have hcount := d.size_addresses
  have hscanned : sub d.total d.recordedCount = some d.scannedCount := by
    rw [sub_eq_some (by omega), hcount, Nat.add_sub_cancel_left]
  refine .guard hscanned ?_
  by_cases hnone : d.total = 0
  · rw [if_pos hnone, if_pos hnone]
    exact .pure _
  rw [if_neg hnone, if_neg hnone, bind_map]
  have htable := (table_endsAs d.addresses).adapt Error.relocation
  -- The error is worded before the bytes are joined to the table, or after; it makes no difference.
  have hcommute : ((Table.ofAddresses d.addresses.toList).map fun t => (t, t.bytes)).mapError
      Error.relocation = ((Table.ofAddresses d.addresses.toList).mapError Error.relocation).map
        fun t => (t, t.bytes) := by
    cases Table.ofAddresses d.addresses.toList <;> rfl
  rw [hcommute] at htable
  refine htable.bindMap fun t _ => ?_
  unfold Patch.make
  simp only [bind_assoc, bind_map]
  refine ((readHeaders_endsAs pe).adapt Error.pe).bind fun headers hheaders => ?_
  have hd := Headers.read_eq_ok_iff.mp (mapError_eq_ok_iff.mp hheaders)
  rw [← t.size_eq]
  refine (makePlan_endsAs t.bytes.size hpe (sectionTableEnd_lt hd)).bind fun plan _ => ?_
  have hwork : Work.ofJob ⟨d, headers, plan, t⟩ =
      ⟨⟨d.total, d.recordedCount, d.scannedCount, t.bytes.size, plan.placement⟩, headers, plan,
        t.bytes⟩ := by
    rw [Work.ofJob, Job.report, t.size_eq]
  rw [← hwork, pure_bind]
  exact .pure _

end Prepared

/-! ## §2 Runs -/

/-- The destination image after a run that has work to do. -/
def destinationAfter (options : Options) (work : Work) (pe : Bytes) : Option Bytes :=
  if options.dryRun then some pe
  else applyPlan work.plan work.headers work.table options.discardable pe

/-- A run with operations that can stop the machine: how it ends, and the destination image after
it. -/
def run (order : SectionTable → List Elf.Section) (options : Options) (elf pe : Bytes) :
    Option (Except Error Outcome × Bytes) := do
  match ← (prepare order options.scan elf pe).run with
  | .error e => some (.error e, pe)
  | .ok none => some (.ok .noRelocations, pe)
  | .ok (some work) => do
    let after ← destinationAfter options work pe
    some (.ok (.patched work.report), after)

/-- The headers and the plan of a job are those of the destination. -/
private theorem patch_of_prepareIn {order : SectionTable → List Elf.Section} {scan : Bool}
    {elf pe : Bytes} {job : Job} (h : prepareIn order scan elf pe = .ok (some job)) :
    job.patch.headers.Describes pe ∧
      Plan.make job.patch.headers pe.size job.patch.table.size = .ok job.patch.plan := by
  obtain ⟨d, _, h⟩ := bind_eq_ok_iff.mp h
  obtain ⟨_, _, _, _, hheaders, hplan⟩ := jobFor_eq_some_iff.mp h
  exact ⟨Headers.read_eq_ok_iff.mp hheaders, hplan⟩

/-- A run on a machine ends as one without. -/
private theorem run_eq_runIn {elf pe : Bytes} (helf : elf.size ≤ maxBufferSize)
    (hpe : pe.size ≤ maxBufferSize) (order : SectionTable → List Elf.Section) (options : Options) :
    run order options elf pe = some (runIn order options elf pe) := by
  unfold runIn
  refine bind_eq_of_eq_some (prepare_endsAs helf hpe order options.scan) ?_
  cases hjob : prepareIn order options.scan elf pe with
  | error e => rfl
  | ok found =>
    cases found with
    | none => rfl
    | some job =>
      -- What the writes rely on was found out in the preparation.
      obtain ⟨hd, hplan⟩ := patch_of_prepareIn hjob
      have htable := Plan.lt_of_make hplan
      have hsuits := Plan.suits_of_make hplan
      rw [← job.patch.table.size_eq] at htable hsuits
      have hafter : destinationAfter options (Work.ofJob job) pe =
          some (if options.dryRun then pe else job.patch.apply options.discardable pe) := by
        unfold destinationAfter
        split
        · rfl
        · exact applyPlan_eq_some hpe hd htable hsuits options.discardable
      exact bind_eq_of_eq_some hafter rfl

/-- **No run stops the machine.** Whatever the two buffers hold, if a machine can have them, a run
on them ends, with every index in its buffer, every sum in its word and no bit cut off: in
particular the new size of the image is never one that does not fit. If the run fails, finds nothing
to relocate or is a dry one, the destination is what it was. All this holds in whatever order the
machine lists the sections of the source; in the order of their names the run ends as `Rebase.run`
does. -/
theorem run_eq_some_of_size_le {elf pe : Bytes} (helf : elf.size ≤ maxBufferSize)
    (hpe : pe.size ≤ maxBufferSize) (options : Options) :
    run SectionTable.sections options elf pe = some (Rebase.run options elf pe) ∧
      ∀ order : SectionTable → List Elf.Section, ∃ result after,
        run order options elf pe = some (result, after) ∧
          ((∃ e, result = .error e) ∨ result = .ok .noRelocations ∨ options.dryRun = true →
            after = pe) := by
  refine ⟨run_eq_runIn helf hpe SectionTable.sections options, fun order => ?_⟩
  exact ⟨_, _, run_eq_runIn helf hpe order options, runIn_snd order⟩

/-- A run on the source with one record and the image without sections. -/
theorem run_eq_some_of_size_le_oneRecord :
    oneRecord.size ≤ maxBufferSize ∧ bareImage.size ≤ maxBufferSize ∧
      run SectionTable.sections {} oneRecord bareImage = some (Rebase.run {} oneRecord bareImage) ∧
      ∀ order : SectionTable → List Elf.Section, ∃ result after,
        run order {} oneRecord bareImage = some (result, after) ∧
          ((∃ e, result = .error e) ∨ result = .ok .noRelocations ∨ ({} : Options).dryRun = true →
            after = bareImage) := by
  have helf : oneRecord.size ≤ maxBufferSize := by decide +kernel
  have hpe : bareImage.size ≤ maxBufferSize := by decide +kernel
  exact ⟨helf, hpe, run_eq_some_of_size_le helf hpe {}⟩

end Rebase.Checked
