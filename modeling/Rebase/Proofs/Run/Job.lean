import Rebase.Proofs.BaseRelocation.Pages
import Rebase.Proofs.Pe.Frame
import Rebase.Run

/-!
# What a run has done

A run that patches went through all its stages. `Job.Prepared` lists what each of them gave, and
`exists_job_of_run` finds them from the result of the run alone.
-/

namespace Rebase

open BaseRelocation Fallible

/-- What the discovery in an image is made of. -/
theorem Discovery.ofImage_eq_ok_iff {scan : Bool} {elf : Bytes} {table : Elf.SectionTable}
    {d : Discovery} : ofImage scan elf table = .ok d ↔
      recordedAddresses table.machine elf table.sections = .ok d.recorded ∧
      (if scan then scannedAddresses elf table table.sections else pure ∅) = .ok d.scanned := by
  unfold ofImage inOrder
  rw [bind_eq_ok_iff]
  constructor
  · rintro ⟨recorded, hrecorded, h⟩
    cases scan with
    | true =>
      obtain ⟨scanned, hscanned, h⟩ := bind_eq_ok_iff.mp h
      cases h
      exact ⟨hrecorded, hscanned⟩
    | false =>
      cases h
      exact ⟨hrecorded, rfl⟩
  · rintro ⟨hrecorded, hscanned⟩
    refine ⟨_, hrecorded, ?_⟩
    obtain ⟨recorded, scanned⟩ := d
    cases scan with
    | true => exact bind_eq_ok_iff.mpr ⟨_, hscanned, rfl⟩
    | false =>
      cases hscanned
      rfl

/-- What is discovered in a source comes from a table that could be read. -/
theorem discover_eq_ok_iff {scan : Bool} {elf : Bytes} {d : Discovery} : discover scan elf = .ok d ↔
    ∃ table, Elf.SectionTable.read elf = .ok table ∧ Discovery.ofImage scan elf table = .ok d := by
  unfold discover discoverIn
  rw [bind_eq_ok_iff]
  simp only [mapError_eq_ok_iff]
  rfl

/-- The stages of a job. -/
structure Job.Prepared (job : Job) (scan : Bool) (elf pe : Bytes) : Prop where
  discovery : discover scan elf = .ok job.discovery
  nonempty : job.discovery.total ≠ 0
  fits : ∀ a ∈ job.discovery.addresses.toList, Table.fits a
  table : job.patch.table = Table.ofSet job.discovery.addresses
  headers : Pe.Headers.read pe = .ok job.patch.headers
  plan : Pe.Plan.make job.patch.headers pe.size job.patch.table.size = .ok job.patch.plan

/-- There is no job exactly where there is no address. The destination is not looked at then. -/
theorem jobFor_eq_none_iff {d : Discovery} {pe : Bytes} : jobFor d pe = .ok none ↔ d.total = 0 := by
  unfold jobFor
  split
  · next hnone => exact ⟨fun _ => hnone, fun _ => rfl⟩
  · next hsome =>
    refine ⟨fun h => ?_, fun hnone => absurd hnone hsome⟩
    obtain ⟨t, _, h⟩ := bind_eq_ok_iff.mp h
    obtain ⟨patch, _, h⟩ := bind_eq_ok_iff.mp h
    cases h

/-- There is a job exactly where the table fits and has a place. -/
theorem jobFor_eq_some_iff {d : Discovery} {pe : Bytes} {job : Job} :
    jobFor d pe = .ok (some job) ↔
      job.discovery = d ∧ d.total ≠ 0 ∧ (∀ a ∈ d.addresses.toList, Table.fits a) ∧
        job.patch.table = Table.ofSet d.addresses ∧ Pe.Headers.read pe = .ok job.patch.headers ∧
        Pe.Plan.make job.patch.headers pe.size job.patch.table.size = .ok job.patch.plan := by
  unfold jobFor
  constructor
  · intro h
    -- The stages are opened one after the other; where there is nothing to relocate there is no
    -- job.
    split at h
    · cases h
    · next hnonempty =>
      obtain ⟨t, ht, h⟩ := bind_eq_ok_iff.mp h
      obtain ⟨patch, hpatch, h⟩ := bind_eq_ok_iff.mp h
      cases h
      obtain ⟨hheaders, hplan, rfl⟩ := Pe.Patch.make_eq_ok_iff.mp hpatch
      rw [mapError_eq_ok_iff, Table.ofAddresses_toList_eq_ok_iff] at ht
      exact ⟨rfl, hnonempty, ht.1, ht.2, hheaders, hplan⟩
  · rintro ⟨rfl, hnonempty, hfits, htable, hheaders, hplan⟩
    rw [if_neg hnonempty]
    have ht : Table.ofAddresses job.discovery.addresses.toList = .ok job.patch.table :=
      Table.ofAddresses_toList_eq_ok_iff.mpr ⟨hfits, htable⟩
    refine bind_eq_ok_iff.mpr ⟨job.patch.table, mapError_eq_ok_iff.mpr ht, ?_⟩
    exact bind_eq_ok_iff.mpr ⟨job.patch, Pe.Patch.make_eq_ok_iff.mpr ⟨hheaders, hplan, rfl⟩, rfl⟩

/-- **A job is prepared** exactly when all stages went through. -/
theorem prepare_eq_some_iff {scan : Bool} {elf pe : Bytes} {job : Job} :
    prepare scan elf pe = .ok (some job) ↔ job.Prepared scan elf pe := by
  rw [prepare, prepareIn, bind_eq_ok_iff]
  constructor
  · rintro ⟨d, hd, h⟩
    obtain ⟨rfl, hnonempty, hfits, htable, hheaders, hplan⟩ := jobFor_eq_some_iff.mp h
    exact ⟨hd, hnonempty, hfits, htable, hheaders, hplan⟩
  · rintro ⟨hd, hnonempty, hfits, htable, hheaders, hplan⟩
    exact ⟨_, hd, jobFor_eq_some_iff.mpr ⟨rfl, hnonempty, hfits, htable, hheaders, hplan⟩⟩

/-- **There is nothing to do** exactly when no address was found. -/
theorem prepareIn_eq_none_iff {order : Elf.SectionTable → List Elf.Section} {scan : Bool}
    {elf pe : Bytes} :
    prepareIn order scan elf pe = .ok none ↔
      ∃ d, discoverIn order scan elf = .ok d ∧ d.total = 0 := by
  rw [prepareIn, bind_eq_ok_iff]
  simp only [jobFor_eq_none_iff]

section Runs

variable {order : Elf.SectionTable → List Elf.Section} {options : Options} {elf pe : Bytes}

theorem runIn_eq_noRelocations_iff :
    (runIn order options elf pe).1 = .ok .noRelocations ↔
      prepareIn order options.scan elf pe = .ok none := by
  unfold runIn
  rcases prepareIn order options.scan elf pe with _ | _ | _ <;> simp [finish]

theorem runIn_eq_patched_iff {r : Report} :
    (runIn order options elf pe).1 = .ok (.patched r) ↔
      ∃ job, prepareIn order options.scan elf pe = .ok (some job) ∧ job.report = r := by
  unfold runIn
  rcases prepareIn order options.scan elf pe with _ | _ | _ <;> simp [finish]

/-- **A run patches** exactly when it has a job. -/
theorem exists_runIn_eq_patched_iff :
    (∃ r, (runIn order options elf pe).1 = .ok (.patched r)) ↔
      ∃ job, prepareIn order options.scan elf pe = .ok (some job) := by
  simp only [runIn_eq_patched_iff]
  constructor
  · rintro ⟨_, job, hjob, _⟩
    exact ⟨job, hjob⟩
  · rintro ⟨job, hjob⟩
    exact ⟨_, job, hjob, rfl⟩

/-- A run that patches has a job, and reports and does what the job says. -/
theorem exists_job_of_run {r : Report} (hrun : (run options elf pe).1 = .ok (.patched r)) :
    ∃ job : Job, job.Prepared options.scan elf pe ∧ r = job.report ∧
      (run options elf pe).2 =
        if options.dryRun then pe else job.patch.apply options.discardable pe := by
  obtain ⟨job, hjob, rfl⟩ := runIn_eq_patched_iff.mp hrun
  refine ⟨job, prepare_eq_some_iff.mp hjob, rfl, ?_⟩
  rw [run_eq_finish, prepare, hjob]
  rfl

end Runs

end Rebase
