import Rebase.Proofs.Run.Order
import Rebase.Proofs.Run.RoundTrip

/-!
# What the options change

Two runs on the same source and destination that both search for pointers, or both do not, end in
the same way and report the same numbers; a dry run thereby tells what the other one would do. What
they write differs in one flag at most (`runs_agree`).

- **Destinations**: `AlikeButDiscardable`, which difference there can be
- **Reports**: `Report.Accounting`, what the numbers of a report count
- **Runs**: `runs_agree`
-/

namespace Rebase

open BaseRelocation Bytes Edit Fallible Pe
open Elf (SectionTable)

/-! ## §1 Destinations -/

namespace Pe

/-- Two images are alike, apart from the flag of a section that can be dropped. Only the section
header at the given offset may have it in one of them and not in the other. -/
structure AlikeButDiscardable (headerOffset : Nat) (b c : Bytes) : Prop where
  size : b.size = c.size
  bytes : ∀ i, i < headerOffset + 36 ∨ headerOffset + 40 ≤ i → b.data[i]? = c.data[i]?
  characteristics : ∃ first second, b.word? UInt32 (headerOffset + 36) = some first ∧
    c.word? UInt32 (headerOffset + 36) = some second ∧
    first ||| discardableFlag = second ||| discardableFlag

/-- The header of a new section is the same in front of its characteristics. -/
private theorem NewSection.getElem?_header (place : NewSection) (tableSize : UInt32)
    (first second : Bool) {k : Nat} (hk : k < 36) :
    (place.header tableSize first).data[k]? = (place.header tableSize second).data[k]? := by
  have hname : relocationSectionName.toUTF8.size = 6 := by decide
  have hfront : ∀ discardable, (place.header tableSize discardable).data[k]? =
      (relocationSectionName.toUTF8 ++ zeros 2 ++ ofWord tableSize ++ ofWord place.virtualAddress ++
        ofWord place.rawSize ++ ofWord place.rawOffset ++ zeros 12).data[k]? := by
    intro discardable
    rw [header, ByteArray.data_append]
    apply Array.getElem?_append_left
    rw [size_data]
    simp only [ByteArray.size_append, size_zeros, size_ofWord, hname]
    exact hk
  exact (hfront first).trans (hfront second).symm

namespace Plan

variable {h : Headers} {file table : Bytes} {place : NewSection}

/-- What is written for a new section is inside the image, or behind what was written before. -/
private theorem allFit_edits_append (hd : h.Describes file)
    (hsuits : (append place).Suits h file.size table.size) (discardable : Bool) :
    AllFit file.size ((append place).edits h table discardable) := by
  obtain ⟨hoptional, htable, hstart, hend⟩ := hsuits.inOrder hd
  obtain ⟨hheader, hinside, hoffset, hsize⟩ := hsuits.newSection_bounds
  obtain ⟨hcount, hflags, himage, hdir⟩ := h.fieldOffsets
  simp only [edits, sectionEdits, directoryEdits, List.cons_append, List.nil_append, AllFit, Fits,
    sizeAfter, ByteArray.size_append, size_header, size_ofWord]
  exact ⟨hinside, by omega, by omega, by omega, trivial, by omega, by omega, by omega, trivial⟩

/-- A section is written over in the same way whether new ones can be dropped or not. -/
private theorem apply_replace_eq (index : Nat) (s : Section) (first second : Bool) :
    (replace index s).apply h table first file = (replace index s).apply h table second file := rfl

/-- **A new section** can be dropped or not, and nothing else depends on that. -/
theorem alike_apply_append (hd : h.Describes file)
    (hsuits : (append place).Suits h file.size table.size) (hlt : table.size < UInt32.size)
    (first second : Bool) :
    AlikeButDiscardable place.headerOffset ((append place).apply h table first file)
      ((append place).apply h table second file) where
  size := (endsWith_append first hd hsuits).size.trans (endsWith_append second hd hsuits).size.symm
  bytes := by
    intro i hi
    -- The section header is written first, and all that is written later is the same.
    obtain ⟨later, hlater⟩ : ∃ later, ∀ discardable, (append place).edits h table discardable =
        .overwrite place.headerOffset (place.header (UInt32.ofNat table.size) discardable) ::
          later :=
      ⟨_, fun _ => rfl⟩
    have hfits : ∀ discardable, place.headerOffset +
          (place.header (UInt32.ofNat table.size) discardable).size ≤ file.size ∧
        AllFit file.size later := by
      intro discardable
      have hall := allFit_edits_append hd hsuits discardable
      rw [hlater] at hall
      exact hall
    rw [apply, apply, hlater, hlater, applyAll_cons, applyAll_cons]
    refine getElem?_applyAll_congr (by rw [Edit.size_apply, Edit.size_apply]; rfl)
      (by rw [Edit.size_apply]; exact (hfits first).2) fun _ _ => ?_
    rw [Edit.apply, Edit.apply, getElem?_overwrite file (hfits first).1,
      getElem?_overwrite file (hfits second).1, size_header, size_header]
    split
    · next hin =>
      rw [Section.headerSize] at hin
      exact place.getElem?_header _ first second (by omega)
    · rfl
  characteristics := by
    have hflags : ∀ discardable, ((append place).apply h table discardable file).word? UInt32
        (place.headerOffset + 36) = some (if discardable then 0x42000040 else 0x40000040) :=
      fun discardable => (NewSection.headerIn_of_slice? hlt
        (slice?_newHeader discardable hd hsuits)).characteristics
    refine ⟨_, _, hflags first, hflags second, ?_⟩
    cases first <;> cases second <;> decide

end Plan

end Pe

/-! ## §2 Reports -/

/-- The addresses of a set that are not in another one, in ascending order. -/
private theorem AddressSet.toList_diff (s t : AddressSet) :
    (s \ t).toList = s.toList.filter fun a => a ∉ t := by
  refine eq_of_pairwise (pairwise_toList _) ((pairwise_toList s).filter _) fun a => ?_
  rw [Std.ExtTreeSet.mem_toList, Std.ExtTreeSet.mem_diff_iff, List.mem_filter,
    Std.ExtTreeSet.mem_toList, decide_eq_true_iff]

/-- How many entries of a table ask for a 64-bit value to be changed. -/
def BaseRelocation.Table.dir64Count (t : Table) : Nat :=
  (t.blocks.flatMap Block.entries).countP fun e => e.kind = .dir64

/-- There is one address for each such entry. -/
private theorem BaseRelocation.Table.length_addresses (t : Table) :
    t.addresses.length = t.dir64Count := by
  have hblock : ∀ b : Block, b.addresses.length = b.entries.countP fun e => e.kind = .dir64 := by
    intro b
    rw [Block.addresses, List.length_filterMap_eq_countP]
    refine List.countP_congr fun e _ => ?_
    by_cases hkind : e.kind = .dir64 <;> simp [hkind]
  rw [addresses, dir64Count, List.length_flatMap, List.countP_flatMap]
  exact congrArg List.sum (List.map_congr_left fun b _ => hblock b)

/-- What the numbers of a report count, when the records of the source give some addresses and a
table is written. An address that a record gives is not counted again when the search finds it. -/
structure Report.Accounting (r : Report) (scan : Bool) (elf : Bytes) (sections : Elf.SectionTable)
    (recorded : AddressSet) (t : Table) : Prop where
  total : r.total = r.recorded + r.scanned
  entries : r.total = t.dir64Count
  /-- The bytes that are written stand for the table. -/
  written : Table.ofBytes t.bytes = .ok t
  tableSize : r.tableSize = t.size
  records : r.recorded = recorded.size
  search : scan = true → ∃ found,
    Discovery.scannedAddresses elf sections sections.sections = .ok found ∧
    r.scanned = (found.toList.filter fun a => a ∉ recorded).length
  noSearch : scan = false → r.scanned = 0

/-- **A report counts** what its job found. -/
theorem Job.Prepared.accounting {job : Job} {scan : Bool} {elf pe : Bytes}
    (h : job.Prepared scan elf pe) :
    ∃ sections, Elf.SectionTable.read elf = .ok sections ∧
      Discovery.recordedAddresses sections.machine elf sections.sections =
        .ok job.discovery.recorded ∧
      job.report.Accounting scan elf sections job.discovery.recorded job.patch.table := by
  obtain ⟨sections, hsections, hfound⟩ := discover_eq_ok_iff.mp h.discovery
  obtain ⟨hrecorded, hscanned⟩ := Discovery.ofImage_eq_ok_iff.mp hfound
  have hentries : job.discovery.total = job.patch.table.dir64Count := by
    rw [← Table.length_addresses, h.table, Table.addresses_ofSet h.fits,
      Std.ExtTreeSet.length_toList]
    rfl
  refine ⟨sections, hsections, hrecorded, {
    total := job.discovery.size_addresses
    entries := hentries
    written := h.ofBytes_bytes
    tableSize := rfl
    records := rfl
    search := ?_
    noSearch := ?_ }⟩
  · intro hscan
    rw [if_pos hscan] at hscanned
    refine ⟨_, hscanned, ?_⟩
    rw [← AddressSet.toList_diff, Std.ExtTreeSet.length_toList]
    rfl
  · intro hscan
    rw [hscan] at hscanned
    have hempty : job.discovery.scanned = ∅ := (Except.ok.inj hscanned).symm
    show (job.discovery.scanned \ job.discovery.recorded).size = 0
    rw [hempty, ← Std.ExtTreeSet.length_toList, AddressSet.toList_diff]
    rfl

/-! ## §3 Runs -/

/-- There is nothing to do exactly when no address was found, in whatever order the sections are
listed. The destination plays no part in that. -/
theorem runIn_eq_noRelocations_iff_discoverIn {order₁ order₂ : SectionTable → List Elf.Section}
    (ho₁ : ∀ table, (order₁ table).Perm table.sections)
    (ho₂ : ∀ table, (order₂ table).Perm table.sections) {options : Options} {elf pe : Bytes} :
    (runIn order₁ options elf pe).1 = .ok .noRelocations ↔
      ∃ d, discoverIn order₂ options.scan elf = .ok d ∧ d.addresses = ∅ := by
  rw [runIn_eq_noRelocations_iff, prepareIn_eq_none_iff]
  refine exists_congr fun d => and_congr ?_ Std.ExtTreeSet.eq_empty_iff_size_eq_zero.symm
  exact (discoverIn_perm ho₁ ho₂ options.scan elf).eq_ok_iff

/-- What a job writes as one option or the other has it. A section is written over in the same way,
and a new section is the same but for the flag that says whether it can be dropped. -/
private theorem Job.Prepared.alike {job : Job} {scan : Bool} {elf pe : Bytes}
    (h : job.Prepared scan elf pe) (first second : Bool) :
    (job.report.placement = .replaced → job.patch.apply first pe = job.patch.apply second pe) ∧
      (job.report.placement = .appended →
        AlikeButDiscardable job.patch.headers.sectionTableEnd (job.patch.apply first pe)
          (job.patch.apply second pe)) := by
  have hd := Headers.read_eq_ok_iff.mp h.headers
  have hlt := h.tableSize_lt
  have hsuits := Plan.suits_of_make h.plan
  rw [← Table.size_eq] at hlt hsuits
  simp only [Job.report, Pe.Patch.apply]
  cases hplan : job.patch.plan with
  | replace index s => exact ⟨fun _ => Plan.apply_replace_eq index s _ _, fun h => (by cases h)⟩
  | append place =>
    rw [hplan] at hsuits
    obtain ⟨hheader, _⟩ := hsuits.newSection_bounds
    rw [← hheader]
    exact ⟨fun h => (by cases h), fun _ => Plan.alike_apply_append hd hsuits hlt _ _⟩

/-- **Options do not change how a run ends.** Of two runs that agree on whether pointers are
searched for, both list the sections of the source in some order of their own. In one order they
give the same error, or both find nothing to relocate, whatever the destination is, or report the
same. In two orders this is so too, except that where the records of two sections are refused, each
of the runs names one of these sections. The numbers of the report count what was found in the
source and what is written. If neither run is a dry one, a section is written over in the same way,
and a new section is the same but for the flag that says whether it can be dropped. -/
theorem runs_agree {first second : Options} (hscan : first.scan = second.scan)
    {order₁ order₂ : SectionTable → List Elf.Section}
    (ho₁ : ∀ table, (order₁ table).Perm table.sections)
    (ho₂ : ∀ table, (order₂ table).Perm table.sections) (elf pe : Bytes) :
    (∀ order, (runIn order first elf pe).1 = (runIn order second elf pe).1) ∧
    Agree (fun e e' => SameKind e e' ∧ SameFault elf e e')
      (runIn order₁ first elf pe).1 (runIn order₂ second elf pe).1 ∧
    ((runIn order₁ first elf pe).1 = .ok .noRelocations ↔
      ∃ d, discoverIn order₂ first.scan elf = .ok d ∧ d.addresses = ∅) ∧
    ∀ r, (runIn order₁ first elf pe).1 = .ok (.patched r) →
      ∃ sections recorded h plan t,
        SectionTable.read elf = .ok sections ∧
        Discovery.recordedAddresses sections.machine elf (order₂ sections) = .ok recorded ∧
        Headers.read pe = .ok h ∧ Plan.make h pe.size r.tableSize = .ok plan ∧
        plan.placement = r.placement ∧ r.Accounting first.scan elf sections recorded t ∧
        (runIn order₁ first elf pe).2 =
          (if first.dryRun then pe else plan.apply h t.bytes first.discardable pe) ∧
        (first.dryRun = false → second.dryRun = false →
          (r.placement = .replaced →
            (runIn order₁ first elf pe).2 = (runIn order₂ second elf pe).2) ∧
          (r.placement = .appended →
            AlikeButDiscardable h.sectionTableEnd (runIn order₁ first elf pe).2
              (runIn order₂ second elf pe).2)) := by
  have hagree := agree_runIn ho₁ ho₂ hscan elf pe
  refine ⟨fun order => runIn_fst_congr order hscan elf pe,
    hagree.imp fun e e' h => ⟨h.sameKind, h⟩,
    runIn_eq_noRelocations_iff_discoverIn ho₁ ho₂, fun r hfirst => ?_⟩
  -- A run that patches is the same in every order.
  have hsecond := hagree.eq_ok_iff.mp hfirst
  have hrun := runIn_eq_run ho₁ hfirst
  have hrun' := runIn_eq_run ho₂ hsecond
  rw [hrun] at hfirst ⊢
  rw [hrun'] at hsecond ⊢
  obtain ⟨job, hjob, rfl, himage⟩ := exists_job_of_run hfirst
  obtain ⟨job', hjob', _, himage'⟩ := exists_job_of_run hsecond
  -- Both runs were prepared in the same way, so they have one job.
  have hsame : job' = job := by
    have hprepared := prepare_eq_some_iff.mpr hjob
    rw [hscan, prepare_eq_some_iff.mpr hjob'] at hprepared
    exact Option.some.inj (Except.ok.inj hprepared)
  subst hsame
  obtain ⟨sections, hsections, hrecorded, hcounts⟩ := hjob.accounting
  refine ⟨sections, _, _, _, _, hsections,
    Discovery.recordedAddresses_perm (ho₂ sections).symm hrecorded, hjob.headers, hjob.plan, rfl,
    hcounts, himage, ?_⟩
  intro hdry hdry'
  rw [himage, himage', hdry, hdry']
  exact hjob.alike first.discardable second.discardable

/-- A source image with two sections. `.rela.data` has a record for the address 0x1000; `.data` is
mapped there and holds its own first two addresses, so the search finds the address of the record
and one more. -/
def recordAndPointers : Bytes :=
  ⟨⟨[0x7F, 0x45, 0x4C, 0x46, 2, 1, 1, 0] ++ List.replicate 8 0 ++ [2, 0, 243, 0, 1, 0, 0, 0] ++
    List.replicate 16 0 ++ [64, 0, 0, 0, 0, 0, 0, 0] ++ List.replicate 4 0 ++ [64, 0] ++
    List.replicate 4 0 ++ [64, 0, 2, 0, 0, 0] ++
    [24, 0, 0, 0, 4, 0, 0, 0] ++ List.replicate 16 0 ++ [192, 0, 0, 0, 0, 0, 0, 0] ++
    [24, 0, 0, 0, 0, 0, 0, 0] ++ List.replicate 16 0 ++ [24, 0, 0, 0, 0, 0, 0, 0] ++
    [29, 0, 0, 0, 1, 0, 0, 0] ++ List.replicate 8 0 ++ [0, 0x10, 0, 0, 0, 0, 0, 0] ++
    [227, 0, 0, 0, 0, 0, 0, 0] ++ [16, 0, 0, 0, 0, 0, 0, 0] ++ List.replicate 24 0 ++
    [0, 0x10, 0, 0, 0, 0, 0, 0, 2, 0, 0, 0, 0, 0, 0, 0] ++ List.replicate 8 0 ++
    [46, 114, 101, 108, 97, 46, 100, 97, 116, 97, 0] ++
    [0, 0x10, 0, 0, 0, 0, 0, 0, 8, 0x10, 0, 0, 0, 0, 0, 0]⟩⟩

theorem runs_agree_recordAndPointers :
    (∀ table : SectionTable, table.sections.Perm table.sections) ∧
      (∀ table : SectionTable, table.sections.reverse.Perm table.sections) ∧
      (run {} recordAndPointers bareImage).1 = .ok (.patched ⟨2, 1, 1, 12, .appended⟩) ∧
      (runIn (fun table => table.sections.reverse) { discardable := false } recordAndPointers
        bareImage).1 = .ok (.patched ⟨2, 1, 1, 12, .appended⟩) ∧
      ∃ h, Headers.read bareImage = .ok h ∧ AlikeButDiscardable h.sectionTableEnd
        (run {} recordAndPointers bareImage).2
        (runIn (fun table => table.sections.reverse) { discardable := false } recordAndPointers
          bareImage).2 := by
  have hnames : ∀ table : SectionTable, table.sections.Perm table.sections :=
    fun table => .refl table.sections
  have hreverse : ∀ table : SectionTable, table.sections.reverse.Perm table.sections :=
    fun table => List.reverse_perm table.sections
  have hrun : (run {} recordAndPointers bareImage).1 =
      .ok (.patched ⟨2, 1, 1, 12, .appended⟩) := by
    decide +kernel
  have hscan : ({} : Options).scan = ({ discardable := false } : Options).scan := rfl
  obtain ⟨_, hresult, _, hreport⟩ := runs_agree hscan hnames hreverse recordAndPointers bareImage
  obtain ⟨_, _, h, _, _, _, _, hread, _, _, _, _, halike⟩ := hreport _ hrun
  exact ⟨hnames, hreverse, hrun, hresult.eq_ok_iff.mp hrun, h, hread, (halike rfl rfl).2 rfl⟩

end Rebase
