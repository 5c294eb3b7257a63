import Rebase.Proofs.Run.RoundTrip

/-!
# The headers after a run

A run that patches changes fields of the headers and leaves the rest of them alone: they are read
again at the same offsets, and every section is found at its index as it was, apart from the size in
memory of the one that the table went to (`run_keeps_headers`).

This holds as long as the plan keeps away from the headers (`Pe.Plan.KeepsHeaders`), which is not
looked at when a plan is made. Two images show what else happens: in `coveringImage` the relocation
section has its contents where the signature is, and in `overlappingImage` the number of sections is
stored in the field that leads to the signature.
-/

namespace Rebase

open Pe Bytes

/-! ## §1 Runs -/

/-- **A run keeps the headers** that its plan does not write over. The image that it leaves has
headers at the same offsets as before, and every section at its index; of the section that the table
was written over the size in memory is that of the table, and nothing else has changed. -/
theorem run_keeps_headers {options : Options} {elf pe : Bytes} {r : Report}
    (hdry : options.dryRun = false) (hrun : (run options elf pe).1 = .ok (.patched r))
    (hkeeps : ∀ h plan, Headers.read pe = .ok h → Plan.make h pe.size r.tableSize = .ok plan →
      plan.KeepsHeaders h) :
    ∃ h h', Headers.read pe = .ok h ∧ Headers.read (run options elf pe).2 = .ok h' ∧
      h'.fileHeaderOffset = h.fileHeaderOffset ∧
      h'.optionalHeaderOffset = h.optionalHeaderOffset ∧
      h'.sectionTableOffset = h.sectionTableOffset ∧
      ∀ (i : Nat) (s : Pe.Section), h.sections[i]? = some s →
        h'.sections[i]? = some s ∨
          r.placement = .replaced ∧ h.relocationSection? = some (s, i) ∧
            h'.sections[i]? = some { s with virtualSize := UInt32.ofNat r.tableSize } := by
  obtain ⟨job, hjob, rfl, himage⟩ := exists_job_of_run hrun
  have hsuits := Plan.suits_of_make hjob.plan
  have hlt := hjob.tableSize_lt
  have hread := hjob.headers
  rw [← job.patch.table.size_eq] at hsuits hlt
  have hback := Plan.read_apply options.discardable hread hsuits
    (hkeeps _ _ hread hjob.plan) hlt
  rw [job.patch.table.size_eq] at hback hsuits
  rw [himage, hdry]
  exact ⟨_, _, hread, hback, rfl, rfl, rfl, fun i s hs =>
    Plan.getElem?_headersAfter options.discardable hsuits hs⟩

theorem run_keeps_headers_twoImages :
    (run { scan := false } oneRecord bareImage).1 = .ok (.patched ⟨1, 1, 0, 12, .appended⟩) ∧
      (∀ h plan, Headers.read bareImage = .ok h → Plan.make h bareImage.size 12 = .ok plan →
        plan.KeepsHeaders h) ∧
      (∃ h h', Headers.read bareImage = .ok h ∧
        Headers.read (run { scan := false } oneRecord bareImage).2 = .ok h' ∧
        h'.fileHeaderOffset = h.fileHeaderOffset ∧
        h'.optionalHeaderOffset = h.optionalHeaderOffset ∧
        h'.sectionTableOffset = h.sectionTableOffset) ∧
      (run { scan := false } oneRecord sectionImage).1 = .ok (.patched ⟨1, 1, 0, 12, .replaced⟩) ∧
      (∀ h plan, Headers.read sectionImage = .ok h → Plan.make h sectionImage.size 12 = .ok plan →
        plan.KeepsHeaders h) ∧
      ∃ h h', Headers.read sectionImage = .ok h ∧
        Headers.read (run { scan := false } oneRecord sectionImage).2 = .ok h' ∧
        h'.fileHeaderOffset = h.fileHeaderOffset ∧
        h'.optionalHeaderOffset = h.optionalHeaderOffset ∧
        h'.sectionTableOffset = h.sectionTableOffset ∧
        (h'.sections[0]? = some relocations ∨
          h'.sections[0]? = some { relocations with virtualSize := 12 }) := by
  have hkeeps : ∀ h plan, Headers.read bareImage = .ok h →
      Plan.make h bareImage.size 12 = .ok plan → plan.KeepsHeaders h := by
    intro h plan hread hplan
    refine Plan.keepsHeaders (Headers.read_eq_ok_iff.mp hread) ?_ headersFollow_bareImage
    -- The image has no section, so there is none to write over.
    cases Except.ok.inj (hread.symm.trans read_bareImage)
    cases plan with
    | replace index s => cases (Plan.suits_of_make hplan).1
    | append place => trivial
  have hkeeps' : ∀ h plan, Headers.read sectionImage = .ok h →
      Plan.make h sectionImage.size 12 = .ok plan → plan.KeepsHeaders h := by
    intro h plan hread hplan
    refine Plan.keepsHeaders (Headers.read_eq_ok_iff.mp hread) ?_ headersFollow_sectionImage
    -- The section of the image is behind the section table.
    cases Except.ok.inj (hread.symm.trans read_sectionImage)
    cases plan with
    | replace index s =>
      cases (Plan.suits_of_make hplan).1
      show sectionHeaders.sectionTableEnd ≤ relocations.rawOffset.toNat
      decide
    | append place => trivial
  obtain ⟨h, h', hread, hafter, hfile, hoptional, htable, _⟩ :=
    run_keeps_headers rfl run_oneRecord hkeeps
  obtain ⟨k, k', kread, kafter, kfile, koptional, ktable, ksections⟩ :=
    run_keeps_headers rfl run_oneRecord_sectionImage hkeeps'
  refine ⟨run_oneRecord, hkeeps, ⟨h, h', hread, hafter, hfile, hoptional, htable⟩,
    run_oneRecord_sectionImage, hkeeps', k, k', kread, kafter, kfile, koptional, ktable, ?_⟩
  cases Except.ok.inj (kread.symm.trans read_sectionImage)
  rcases ksections 0 relocations rfl with hsame | ⟨_, _, hsized⟩
  · exact .inl hsame
  · exact .inr hsized

/-! ## §2 Headers that are written over -/

/-- The table of the one record. -/
def oneTable : BaseRelocation.Table := ⟨[⟨0x1000, [⟨0, .dir64⟩, .padding]⟩]⟩

/-- A run with the one record carries out a plan for its table. -/
theorem exists_plan_of_run_oneRecord {pe : Bytes} {r : Report}
    (hrun : (run { scan := false } oneRecord pe).1 = .ok (.patched r)) :
    ∃ h plan, Headers.read pe = .ok h ∧ Plan.make h pe.size oneTable.size = .ok plan ∧
      (run { scan := false } oneRecord pe).2 = plan.apply h oneTable.bytes true pe := by
  have htable : (discover false oneRecord).map (fun d => BaseRelocation.Table.ofSet d.addresses) =
      .ok oneTable := by
    decide +kernel
  obtain ⟨job, hjob, _, himage⟩ := exists_job_of_run hrun
  have hsame : job.patch.table = oneTable := by
    rw [hjob.discovery] at htable
    rw [hjob.table]
    exact Except.ok.inj htable
  have hplan := hjob.plan
  rw [hsame] at hplan
  refine ⟨_, _, hjob.headers, hplan, ?_⟩
  rw [himage, Patch.apply, hsame]
  rfl

/-- An image with one section, whose contents are the 16 bytes from the signature on. -/
def coveringImage : Bytes :=
  ⟨⟨List.replicate 0x3C 0 ++ [0x40, 0, 0, 0, 0x50, 0x45, 0, 0, 0x64, 0x86, 1, 0] ++
    List.replicate 12 0 ++ [160, 0, 0x23, 0, 0x0B, 2] ++ List.replicate 54 0 ++
    [0, 0x10, 0, 0, 0, 2, 0, 0] ++ List.replicate 44 0 ++ [6, 0, 0, 0] ++ List.replicate 48 0 ++
    [46, 114, 101, 108, 111, 99, 0, 0, 16, 0, 0, 0, 0, 0x10, 0, 0, 16, 0, 0, 0, 0x40, 0, 0, 0] ++
    List.replicate 12 0 ++ [0x40, 0, 0, 0x42]⟩⟩

/-- The headers of that image. -/
def coveringHeaders : Headers :=
  { bareHeaders with sections := [⟨".reloc", 16, 0x1000, 16, 0x40, 0x42000040⟩] }

/-- The table is written over the signature, and the image cannot be read any more. -/
theorem run_coveringImage :
    (run { scan := false } oneRecord coveringImage).1 = .ok (.patched ⟨1, 1, 0, 12, .replaced⟩) ∧
      Headers.read coveringImage = .ok coveringHeaders ∧
      Headers.read (run { scan := false } oneRecord coveringImage).2 = .error .badSignature := by
  have hrun : (run { scan := false } oneRecord coveringImage).1 =
      .ok (.patched ⟨1, 1, 0, 12, .replaced⟩) := by
    decide +kernel
  have hread : Headers.read coveringImage = .ok coveringHeaders := by decide +kernel
  have hd := Headers.read_eq_ok_iff.mp hread
  obtain ⟨h, plan, hread', hplan, himage⟩ := exists_plan_of_run_oneRecord hrun
  cases Except.ok.inj (hread'.symm.trans hread)
  have hreplace : Plan.make coveringHeaders coveringImage.size oneTable.size =
      .ok (.replace 0 ⟨".reloc", 16, 0x1000, 16, 0x40, 0x42000040⟩) := by
    decide +kernel
  cases Except.ok.inj (hplan.symm.trans hreplace)
  have hsuits := Plan.suits_of_make hplan
  rw [← oneTable.size_eq] at hsuits
  refine ⟨hrun, hread, ?_⟩
  rw [himage]
  exact Plan.read_apply_of_covers true hd ((headersFollow_iff hd).mpr (by decide)) hsuits rfl
    (by decide +kernel) (by decide +kernel)

/-- An image without sections in which the number of sections is stored at 0x3D, where the second
byte of the offset of the signature is. -/
def overlappingImage : Bytes :=
  ⟨⟨List.replicate 0x37 0 ++ [0x50, 0x45, 0, 0, 0x64, 0x37, 0, 0] ++
    List.replicate 12 0 ++ [160, 0, 0x23, 0, 0x0B, 2] ++ List.replicate 54 0 ++
    [0, 0x10, 0, 0, 0, 2, 0, 0] ++ List.replicate 44 0 ++ [6, 0, 0, 0] ++ List.replicate 88 0⟩⟩

/-- The headers of that image. -/
def overlappingHeaders : Headers :=
  { bareHeaders with fileHeaderOffset := 59, optionalHeaderOffset := 79, sectionTableOffset := 239 }

/-- The place of a new section in that image. -/
def overlappingPlace : NewSection := { barePlace with headerOffset := 239 }

/-- One section more is counted in the offset of the signature, which then leads to the zero bytes
in front of the new section. -/
theorem run_overlappingImage :
    (run { scan := false } oneRecord overlappingImage).1 = .ok (.patched ⟨1, 1, 0, 12, .appended⟩) ∧
      Headers.read overlappingImage = .ok overlappingHeaders ∧
      Headers.read (run { scan := false } oneRecord overlappingImage).2 = .error .badSignature := by
  have hrun : (run { scan := false } oneRecord overlappingImage).1 =
      .ok (.patched ⟨1, 1, 0, 12, .appended⟩) := by
    decide +kernel
  have hread : Headers.read overlappingImage = .ok overlappingHeaders := by decide +kernel
  have hd := Headers.read_eq_ok_iff.mp hread
  have hsize : overlappingImage.size = 279 := by decide +kernel
  obtain ⟨h, plan, hread', hplan, himage⟩ := exists_plan_of_run_oneRecord hrun
  cases Except.ok.inj (hread'.symm.trans hread)
  have happend : Plan.make overlappingHeaders overlappingImage.size oneTable.size =
      .ok (.append overlappingPlace) := by
    decide +kernel
  cases Except.ok.inj (hplan.symm.trans happend)
  have hsuits := Plan.suits_of_make hplan
  rw [← oneTable.size_eq] at hsuits
  refine ⟨hrun, hread, ?_⟩
  rw [himage]
  have hgap := (Plan.endsWith_append true hd hsuits).gap
  have hoffset : overlappingPlace.rawOffset.toNat = 0x200 := rfl
  rw [hsize, hoffset] at hgap
  have hmissed := word?_inside UInt32 hgap (show 32 + 4 ≤ 0x200 - 279 by decide)
  have hzero : (zeros (0x200 - 279)).word UInt32 32 = 0 := by decide +kernel
  rw [hzero] at hmissed
  refine Headers.read_of_not_signed (Plan.word32?_signatureField_of_counted true hd hsuits rfl).2 ?_
  intro hsig
  cases hmissed.symm.trans hsig

end Rebase
