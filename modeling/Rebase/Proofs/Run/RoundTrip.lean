import Rebase.Proofs.Pe.Reread
import Rebase.Proofs.Run.Job

/-!
# What a run leaves behind

A run that patches leaves an image in which its work can be read back: the headers lead to a
relocation section, the base relocation directory points to it, and the table in it asks for the
addresses that were found in the source, no more and no fewer (`run_roundTrip`).
-/

namespace Rebase

open BaseRelocation Pe

/-- An image with given headers holds a table in a section, and its directory points there. -/
structure Pe.Headers.HoldsTable (h : Headers) (file : Bytes) (s : Pe.Section) (t : Table) :
    Prop where
  headers : Headers.read file = .ok h
  relocationSection : ∃ i, h.relocationSection? = some (s, i)
  directory : h.relocationDirectory? file = some (s.virtualAddress, s.virtualSize)
  table : ∃ contents, s.stored? file = some contents ∧ Table.ofBytes contents = .ok t

namespace Job

variable {job : Job} {scan : Bool} {elf pe : Bytes}

/-- The table of a job is below 4 GiB, or there would be no plan for it. -/
theorem Prepared.tableSize_lt (h : job.Prepared scan elf pe) :
    job.patch.table.size < UInt32.size := Plan.lt_of_make h.plan

/-- The bytes of the table of a job stand for that table. -/
theorem Prepared.ofBytes_bytes (h : job.Prepared scan elf pe) :
    Table.ofBytes job.patch.table.bytes = .ok job.patch.table := by
  rw [h.table]
  exact Table.ofBytes_bytes (Table.encodable_ofSet h.fits)

/-- An image that a job was carried out on holds the table of the job. -/
theorem Prepared.holdsTable (h : job.Prepared scan elf pe) (discardable : Bool)
    (hfollow : HeadersFollow pe) (hclears : job.patch.plan.Clears job.patch.headers) :
    (job.patch.plan.headersAfter job.patch.headers job.patch.table.size discardable).HoldsTable
      (job.patch.apply discardable pe)
      (job.patch.plan.sectionAfter job.patch.table.size discardable) job.patch.table := by
  have hd := Headers.read_eq_ok_iff.mp h.headers
  have hlt := h.tableSize_lt
  have hsuits := Plan.suits_of_make h.plan
  have hkeeps := Plan.keepsHeaders hd hclears hfollow
  rw [← Table.size_eq] at hlt hsuits ⊢
  exact {
    headers := Plan.read_apply discardable h.headers hsuits hkeeps hlt
    relocationSection := ⟨_, Plan.relocationSection?_headersAfter discardable hsuits⟩
    directory := Plan.relocationDirectory?_apply discardable hd hsuits
    table := ⟨_, Plan.stored?_apply discardable hd hsuits hkeeps hlt, h.ofBytes_bytes⟩ }

end Job

/-- **A run can be read back.** The image that it leaves has headers, a relocation section to which
its directory points, and in it a table whose addresses are those that were found, in ascending
order. The flag of an image without relocations is clear, and no other flag has changed. -/
theorem run_roundTrip {options : Options} {elf pe : Bytes} {r : Report}
    (hdry : options.dryRun = false) (hrun : (run options elf pe).1 = .ok (.patched r))
    (hfollow : HeadersFollow pe)
    (hbehind : r.placement = .replaced → ∀ h s i, Headers.read pe = .ok h →
      h.relocationSection? = some (s, i) → h.sectionTableEnd ≤ s.rawOffset.toNat) :
    ∃ d h h' s t, discover options.scan elf = .ok d ∧ Headers.read pe = .ok h ∧
      Headers.HoldsTable h' (run options elf pe).2 s t ∧ s.virtualSize.toNat = r.tableSize ∧
      t.addresses = d.addresses.toList ∧ t.addresses.Pairwise (· < ·) ∧
      t.addresses.length = r.total ∧
      h'.characteristics &&& 1 = 0 ∧ h'.characteristics ||| 1 = h.characteristics ||| 1 := by
  obtain ⟨job, hjob, rfl, himage⟩ := exists_job_of_run hrun
  -- Only a section that is written over could lie across the headers.
  have hclears : job.patch.plan.Clears job.patch.headers := by
    have hsuits := Plan.suits_of_make hjob.plan
    cases hplan : job.patch.plan with
    | replace index s =>
      rw [hplan] at hsuits
      refine hbehind ?_ _ s index hjob.headers hsuits.1
      simp only [Job.report, hplan, Plan.placement]
    | append place => trivial
  have haddresses : job.patch.table.addresses = job.discovery.addresses.toList := by
    rw [hjob.table]
    exact Table.addresses_ofSet hjob.fits
  -- On both paths the section states the size of the table.
  have hsize : (job.patch.plan.sectionAfter job.patch.table.size options.discardable).virtualSize =
      UInt32.ofNat job.patch.table.size := by
    cases job.patch.plan <;> rfl
  rw [himage, hdry]
  refine ⟨_, _, _, _, _, hjob.discovery, hjob.headers,
    hjob.holdsTable options.discardable hfollow hclears, ?_, haddresses, ?_, ?_, ?_, ?_⟩
  · rw [hsize, UInt32.toNat_ofNat', Nat.mod_eq_of_lt hjob.tableSize_lt]
    rfl
  · rw [haddresses]
    exact AddressSet.pairwise_toList _
  · rw [haddresses, Std.ExtTreeSet.length_toList]
    rfl
  · exact withRelocations_and_one _
  · exact withRelocations_or_one _

/-- A source image with one section, `.rela.data`, which is also the one that holds the names. It
has one record, of the absolute type, for the address 0x1000. -/
def oneRecord : Bytes :=
  ⟨⟨[0x7F, 0x45, 0x4C, 0x46, 2, 1, 1, 0] ++ List.replicate 8 0 ++ [2, 0, 243, 0, 1, 0, 0, 0] ++
    List.replicate 16 0 ++ [64, 0, 0, 0, 0, 0, 0, 0] ++ List.replicate 4 0 ++ [64, 0] ++
    List.replicate 4 0 ++ [64, 0, 1, 0, 0, 0] ++
    [24, 0, 0, 0, 4, 0, 0, 0] ++ List.replicate 16 0 ++ [128, 0, 0, 0, 0, 0, 0, 0] ++
    [24, 0, 0, 0, 0, 0, 0, 0] ++ List.replicate 16 0 ++ [24, 0, 0, 0, 0, 0, 0, 0] ++
    [0, 0x10, 0, 0, 0, 0, 0, 0, 2, 0, 0, 0, 0, 0, 0, 0] ++ List.replicate 8 0 ++
    [46, 114, 101, 108, 97, 46, 100, 97, 116, 97, 0]⟩⟩

/-- The record gets a table of one address in a new section of the image without sections. -/
theorem run_oneRecord :
    (run { scan := false } oneRecord bareImage).1 = .ok (.patched ⟨1, 1, 0, 12, .appended⟩) := by
  decide +kernel

/-- In the image with a relocation section the table is written over it. -/
theorem run_oneRecord_sectionImage :
    (run { scan := false } oneRecord sectionImage).1 =
      .ok (.patched ⟨1, 1, 0, 12, .replaced⟩) := by
  decide +kernel

theorem run_roundTrip_twoImages :
    (run { scan := false } oneRecord bareImage).1 = .ok (.patched ⟨1, 1, 0, 12, .appended⟩) ∧
      HeadersFollow bareImage ∧
      (∃ d h h' s t, discover false oneRecord = .ok d ∧ Headers.read bareImage = .ok h ∧
        Headers.HoldsTable h' (run { scan := false } oneRecord bareImage).2 s t ∧
        s.virtualSize.toNat = 12 ∧ t.addresses = d.addresses.toList ∧
        t.addresses.Pairwise (· < ·) ∧ t.addresses.length = 1 ∧
        h'.characteristics &&& 1 = 0 ∧ h'.characteristics ||| 1 = h.characteristics ||| 1) ∧
      (run { scan := false } oneRecord sectionImage).1 = .ok (.patched ⟨1, 1, 0, 12, .replaced⟩) ∧
      HeadersFollow sectionImage ∧
      (∀ h s i, Headers.read sectionImage = .ok h → h.relocationSection? = some (s, i) →
        h.sectionTableEnd ≤ s.rawOffset.toNat) ∧
      ∃ d h h' s t, discover false oneRecord = .ok d ∧ Headers.read sectionImage = .ok h ∧
        Headers.HoldsTable h' (run { scan := false } oneRecord sectionImage).2 s t ∧
        s.virtualSize.toNat = 12 ∧ t.addresses = d.addresses.toList ∧
        t.addresses.Pairwise (· < ·) ∧ t.addresses.length = 1 ∧
        h'.characteristics &&& 1 = 0 ∧ h'.characteristics ||| 1 = h.characteristics ||| 1 := by
  have hbehind : ∀ h s i, Headers.read sectionImage = .ok h →
      h.relocationSection? = some (s, i) → h.sectionTableEnd ≤ s.rawOffset.toNat := by
    intro h s i hread hfound
    cases Except.ok.inj (hread.symm.trans read_sectionImage)
    cases hfound
    decide
  have hnew := run_roundTrip rfl run_oneRecord headersFollow_bareImage (fun h => by cases h)
  have hover := run_roundTrip rfl run_oneRecord_sectionImage headersFollow_sectionImage
    fun _ => hbehind
  exact ⟨run_oneRecord, headersFollow_bareImage, hnew, run_oneRecord_sectionImage,
    headersFollow_sectionImage, hbehind, hover⟩

end Rebase
