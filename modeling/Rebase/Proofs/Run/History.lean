import Rebase.Proofs.Pe.Growth
import Rebase.Proofs.Run.RoundTrip

/-!
# Histories of an image

An image can be run on again and again, each time with another source and other choices; some of the
runs fail, find nothing to relocate, or are dry ones. `Image.Reached` is what holds of the image at
every point of such a history, `Image.Reached.step` that one more run keeps it, and
`imageAfter_grown` what it means for an image that was written to at least once.

**Setting:** the image has no relocation section at first. Every section with that name was
therefore appended by a run of the history, and the layout of the image is known from there on.
-/

namespace Rebase

open BaseRelocation Pe

/-! ## §1 Histories -/

/-- One run of a history. -/
structure Step where
  options : Options
  elf : Bytes

namespace Step

/-- The image after a run. -/
def apply (step : Step) (pe : Bytes) : Bytes := (run step.options step.elf pe).2

/-- How a run wrote a table, if it wrote one. -/
def written? (step : Step) (pe : Bytes) : Option Placement :=
  match (run step.options step.elf pe).1 with
  | .ok (.patched r) => if step.options.dryRun then none else some r.placement
  | _ => none

private theorem written?_of_run {step : Step} {pe : Bytes} {r : Report}
    (hrun : (run step.options step.elf pe).1 = .ok (.patched r))
    (hdry : step.options.dryRun = false) : step.written? pe = some r.placement := by
  simp [written?, hrun, hdry]

/-- A run leaves the image as it was, or carries out a job on it. -/
theorem cases (step : Step) (pe : Bytes) :
    step.written? pe = none ∧ step.apply pe = pe ∨
      ∃ job : Job, job.Prepared step.options.scan step.elf pe ∧
        step.written? pe = some job.report.placement ∧
        step.apply pe = job.patch.apply step.options.discardable pe := by
  rw [written?, apply, run_eq_finish]
  cases hprepare : prepare step.options.scan step.elf pe with
  | error e => exact .inl ⟨rfl, rfl⟩
  | ok found =>
    cases found with
    | none => exact .inl ⟨rfl, rfl⟩
    | some job =>
      have hjob := prepare_eq_some_iff.mp hprepare
      cases hdry : step.options.dryRun with
      | true => exact .inl ⟨by simp [finish], by simp [finish, hdry]⟩
      | false => exact .inr ⟨job, hjob, by simp [finish], by simp [finish, hdry]⟩

end Step

/-- The image after all runs of a history. -/
def imageAfter : List Step → Bytes → Bytes
  | [], pe => pe
  | step :: rest, pe => imageAfter rest (step.apply pe)

/-- How the runs of a history that wrote a table wrote it, in order. -/
def placements : List Step → Bytes → List Placement
  | [], _ => []
  | step :: rest, pe => (step.written? pe).toList ++ placements rest (step.apply pe)

private theorem placements_ne_nil {step : Step} {pe : Bytes} {p : Placement}
    (hwritten : step.written? pe = some p) (rest : List Step) :
    placements (step :: rest) pe ≠ [] := by
  simp [placements, hwritten]

/-! ## §2 One run -/

/-- **An image at some point of a history** that began with the headers `h₀`; by now the sections
`added` have been appended. -/
structure Image.Reached (h₀ : Headers) (file : Bytes) (added : List Pe.Section) : Prop where
  follow : HeadersFollow file
  grown : ∃ h, Headers.read file = .ok h ∧ Headers.Grown h₀ h file.size added ∧
    ∀ s, added.getLast? = some s →
      h.relocationDirectory? file = some (s.virtualAddress, s.virtualSize)

namespace Image.Reached

variable {h₀ : Headers} {file : Bytes} {added : List Pe.Section}

/-- The image that a history begins with. -/
theorem start (hread : Headers.read file = .ok h₀) (hfollow : HeadersFollow file) :
    Reached h₀ file [] where
  follow := hfollow
  grown := by
    refine ⟨h₀, hread, ?_, by simp⟩
    exact ⟨rfl, (List.append_nil _).symm, by simp, List.Pairwise.nil, by simp⟩

/-- **A run that writes** appends a section or writes over the last one that was appended. -/
theorem job {job : Job} {scan : Bool} {elf : Bytes} (hr : Reached h₀ file added)
    (hnone : ∀ s ∈ h₀.sections, s.name ≠ relocationSectionName)
    (hjob : job.Prepared scan elf file) (discardable : Bool) :
    ∃ added', added' ≠ [] ∧ Reached h₀ (job.patch.apply discardable file) added' ∧
      added'.length = added.length + [job.report.placement].count .appended := by
  -- The job was made for the headers that the invariant speaks of.
  obtain ⟨h, hread, hg, _⟩ := hr.grown
  obtain rfl : job.patch.headers = h := Except.ok.inj (hjob.headers.symm.trans hread)
  have hd := Headers.read_eq_ok_iff.mp hread
  have hlt := hjob.tableSize_lt
  have hsuits := Plan.suits_of_make hjob.plan
  have hholds := hjob.holdsTable discardable hr.follow (hg.clears hnone hlt hsuits)
  obtain ⟨earlier, hgrown, hlength⟩ := hg.after hnone hlt hsuits discardable
  have hsize : (job.patch.apply discardable file).size =
      job.patch.plan.fileSizeAfter file.size := by
    rw [← Table.size_eq] at hsuits
    exact Plan.size_apply discardable hd hsuits
  rw [← hsize] at hgrown
  refine ⟨_, by simp, ⟨?_, _, hholds.headers, hgrown, ?_⟩, ?_⟩
  · -- The headers are where they were.
    have hfollow := (headersFollow_iff hd).mp hr.follow
    exact (headersFollow_iff (Headers.read_eq_ok_iff.mp hholds.headers)).mpr hfollow
  · intro s hs
    rw [List.getLast?_concat] at hs
    cases hs
    exact hholds.directory
  · rw [List.length_append]
    exact hlength

/-- **One run more**, whatever it does. -/
theorem step (hr : Reached h₀ file added)
    (hnone : ∀ s ∈ h₀.sections, s.name ≠ relocationSectionName) (step : Step) :
    ∃ added', Reached h₀ (step.apply file) added' ∧
      added'.length = added.length + (step.written? file).toList.count .appended ∧
      ((step.written? file).isSome → added' ≠ []) := by
  -- A run that does not write leaves the image at the point of the history where it was.
  rcases step.cases file with ⟨hwritten, himage⟩ | ⟨job, hjob, hwritten, himage⟩
  · rw [hwritten, himage]
    exact ⟨added, hr, by simp, by simp⟩
  · obtain ⟨added', hne, hr', hlength⟩ := hr.job hnone hjob step.options.discardable
    rw [hwritten, himage]
    exact ⟨added', hr', hlength, fun _ => hne⟩

/-! ## §3 All runs -/

/-- **All runs of a history.** The induction is on the history, for any image that it can begin
with: after the first run the rest is a history of an image that has already grown. -/
theorem after (hr : Reached h₀ file added)
    (hnone : ∀ s ∈ h₀.sections, s.name ≠ relocationSectionName) (steps : List Step) :
    ∃ added', Reached h₀ (imageAfter steps file) added' ∧
      added'.length = added.length + (placements steps file).count .appended ∧
      (added ≠ [] ∨ placements steps file ≠ [] → added' ≠ []) := by
  induction steps generalizing file added with
  | nil => exact ⟨added, hr, by simp [placements], by simp [placements]⟩
  | cons step rest ih =>
    obtain ⟨middle, hmiddle, hlength, hwritten⟩ := hr.step hnone step
    obtain ⟨added', hr', hlength', hrest⟩ := ih hmiddle
    refine ⟨added', hr', ?_, ?_⟩
    · rw [placements, List.count_append, hlength', hlength, Nat.add_assoc]
    · intro hsome
      apply hrest
      -- An image that was written to before or in this run has a section that was appended.
      cases hfirst : step.written? file with
      | none =>
        rw [placements, hfirst, Option.toList_none, List.nil_append] at hsome
        rw [hfirst, Option.toList_none, List.count_nil, Nat.add_zero] at hlength
        rcases hsome with hadded | hlater
        · refine .inl fun hnil => hadded ?_
          rw [← List.length_eq_zero_iff, ← hlength, hnil, List.length_nil]
        · exact .inr hlater
      | some p => exact .inl (hwritten (by rw [hfirst]; rfl))

end Image.Reached

/-- **An image with a history** can be read, and its directory points to its relocation section.
That has room for its table, is inside the file, and lies inside the memory of the image. The
sections are those that were there at first, followed by relocation sections that get larger and lie
behind each other; the number of sections that is stored has grown by one for each run that appended
one. -/
theorem imageAfter_grown {pe : Bytes} {h₀ : Headers} (hread : Headers.read pe = .ok h₀)
    (hfollow : HeadersFollow pe) (hnone : ∀ s ∈ h₀.sections, s.name ≠ relocationSectionName)
    (steps : List Step) (hwritten : placements steps pe ≠ []) :
    ∃ h s added, Headers.read (imageAfter steps pe) = .ok h ∧
      (∃ i, h.relocationSection? = some (s, i)) ∧
      h.relocationDirectory? (imageAfter steps pe) = some (s.virtualAddress, s.virtualSize) ∧
      s.virtualSize.toNat ≤ s.rawSize.toNat ∧
      s.rawOffset.toNat + s.rawSize.toNat ≤ (imageAfter steps pe).size ∧
      s.virtualAddress.toNat + s.virtualSize.toNat ≤ h.sizeOfImage.toNat ∧
      h.sectionTableOffset = h₀.sectionTableOffset ∧ h.sections = h₀.sections ++ added ∧
      (∀ t ∈ added, t.name = relocationSectionName) ∧ added.Pairwise Section.Before ∧
      ((imageAfter steps pe).word? UInt16 h.sectionCountOffset).map UInt16.toNat =
        some (h₀.sectionCount + (placements steps pe).count .appended) := by
  obtain ⟨added, hr, hlength, hne⟩ := (Image.Reached.start hread hfollow).after hnone steps
  obtain ⟨h, hread', hg, hdirectory⟩ := hr.grown
  -- Something was written, so the list of the sections that were appended has a last one.
  rcases List.eq_nil_or_concat' added with hnil | ⟨earlier, s, rfl⟩
  · exact absurd hnil (hne (.inr hwritten))
  have hends := hg.last s (by simp)
  obtain ⟨n, hn, hcount⟩ := (Headers.read_eq_ok_iff.mp hread').count
  refine ⟨h, s, _, hread', ⟨_, hg.relocationSection?_eq⟩, hdirectory s (by simp), hends.fits,
    hends.inFile, ?_, hg.table, hg.sections, hg.named, hg.ordered, ?_⟩
  -- The memory of a section is no more than its contents, and the image has room for those.
  · have hfits := hends.fits
    have hinside := hends.inImage
    omega
  · rw [hn, Option.map_some, ← hcount, Headers.sectionCount, hg.sections, List.length_append,
      hlength, List.length_nil, Nat.zero_add]
    rfl

/-- A history of three runs of which the second is a dry one. -/
def threeRuns : List Step :=
  [⟨{ scan := false }, oneRecord⟩, ⟨{ dryRun := true }, oneRecord⟩,
    ⟨{ discardable := false }, oneRecord⟩]

theorem imageAfter_grown_threeRuns :
    Headers.read bareImage = .ok bareHeaders ∧ HeadersFollow bareImage ∧
      (∀ s ∈ bareHeaders.sections, s.name ≠ relocationSectionName) ∧
      placements threeRuns bareImage ≠ [] ∧
      ∃ h s added, Headers.read (imageAfter threeRuns bareImage) = .ok h ∧
        (∃ i, h.relocationSection? = some (s, i)) ∧
        h.relocationDirectory? (imageAfter threeRuns bareImage) =
          some (s.virtualAddress, s.virtualSize) ∧
        s.virtualSize.toNat ≤ s.rawSize.toNat ∧
        s.rawOffset.toNat + s.rawSize.toNat ≤ (imageAfter threeRuns bareImage).size ∧
        s.virtualAddress.toNat + s.virtualSize.toNat ≤ h.sizeOfImage.toNat ∧
        h.sectionTableOffset = bareHeaders.sectionTableOffset ∧
        h.sections = bareHeaders.sections ++ added ∧
        (∀ t ∈ added, t.name = relocationSectionName) ∧ added.Pairwise Section.Before ∧
        ((imageAfter threeRuns bareImage).word? UInt16 h.sectionCountOffset).map UInt16.toNat =
          some (bareHeaders.sectionCount + (placements threeRuns bareImage).count .appended) := by
  have hnone : ∀ s ∈ bareHeaders.sections, s.name ≠ relocationSectionName := by simp [bareHeaders]
  have hfirst : Step.written? ⟨{ scan := false }, oneRecord⟩ bareImage = some .appended :=
    Step.written?_of_run (r := ⟨1, 1, 0, 12, .appended⟩) run_oneRecord rfl
  have hwritten : placements threeRuns bareImage ≠ [] := placements_ne_nil hfirst _
  exact ⟨read_bareImage, headersFollow_bareImage, hnone, hwritten,
    imageAfter_grown read_bareImage headersFollow_bareImage hnone threeRuns hwritten⟩

end Rebase
