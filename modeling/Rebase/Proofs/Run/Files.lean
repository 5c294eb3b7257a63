import Rebase.Host

/-!
# Runs on the files of a tree

On a file tree a run on two files is a run on their contents. Four things can happen: one of the two
files cannot be read, the destination is written, or nothing is (`FileRun`, `patchFile_run`). What
this means for the two paths is gathered in `Refines`: the result is that of the run on the
contents, the destination ends as that run leaves it, and no other place of the tree changes
(`FileRun.refines`).

A path may lead through a place that is written to. It still leads to where it led, because one
regular file takes the place of another there (`FileTree.locate_set_regular`).
-/

namespace Rebase

/-! ## §1 Paths in a tree -/

namespace FileTree

variable {tree : FileTree} {path : String}

/-- What is at a path. Nothing is at one that does not lead to a place. -/
def stateAt (tree : FileTree) (path : String) : FileState :=
  match tree.locate path with
  | .error _ => .absent
  | .ok place => tree.state place

/-- Two paths do not lead to one place. -/
def Apart (tree : FileTree) (path other : String) : Prop :=
  ∀ place, tree.locate path = .ok place → tree.locate other ≠ .ok place

theorem stateAt_of_locate {place : Place} (h : tree.locate path = .ok place) :
    tree.stateAt path = tree.state place := by
  simp only [stateAt, h]

/-- A path can be read exactly when there is a regular file at it. -/
theorem read_eq_ok_iff_stateAt {contents : Bytes} :
    tree.read path = .ok contents ↔ tree.stateAt path = .regular contents := by
  rw [read_eq_ok_iff, stateAt]
  cases tree.locate path <;> simp

/-- There is no regular file at a path that cannot be read. -/
private theorem stateAt_ne_of_read_eq_error {fault : FileFault} (h : tree.read path = .error fault)
    (contents : Bytes) : tree.stateAt path ≠ .regular contents := by
  rw [Ne, ← read_eq_ok_iff_stateAt, h]
  exact nofun

private theorem eq_of_read_of_stateAt {read stored : Bytes} (h : tree.read path = .ok read)
    (hstate : tree.stateAt path = .regular stored) : stored = read := by
  rw [read_eq_ok_iff_stateAt.mp h] at hstate
  cases hstate
  rfl

section Written

variable {place : Place} {old : Bytes} (hold : tree.state place = .regular old) (new : Bytes)

include hold

/-- No name can be looked up in a regular file, whatever its contents are. -/
private theorem step_set_regular : (tree.set place (.regular new)).step = tree.step := by
  funext at_ name
  by_cases h : at_ = place
  · subst h
    simp only [step, state_set_self, hold]
  · simp only [step, state_set_of_ne tree _ h]

/-- **Paths lead to where they led** when the contents of a file change. -/
theorem locate_set_regular (path : String) :
    (tree.set place (.regular new)).locate path = tree.locate path := by
  rw [locate, step_set_regular hold new]
  rfl

/-- What is at the path of the file are its new contents. -/
private theorem stateAt_set_regular (h : tree.locate path = .ok place) :
    (tree.set place (.regular new)).stateAt path = .regular new := by
  rw [stateAt_of_locate ((locate_set_regular hold new path).trans h), state_set_self]

/-- What is at a path that leads elsewhere is what was there. -/
private theorem stateAt_set_regular_of_ne (h : tree.locate path ≠ .ok place) :
    (tree.set place (.regular new)).stateAt path = tree.stateAt path := by
  rw [stateAt, locate_set_regular hold new path, stateAt]
  cases hlocate : tree.locate path with
  | error fault => rfl
  | ok other =>
    refine state_set_of_ne tree _ fun hsame => h ?_
    rw [hlocate, hsame]

end Written

end FileTree

/-! ## §2 The ways a run can go -/

/-- How a run on two files can go: how it ends, and the tree after it. -/
inductive FileRun (options : Options) (elfPath pePath : String) (tree : FileTree) :
    Except Error Outcome → FileTree → Prop where
  | noSource {fault : FileFault} (helf : tree.read elfPath = .error fault) :
      FileRun options elfPath pePath tree (.error (.file elfPath fault)) tree
  | noDestination {elf : Bytes} {fault : FileFault} (helf : tree.read elfPath = .ok elf)
      (hpe : tree.read pePath = .error fault) :
      FileRun options elfPath pePath tree (.error (.file pePath fault)) tree
  | written {elf pe : Bytes} {r : Report} {place : Place} (helf : tree.read elfPath = .ok elf)
      (hplace : tree.locate pePath = .ok place) (hpe : tree.state place = .regular pe)
      (hrun : (run options elf pe).1 = .ok (.patched r)) (hdry : options.dryRun = false) :
      FileRun options elfPath pePath tree (.ok (.patched r))
        (tree.set place (.regular (run options elf pe).2))
  | unchanged {elf pe : Bytes} (helf : tree.read elfPath = .ok elf)
    (hpe : tree.read pePath = .ok pe)
      (hnothing : options.dryRun = true ∨ ∀ r, (run options elf pe).1 ≠ .ok (.patched r)) :
      FileRun options elfPath pePath tree (run options elf pe).1 tree

section Steps

variable {tree after : FileTree}

/-- The step that follows starts with what the first one leaves. -/
private theorem run_bind {α β : Type} {step : StateM FileTree α} {next : α → StateM FileTree β}
    {found : α}
    (h : step.run tree = (found, after)) : (step >>= next).run tree = (next found).run after := by
  show (next (step.run tree).1).run (step.run tree).2 = _
  rw [h]

/-- A result that is only reworded leaves the same tree. -/
theorem run_map {α β : Type} {step : StateM FileTree α} {reword : α → β} {found : α}
    (h : step.run tree = (found, after)) : (reword <$> step).run tree = (reword found, after) := by
  show (reword (step.run tree).1, (step.run tree).2) = _
  rw [h]

private theorem readFile_run {path : String} {found : Except FileFault Bytes}
    (h : tree.read path = found) :
    (Host.readFile path : StateM FileTree _).run tree = (found, tree) :=
  congrArg (·, tree) h

private theorem writeFile_run {path : String} {contents : Bytes} {written : Except FileFault Unit}
    (h : tree.write path contents = (written, after)) :
    (Host.writeFile path contents : StateM FileTree _).run tree = (written, after) := h

private theorem note_run (events : List Event) :
    (Host.note events : StateM FileTree Unit).run tree = ((), tree) := rfl

end Steps

section Runs

variable {options : Options} {elfPath pePath : String} {tree : FileTree}

/-- A run that patches, and is not a dry one, writes the destination. -/
private theorem patchFile_of_patched {elf pe : Bytes} {r : Report} {place : Place}
    (helf : tree.read elfPath = .ok elf) (hplace : tree.locate pePath = .ok place)
    (hpe : tree.state place = .regular pe) (hrun : (run options elf pe).1 = .ok (.patched r))
    (hdry : options.dryRun = false) :
    (patchFile options elfPath pePath : StateM FileTree _).run tree =
      (.ok (.patched r), tree.set place (.regular (run options elf pe).2)) := by
  have hread : tree.read pePath = .ok pe := FileTree.read_eq_ok_iff.mpr ⟨place, hplace, hpe⟩
  have hwrite := FileTree.write_of_regular (run options elf pe).2 hplace hpe
  refine (run_bind (readFile_run helf)).trans ((run_bind (readFile_run hread)).trans
    ((run_bind (note_run _)).trans ?_))
  cases hpatched : run options elf pe with
  | mk result patched =>
    rw [hpatched] at hrun hwrite
    cases hrun
    simp only [hdry, Bool.false_eq_true, if_false]
    exact run_bind (writeFile_run hwrite)

/-- A run that does not patch, or is a dry one, leaves the tree as it was. -/
private theorem patchFile_of_unchanged {elf pe : Bytes} (helf : tree.read elfPath = .ok elf)
    (hpe : tree.read pePath = .ok pe)
    (hnothing : options.dryRun = true ∨ ∀ r, (run options elf pe).1 ≠ .ok (.patched r)) :
    (patchFile options elfPath pePath : StateM FileTree _).run tree =
      ((run options elf pe).1, tree) := by
  refine (run_bind (readFile_run helf)).trans ((run_bind (readFile_run hpe)).trans
    ((run_bind (note_run _)).trans ?_))
  cases hend : run options elf pe with
  | mk result patched =>
    rw [hend] at hnothing
    match result, hnothing with
    | .error e, _ => rfl
    | .ok .noRelocations, _ => rfl
    | .ok (.patched r), .inl hdry =>
      simp only [hdry, if_true]
      rfl
    | .ok (.patched r), .inr hnone => exact absurd rfl (hnone r)

/-- **A run on two files goes one of these ways.** The source is read first, so a fault of it is
reported even where the destination has one too. -/
theorem patchFile_run (options : Options) (elfPath pePath : String) (tree : FileTree) :
    ∃ result after,
      (patchFile options elfPath pePath : StateM FileTree _).run tree = (result, after) ∧
        FileRun options elfPath pePath tree result after := by
  cases helf : tree.read elfPath with
  | error fault => exact ⟨_, _, run_bind (readFile_run helf), .noSource helf⟩
  | ok elf =>
    cases hpe : tree.read pePath with
    | error fault =>
      exact ⟨_, _, (run_bind (readFile_run helf)).trans (run_bind (readFile_run hpe)),
        .noDestination helf hpe⟩
    | ok pe =>
      by_cases hnothing : options.dryRun = true ∨ ∀ r, (run options elf pe).1 ≠ .ok (.patched r)
      · exact ⟨_, _, patchFile_of_unchanged helf hpe hnothing, .unchanged helf hpe hnothing⟩
      · obtain ⟨hdry, hpatched⟩ := not_or.mp hnothing
        obtain ⟨r, hrun⟩ := Classical.not_forall_not.mp hpatched
        obtain ⟨place, hplace, hstate⟩ := FileTree.read_eq_ok_iff.mp hpe
        rw [Bool.not_eq_true] at hdry
        exact ⟨_, _, patchFile_of_patched helf hplace hstate hrun hdry,
          .written helf hplace hstate hrun hdry⟩

end Runs

/-! ## §3 What that means for the two paths -/

/-- A run on two files does what the run on their contents does. A path at which there is no regular
file is reported, the source before the destination. The destination ends as the run on the contents
leaves it, if that has patched it and is not a dry one; nothing changes at any other path, and no
place that was empty is filled. -/
structure Refines (options : Options) (elfPath pePath : String) (tree : FileTree)
    (result : Except Error Outcome) (after : FileTree) : Prop where
  noSource : (∀ elf, tree.stateAt elfPath ≠ .regular elf) →
    ∃ fault, tree.read elfPath = .error fault ∧ result = .error (.file elfPath fault)
  noDestination : ∀ elf, tree.stateAt elfPath = .regular elf →
    (∀ pe, tree.stateAt pePath ≠ .regular pe) →
      ∃ fault, tree.read pePath = .error fault ∧ result = .error (.file pePath fault)
  sameResult : ∀ elf pe, tree.stateAt elfPath = .regular elf → tree.stateAt pePath = .regular pe →
    result = (run options elf pe).1
  written : ∀ elf pe r, tree.stateAt elfPath = .regular elf → tree.stateAt pePath = .regular pe →
    options.dryRun = false → result = .ok (.patched r) →
      after.stateAt pePath = .regular (run options elf pe).2
  unchanged : (options.dryRun = true ∨ ∀ r, result ≠ .ok (.patched r)) → after = tree
  others : ∀ path, tree.Apart path pePath → after.stateAt path = tree.stateAt path
  created : ∀ place, tree.state place = .absent → after.state place = .absent

/-- **However a run on two files goes**, it does what the run on their contents does. -/
theorem FileRun.refines {options : Options} {elfPath pePath : String} {tree after : FileTree}
    {result : Except Error Outcome} (h : FileRun options elfPath pePath tree result after) :
    Refines options elfPath pePath tree result after := by
  cases h with
  | noSource helf =>
    -- There is no file to read, so what is said of its contents is void.
    have hnone := FileTree.stateAt_ne_of_read_eq_error helf
    exact {
      noSource := fun _ => ⟨_, helf, rfl⟩
      noDestination := fun elf h => absurd h (hnone elf)
      sameResult := fun elf _ h => absurd h (hnone elf)
      written := fun elf _ _ h => absurd h (hnone elf)
      unchanged := fun _ => rfl
      others := fun _ _ => rfl
      created := fun _ h => h }
  | noDestination helf hpe =>
    have hsome := FileTree.read_eq_ok_iff_stateAt.mp helf
    have hnone := FileTree.stateAt_ne_of_read_eq_error hpe
    exact {
      noSource := fun h => absurd hsome (h _)
      noDestination := fun _ _ _ => ⟨_, hpe, rfl⟩
      sameResult := fun _ pe _ h => absurd h (hnone pe)
      written := fun _ pe _ _ h => absurd h (hnone pe)
      unchanged := fun _ => rfl
      others := fun _ _ => rfl
      created := fun _ h => h }
  | @written elf pe r place helf hplace hstate hrun hdry =>
    have hpe : tree.read pePath = .ok pe := FileTree.read_eq_ok_iff.mpr ⟨place, hplace, hstate⟩
    exact {
      noSource := fun h => absurd (FileTree.read_eq_ok_iff_stateAt.mp helf) (h _)
      noDestination := fun _ _ h => absurd (FileTree.read_eq_ok_iff_stateAt.mp hpe) (h _)
      sameResult := by
        intro elf' pe' helf' hpe'
        rw [FileTree.eq_of_read_of_stateAt helf helf',
          FileTree.eq_of_read_of_stateAt hpe hpe', hrun]
      written := by
        intro elf' pe' _ helf' hpe' _ _
        rw [FileTree.eq_of_read_of_stateAt helf helf', FileTree.eq_of_read_of_stateAt hpe hpe']
        exact FileTree.stateAt_set_regular hstate _ hplace
      unchanged := by
        rintro (hdry' | hnone)
        · rw [hdry] at hdry'
          cases hdry'
        · exact absurd rfl (hnone r)
      others := fun path hapart =>
        FileTree.stateAt_set_regular_of_ne hstate _ fun h => hapart place h hplace
      created := by
        intro other habsent
        -- The place that was written to held a file before.
        rw [FileTree.state_set_of_ne, habsent]
        rintro rfl
        rw [hstate] at habsent
        cases habsent }
  | @unchanged elf pe helf hpe hnothing =>
    exact {
      noSource := fun h => absurd (FileTree.read_eq_ok_iff_stateAt.mp helf) (h _)
      noDestination := fun _ _ h => absurd (FileTree.read_eq_ok_iff_stateAt.mp hpe) (h _)
      sameResult := by
        intro elf' pe' helf' hpe'
        rw [FileTree.eq_of_read_of_stateAt helf helf', FileTree.eq_of_read_of_stateAt hpe hpe']
      written := by
        intro _ _ r _ _ hdry hpatched
        rcases hnothing with hdry' | hnone
        · rw [hdry] at hdry'
          cases hdry'
        · exact absurd hpatched (hnone r)
      unchanged := fun _ => rfl
      others := fun _ _ => rfl
      created := fun _ h => h }

end Rebase
