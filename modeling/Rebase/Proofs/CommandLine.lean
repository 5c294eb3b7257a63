import Rebase.CommandLine
import Rebase.Proofs.Fallible
import Rebase.Proofs.Run.Files
import Rebase.Proofs.Run.RoundTrip

/-!
# What a command line asks for

Arguments give flags and paths in any order, each flag once at most, and behind `--` all of them are
paths (`Gives`). The program reads exactly such arguments, if they give two paths
(`parse_eq_ok_iff`), and then does on a file tree what a run on the two files does
(`execute_refines`).
-/

namespace Rebase.CommandLine

open Fallible

/-! ## §1 Arguments -/

/-- The name of a flag. -/
def Flag.name : Flag → String
  | .dryRun => "dry-run"
  | .noDiscard => "no-discard"
  | .noScan => "no-scan"

/-- The argument that gives a flag. -/
def Flag.argument (flag : Flag) : String := "--" ++ flag.name

/-- An argument that is taken for a path. It does not look like an option, which a single dash does
not. -/
def Positional (argument : String) : Prop :=
  argument ≠ "" ∧ (argument = "-" ∨ argument.toList.head? ≠ some '-')

/-- The flags and the paths that arguments give, in their order. -/
inductive Gives : List String → List Flag → List String → Prop where
  | nil : Gives [] [] []
  | flag {rest paths : List String} {flags : List Flag} (flag : Flag) (hnew : flag ∉ flags)
      (hrest : Gives rest flags paths) : Gives (flag.argument :: rest) (flag :: flags) paths
  | path {rest paths : List String} {flags : List Flag} {path : String} (hpath : Positional path)
      (hrest : Gives rest flags paths) : Gives (path :: rest) flags (path :: paths)
  | ended {paths : List String} (hpaths : ∀ path ∈ paths, path ≠ "") :
    Gives ("--" :: paths) [] paths

/-- What flags ask for. -/
def optionsOf (flags : List Flag) : Options where
  discardable := .noDiscard ∉ flags
  scan := .noScan ∉ flags
  dryRun := .dryRun ∈ flags

private theorem Flag.toList_argument (flag : Flag) :
    flag.argument.toList = '-' :: '-' :: flag.name.toList := by
  cases flag <;> rfl

private theorem Flag.ofName?_eq_some_iff {name : String} {flag : Flag} :
    ofName? name = some flag ↔ name = flag.name := by
  constructor
  · intro h
    unfold ofName? at h
    split at h
    · next hname =>
      cases h
      exact hname
    · split at h
      · next hname =>
        cases h
        exact hname
      · split at h
        · next hname =>
          cases h
          exact hname
        · cases h
  · rintro rfl
    cases flag <;> decide

/-! ## §2 Reading arguments -/

namespace Arguments

variable {a b : Arguments}

private theorem addPath_eq_ok_iff {path : String} :
    a.addPath path = .ok b ↔
      path ≠ "" ∧ a.paths.length < 2 ∧ b = { a with paths := a.paths ++ [path] } := by
  unfold addPath
  split
  · next h =>
    simp only [reduceCtorEq, false_iff]
    rintro ⟨hempty, hlt, _⟩
    rcases h with h | h
    · exact hempty h
    · omega
  · next h =>
    obtain ⟨hempty, hlt⟩ := not_or.mp h
    rw [Except.ok.injEq, eq_comm]
    exact ⟨fun hb => ⟨hempty, Nat.not_le.mp hlt, hb⟩, fun hb => hb.2.2⟩

private theorem addFlag_eq_ok_iff {flag : Flag} :
    a.addFlag flag = .ok b ↔ flag ∉ a.flags ∧ b = { a with flags := flag :: a.flags } := by
  unfold addFlag
  split
  · next h => simp [h]
  · next h => simp [h, eq_comm]

/-- The long options that a run can have are the flags. -/
theorem addLong_eq_ok_iff {text : List Char} :
    a.addLong text = .ok b ↔ ∃ flag : Flag, text = flag.name.toList ∧ a.addFlag flag = .ok b := by
  -- The two options that stop the program are told apart from the flags first.
  have hother : ∀ flag : Flag, flag.name ≠ "help" ∧ flag.name ≠ "version" := by
    intro flag
    cases flag <;> decide
  have htext : ∀ flag : Flag, text = flag.name.toList ↔ String.ofList text = flag.name := by
    intro flag
    constructor
    · rintro rfl
      exact String.ofList_toList
    · intro h
      rw [← h, String.toList_ofList]
  simp only [htext]
  unfold addLong
  simp only
  split
  · next hhelp =>
    simp only [reduceCtorEq, false_iff]
    rintro ⟨flag, hname, _⟩
    exact (hother flag).1 (hname ▸ hhelp)
  split
  · next hversion =>
    simp only [reduceCtorEq, false_iff]
    rintro ⟨flag, hname, _⟩
    exact (hother flag).2 (hname ▸ hversion)
  split
  · next flag hflag =>
    rw [Flag.ofName?_eq_some_iff] at hflag
    constructor
    · exact fun h => ⟨flag, hflag, h⟩
    · rintro ⟨other, hname, h⟩
      rw [← Flag.ofName?_eq_some_iff, hflag, Flag.ofName?_eq_some_iff.mpr rfl] at hname
      cases hname
      exact h
  · next hnone =>
    simp only [reduceCtorEq, false_iff]
    rintro ⟨flag, hname, _⟩
    rw [Flag.ofName?_eq_some_iff.mpr hname] at hnone
    cases hnone

private theorem addShort_ne_ok (letter : Char) : addShort letter ≠ .ok b := by
  unfold addShort
  split
  · exact nofun
  · split <;> exact nofun

/-- **One argument** gives a flag or a path, or it is refused. -/
theorem add_eq_ok_iff {argument : String} :
    a.add argument = .ok b ↔
      (∃ flag : Flag, argument = flag.argument ∧ a.addFlag flag = .ok b) ∨
        (Positional argument ∧ a.addPath argument = .ok b) := by
  have hflag : ∀ flag : Flag, argument = flag.argument ↔
      argument.toList = '-' :: '-' :: flag.name.toList := fun flag => by
    rw [← flag.toList_argument, String.toList_inj]
  have hdash : argument = "-" ↔ argument.toList = ['-'] := by
    rw [← String.toList_inj]
    rfl
  unfold add
  split
  · next name hargument =>
    -- Two dashes: a flag, and no path.
    have hoption : ¬ Positional argument := by
      rintro ⟨_, h | h⟩
      · rw [hdash, hargument] at h
        cases h
      · exact h (by rw [hargument]; rfl)
    rw [addLong_eq_ok_iff, or_iff_left fun h => hoption h.1]
    simp only [hflag, hargument, List.cons.injEq, true_and]
  · next letter rest _ hargument =>
    -- One dash and more: neither.
    refine iff_of_false (addShort_ne_ok letter) ?_
    rintro (⟨flag, h, _⟩ | ⟨⟨_, h | h⟩, _⟩)
    · rw [hflag, hargument] at h
      cases h
      simp_all
    · rw [hdash, hargument] at h
      cases h
    · exact h (by rw [hargument]; rfl)
  · next hlong hshort =>
    -- No dash, or nothing behind it: a path, if it is not empty.
    have hnone : ¬ ∃ flag : Flag, argument = flag.argument ∧ a.addFlag flag = .ok b := by
      rintro ⟨flag, h, _⟩
      exact hlong _ ((hflag flag).mp h)
    rw [or_iff_right hnone, addPath_eq_ok_iff]
    refine ⟨fun h => ⟨⟨h.1, ?_⟩, h⟩, fun h => h.2⟩
    rw [hdash]
    cases hargument : argument.toList with
    | nil => exact .inr nofun
    | cons first rest =>
      cases rest with
      | nil =>
        by_cases hfirst : first = '-'
        · exact .inl (by rw [hfirst])
        · exact .inr fun h => hfirst (Option.some.inj h)
      | cons second rest =>
        refine .inr fun h => hshort second rest ?_
        rw [hargument, Option.some.inj h]

/-- Behind `--` all arguments are paths. -/
private theorem foldlM_addPath {paths : List String} (hpaths : ∀ path ∈ paths, path ≠ "")
    (hroom : a.paths.length + paths.length ≤ 2) :
    paths.foldlM addPath a = .ok { a with paths := a.paths ++ paths } := by
  induction paths generalizing a with
  | nil =>
    rw [List.append_nil]
    rfl
  | cons path paths ih =>
    obtain ⟨hpath, hrest⟩ := List.forall_mem_cons.mp hpaths
    rw [List.length_cons] at hroom
    have hadd : a.addPath path = .ok { a with paths := a.paths ++ [path] } :=
      addPath_eq_ok_iff.mpr ⟨hpath, by omega, rfl⟩
    rw [List.foldlM_cons]
    refine bind_eq_ok_iff.mpr ⟨_, hadd, ?_⟩
    rw [ih hrest (by rw [List.length_append, List.length_singleton]; omega), List.append_assoc]
    rfl

private theorem of_foldlM_addPath {paths : List String} (h : paths.foldlM addPath a = .ok b) :
    (∀ path ∈ paths, path ≠ "") ∧ b = { a with paths := a.paths ++ paths } := by
  induction paths generalizing a with
  | nil =>
    cases h
    exact ⟨fun _ h => absurd h List.not_mem_nil, by rw [List.append_nil]⟩
  | cons path paths ih =>
    rw [List.foldlM_cons] at h
    obtain ⟨_, hadd, h⟩ := bind_eq_ok_iff.mp h
    obtain ⟨hpath, _, rfl⟩ := addPath_eq_ok_iff.mp hadd
    obtain ⟨hpaths, rfl⟩ := ih h
    exact ⟨List.forall_mem_cons.mpr ⟨hpath, hpaths⟩, by rw [List.append_assoc]; rfl⟩

/-- **What arguments give is read**, if none of the flags was given before and there is room for the
paths. The induction is on what is given; each argument adds its part in front of the rest. -/
theorem addAll_of_gives {arguments paths : List String} {flags : List Flag}
    (h : Gives arguments flags paths) (hnew : ∀ flag ∈ flags, flag ∉ a.flags)
    (hroom : a.paths.length + paths.length ≤ 2) :
    a.addAll arguments = .ok ⟨flags.reverse ++ a.flags, a.paths ++ paths⟩ := by
  induction h generalizing a with
  | nil => simp [addAll]
  | @flag rest paths flags flag hflag _ ih =>
    obtain ⟨hfirst, hrest⟩ := List.forall_mem_cons.mp hnew
    have hadd : a.add flag.argument = .ok { a with flags := flag :: a.flags } :=
      add_eq_ok_iff.mpr (.inl ⟨flag, rfl, addFlag_eq_ok_iff.mpr ⟨hfirst, rfl⟩⟩)
    have hnew' : ∀ other ∈ flags, other ∉ flag :: a.flags := fun other hother hmem => by
      rcases List.mem_cons.mp hmem with rfl | hmem
      · exact hflag hother
      · exact hrest other hother hmem
    rw [addAll, if_neg (by cases flag <;> decide), hadd]
    simp only
    rw [ih (a := { a with flags := flag :: a.flags }) hnew' hroom, List.reverse_cons,
      List.append_assoc, List.singleton_append]
  | @path rest paths flags path hpath _ ih =>
    rw [List.length_cons] at hroom
    have hadd : a.add path = .ok { a with paths := a.paths ++ [path] } :=
      add_eq_ok_iff.mpr (.inr ⟨hpath, addPath_eq_ok_iff.mpr ⟨hpath.1, by omega, rfl⟩⟩)
    -- A path that is given does not look like an option, so it cannot end the options.
    have hend : path ≠ "--" := by
      rintro rfl
      exact absurd hpath (by rintro ⟨_, h | h⟩ <;> revert h <;> decide)
    have hroom' : (a.paths ++ [path]).length + paths.length ≤ 2 := by
      rw [List.length_append, List.length_singleton]
      omega
    rw [addAll, if_neg hend, hadd]
    simp only
    rw [ih (a := { a with paths := a.paths ++ [path] }) hnew hroom', List.append_assoc,
      List.singleton_append]
  | ended hpaths =>
    rw [addAll, if_pos rfl, foldlM_addPath hpaths hroom]
    rfl

/-- **What is read was given.** The induction is on the arguments. -/
theorem exists_gives_of_addAll {arguments : List String} (h : a.addAll arguments = .ok b) :
    ∃ flags paths, Gives arguments flags paths ∧ (∀ flag ∈ flags, flag ∉ a.flags) ∧
      b = ⟨flags.reverse ++ a.flags, a.paths ++ paths⟩ := by
  induction arguments generalizing a with
  | nil =>
    cases h
    exact ⟨[], [], .nil, fun _ h => absurd h List.not_mem_nil, by rw [List.append_nil]; rfl⟩
  | cons argument rest ih =>
    rw [addAll] at h
    split at h
    · next hend =>
      obtain ⟨hpaths, rfl⟩ := of_foldlM_addPath h
      exact ⟨[], rest, hend ▸ .ended hpaths, fun _ h => absurd h List.not_mem_nil, rfl⟩
    · split at h
      · cases h
      · next added hadd =>
        obtain ⟨flags, paths, hgives, hnew, rfl⟩ := ih h
        rcases add_eq_ok_iff.mp hadd with ⟨flag, rfl, hflag⟩ | ⟨hpath, hadded⟩
        · obtain ⟨hfirst, rfl⟩ := addFlag_eq_ok_iff.mp hflag
          refine ⟨flag :: flags, paths,
            .flag flag (fun hmem => hnew flag hmem List.mem_cons_self) hgives,
            List.forall_mem_cons.mpr ⟨hfirst, fun other hother hmem =>
              hnew other hother (List.mem_cons_of_mem _ hmem)⟩, ?_⟩
          rw [List.reverse_cons, List.append_assoc, List.singleton_append]
        · obtain ⟨_, _, rfl⟩ := addPath_eq_ok_iff.mp hadded
          refine ⟨flags, argument :: paths, .path hpath hgives, hnew, ?_⟩
          rw [List.append_assoc, List.singleton_append]

/-- Two paths make a run, with the options that the flags ask for. -/
theorem request_eq_ok_iff {request : Request} :
    a.request = .ok request ↔
      a.paths = [request.elfPath, request.pePath] ∧ request.options = optionsOf a.flags := by
  obtain ⟨options, elfPath, pePath⟩ := request
  unfold Arguments.request
  split
  · next hpaths =>
    simp only [hpaths, Except.ok.injEq, Request.mk.injEq, List.cons.injEq, and_true]
    constructor
    · rintro ⟨rfl, rfl, rfl⟩
      exact ⟨⟨rfl, rfl⟩, rfl⟩
    · rintro ⟨⟨rfl, rfl⟩, rfl⟩
      exact ⟨rfl, rfl, rfl⟩
  · next hother => exact iff_of_false nofun fun h => hother _ _ h.1

end Arguments

/-- The order of flags does not matter. -/
private theorem optionsOf_reverse (flags : List Flag) :
    optionsOf flags.reverse = optionsOf flags := by
  simp only [optionsOf, List.mem_reverse]

/-- **A run is asked for** by exactly those arguments that give two paths. -/
theorem parse_eq_ok_iff {arguments : List String} {request : Request} :
    parse arguments = .ok request ↔
      ∃ flags, Gives arguments flags [request.elfPath, request.pePath] ∧
        request.options = optionsOf flags := by
  have hfresh : ∀ (flags : List Flag) (paths : List String),
      (⟨flags.reverse ++ ({} : Arguments).flags, ({} : Arguments).paths ++ paths⟩ : Arguments) =
        ⟨flags.reverse, paths⟩ := by
    intro flags paths
    rw [List.append_nil, List.nil_append]
  unfold parse
  rw [bind_eq_ok_iff]
  constructor
  · rintro ⟨a, hall, hrequest⟩
    obtain ⟨flags, paths, hgives, _, rfl⟩ := Arguments.exists_gives_of_addAll hall
    rw [hfresh, Arguments.request_eq_ok_iff] at hrequest
    obtain ⟨rfl, hoptions⟩ := hrequest
    rw [optionsOf_reverse] at hoptions
    exact ⟨flags, hgives, hoptions⟩
  · rintro ⟨flags, hgives, hoptions⟩
    have hall := Arguments.addAll_of_gives (a := {}) hgives (fun _ _ => List.not_mem_nil)
      (Nat.le_refl 2)
    rw [hfresh] at hall
    refine ⟨_, hall, Arguments.request_eq_ok_iff.mpr ⟨rfl, ?_⟩⟩
    rw [optionsOf_reverse]
    exact hoptions

/-! ## §3 The program -/

/-- The exit code of the program tells whether the run went well. -/
private theorem Output.exitCode_ofResult (request : Request) (result : Except Error Outcome) :
    (Output.ofResult request result).exitCode = if result.toBool then 0 else 1 := by
  match result with
  | .error e => rfl
  | .ok .noRelocations => rfl
  | .ok (.patched r) => rfl

/-- The program does what the run does that it is asked for. -/
private theorem execute_run {arguments : List String} {request : Request} {tree after : FileTree}
    {result : Except Error Outcome} (hparse : parse arguments = .ok request)
    (hrun :
      (patchFile request.options request.elfPath request.pePath : StateM FileTree _).run tree =
        (result, after)) :
    (execute arguments : StateM FileTree Output).run tree =
      (Output.ofResult request result, after) := by
  simp only [execute, hparse]
  exact run_map hrun

/-- **Files and arguments add nothing to a run.** On a file tree, a run on two files does what the
run on their contents does. The program does so as well, for arguments that give the two paths and
the flags for the options: it leaves the same tree, and its exit code is 0 if the run went well and
1 if it did not. There are no other arguments for which it does. -/
theorem execute_refines (options : Options) (elfPath pePath : String) (tree : FileTree) :
    ∃ result after,
      (patchFile options elfPath pePath : StateM FileTree _).run tree = (result, after) ∧
      Refines options elfPath pePath tree result after ∧
      ∀ arguments,
        (parse arguments = .ok ⟨options, elfPath, pePath⟩ ↔
          ∃ flags, Gives arguments flags [elfPath, pePath] ∧ options = optionsOf flags) ∧
        ∀ flags, Gives arguments flags [elfPath, pePath] → options = optionsOf flags →
          ∃ output, (execute arguments : StateM FileTree Output).run tree = (output, after) ∧
            ((∃ outcome, result = .ok outcome) ∧ output.exitCode = 0 ∨
              (∃ e, result = .error e) ∧ output.exitCode = 1) := by
  obtain ⟨result, after, hrun, hfile⟩ := patchFile_run options elfPath pePath tree
  refine ⟨result, after, hrun, hfile.refines, fun arguments => ⟨parse_eq_ok_iff, ?_⟩⟩
  intro flags hgives hoptions
  have hparse : parse arguments = .ok ⟨options, elfPath, pePath⟩ :=
    parse_eq_ok_iff.mpr ⟨flags, hgives, hoptions⟩
  refine ⟨_, execute_run hparse hrun, ?_⟩
  rw [Output.exitCode_ofResult]
  cases result with
  | error e => exact .inr ⟨⟨e, rfl⟩, rfl⟩
  | ok outcome => exact .inl ⟨⟨outcome, rfl⟩, rfl⟩

/-- A tree with two files in its root, the source with one record and the image without sections. -/
def twoFiles : FileTree where
  state place :=
    if place = [] then .directory
    else if place = ["in.elf"] then .regular oneRecord
    else if place = ["out.efi"] then .regular Pe.bareImage
    else .absent
  workingDirectory := []

theorem execute_refines_twoFiles :
    Gives ["--no-scan", "in.elf", "--no-discard", "out.efi"] [.noScan, .noDiscard]
        ["in.elf", "out.efi"] ∧
      ∃ output after,
        (execute ["--no-scan", "in.elf", "--no-discard", "out.efi"] : StateM FileTree Output).run
          twoFiles = (output, after) ∧ output.exitCode = 0 ∧
        after.stateAt "out.efi" = .regular
          (run { discardable := false, scan := false } oneRecord Pe.bareImage).2 ∧
        after.stateAt "in.elf" = .regular oneRecord := by
  have hgives : Gives ["--no-scan", "in.elf", "--no-discard", "out.efi"] [.noScan, .noDiscard]
      ["in.elf", "out.efi"] :=
    .flag .noScan (by decide) (.path ⟨by decide, .inr (by decide)⟩
      (.flag .noDiscard (by decide) (.path ⟨by decide, .inr (by decide)⟩ .nil)))
  have hplaces : twoFiles.locate "in.elf" = .ok ["in.elf"] ∧
      twoFiles.locate "out.efi" = .ok ["out.efi"] := ⟨rfl, rfl⟩
  have hapart : twoFiles.Apart "in.elf" "out.efi" := by
    intro place hin hout
    rw [hplaces.1] at hin
    rw [hplaces.2] at hout
    exact absurd ((Except.ok.inj hin).trans (Except.ok.inj hout).symm) (by decide)
  have helf : twoFiles.stateAt "in.elf" = .regular oneRecord := by
    rw [FileTree.stateAt_of_locate hplaces.1]
    rfl
  have hpe : twoFiles.stateAt "out.efi" = .regular Pe.bareImage := by
    rw [FileTree.stateAt_of_locate hplaces.2]
    rfl
  have hscan : ({ discardable := false, scan := false } : Options).scan =
      ({ scan := false } : Options).scan := rfl
  have hrun : (run { discardable := false, scan := false } oneRecord Pe.bareImage).1 =
      .ok (.patched ⟨1, 1, 0, 12, .appended⟩) :=
    (runIn_fst_congr _ hscan oneRecord Pe.bareImage).trans run_oneRecord
  obtain ⟨result, after, _, hfiles, hprogram⟩ :=
    execute_refines { discardable := false, scan := false } "in.elf" "out.efi" twoFiles
  have hresult := (hfiles.sameResult _ _ helf hpe).trans hrun
  obtain ⟨output, houtput, hexit⟩ := (hprogram _).2 _ hgives rfl
  refine ⟨hgives, output, after, houtput, ?_, hfiles.written _ _ _ helf hpe rfl hresult,
    (hfiles.others _ hapart).trans helf⟩
  rcases hexit with ⟨_, hzero⟩ | ⟨⟨e, herror⟩, _⟩
  · exact hzero
  · rw [hresult] at herror
    cases herror

end Rebase.CommandLine
