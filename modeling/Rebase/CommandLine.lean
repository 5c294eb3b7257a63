import Rebase.Host

/-!
# The command line

`gen-reloc ELF PE` runs on two files. Three flags change a run, each given at most once and anywhere
among the arguments; `--` ends them. Arguments are read from left to right, and the first that is
wrong, or asks for help or the version, decides.

- `parse`: the run that arguments ask for
- `Output.ofResult`: the words for the end of a run
- `execute`: the whole program, on any host
-/

namespace Rebase.CommandLine

/-! ## §1 Arguments -/

/-- A flag that changes a run. -/
inductive Flag where
  | dryRun
  | noDiscard
  | noScan
  deriving DecidableEq

namespace Flag

/-- The flag of a name. -/
def ofName? (name : String) : Option Flag :=
  if name = "dry-run" then some .dryRun
  else if name = "no-discard" then some .noDiscard
  else if name = "no-scan" then some .noScan
  else none

end Flag

/-- Why arguments do not ask for a run. -/
inductive Stop where
  /-- An argument is unknown, repeated, missing or one too many. -/
  | usage
  | help
  | version
  deriving DecidableEq

/-- The arguments that were read so far. -/
structure Arguments where
  /-- The flags that were given. -/
  flags : List Flag := []
  /-- The paths that were given, in order. -/
  paths : List String := []
  deriving DecidableEq

/-- A run that was asked for. -/
structure Request where
  options : Options
  elfPath : String
  pePath : String
  deriving DecidableEq

namespace Arguments

/-- Adds a path; there are two at most, and none of them is empty. -/
def addPath (a : Arguments) (path : String) : Except Stop Arguments :=
  if path = "" ∨ 2 ≤ a.paths.length then .error .usage
  else .ok { a with paths := a.paths ++ [path] }

/-- Adds a flag, which must not have been given before. -/
def addFlag (a : Arguments) (flag : Flag) : Except Stop Arguments :=
  if flag ∈ a.flags then .error .usage else .ok { a with flags := flag :: a.flags }

/-- Adds an option by its long name. None of them takes a value. -/
def addLong (a : Arguments) (text : List Char) : Except Stop Arguments :=
  let name := String.ofList text
  if name = "help" then .error .help
  else if name = "version" then .error .version
  else
    match Flag.ofName? name with
    | some flag => a.addFlag flag
    | none => .error .usage

/-- Adds options by their letters. There are two, and both end the reading. -/
def addShort (letter : Char) : Except Stop Arguments :=
  if letter = 'h' then .error .help
  else if letter = 'V' then .error .version
  else .error .usage

/-- Adds one argument. -/
def add (a : Arguments) (argument : String) : Except Stop Arguments :=
  match argument.toList with
  | '-' :: '-' :: name => a.addLong name
  | '-' :: letter :: _ => addShort letter
  | _ => a.addPath argument

/-- Adds arguments from left to right; behind `--` all are paths. -/
def addAll (a : Arguments) : List String → Except Stop Arguments
  | [] => .ok a
  | argument :: rest =>
    if argument = "--" then
      rest.foldlM addPath a
    else
      match a.add argument with
      | .error stop => .error stop
      | .ok a => addAll a rest

/-- The run that arguments ask for. -/
def request (a : Arguments) : Except Stop Request :=
  match a.paths with
  | [elfPath, pePath] => .ok {
      options := {
        discardable := .noDiscard ∉ a.flags
        scan := .noScan ∉ a.flags
        dryRun := .dryRun ∈ a.flags }
      elfPath
      pePath }
  | _ => .error .usage

end Arguments

/-- The run that a command line asks for. -/
def parse (arguments : List String) : Except Stop Request := do
  let a ← Arguments.addAll {} arguments
  a.request

/-! ## §2 Output -/

/-- What the program leaves behind, apart from files. -/
structure Output where
  exitCode : UInt32
  stdout : String
  stderr : String
  deriving DecidableEq

/-- How the program is called. -/
def usageText : String := "Usage: gen-reloc [OPTIONS] <ELF> <PE>\n"

/-- What the program is for. -/
def helpText : String :=
  "Generate PE base relocations from ELF absolute relocations\n\n" ++ usageText ++
    "\nArguments:\n" ++
    "  <ELF>  ELF image the PE file was converted from\n" ++
    "  <PE>   PE file to patch in place\n" ++
    "\nOptions:\n" ++
    "      --dry-run     Report what would be written without modifying the PE file\n" ++
    "      --no-discard  Do not mark a newly added .reloc section as discardable\n" ++
    "      --no-scan     Only use explicit relocation records, skip the .data pointer scan\n" ++
    "  -h, --help        Print help\n" ++
    "  -V, --version     Print version\n"

/-- The name and version of the program. -/
def versionText : String := "gen-reloc 0.1.0\n"

/-- A text in which every line but the first is set back. -/
def indentRest (text : String) : String :=
  String.ofList (text.toList.flatMap fun c => if c = '\n' then '\n' :: "    ".toList else [c])

namespace Output

/-- What the program says where no run was asked for. -/
def ofStop : Stop → Output
  | .usage => ⟨2, "", usageText⟩
  | .help => ⟨0, helpText, ""⟩
  | .version => ⟨0, versionText, ""⟩

/-- What the program says at the end of a run. -/
def ofResult (request : Request) : Except Error Outcome → Output
  | .ok .noRelocations => ⟨0, "no absolute relocations found, .reloc not needed\n", ""⟩
  | .ok (.patched report) =>
    let verb := if request.options.dryRun then "would patch " else "patched "
    ⟨0, verb ++ request.pePath ++ ": " ++ report.text ++ "\n", ""⟩
  | .error e =>
    ⟨1, "",
      s!"Error: failed to generate relocations for {request.pePath} from {request.elfPath}\n\n" ++
        s!"Caused by:\n    {indentRest e.message}\n"⟩

end Output

/-- The program. -/
def execute {m : Type → Type} [Monad m] [Host m] (arguments : List String) : m Output :=
  match parse arguments with
  | .error stop => pure (Output.ofStop stop)
  | .ok request =>
    Output.ofResult request <$> patchFile request.options request.elfPath request.pePath

end Rebase.CommandLine
