import Rebase.CommandLine

/-!
# The program

The outermost layer: the command line, run on the files of the system. Of the journal only the
warnings are shown.
-/

namespace Rebase

/-- The number of an error of the system, which may be reported with its sign changed. -/
def errorNumber (code : UInt32) : UInt32 := if code < 0x80000000 then code else 0 - code

/-- The fault that an error of the system stands for. -/
def FileFault.ofSystem : IO.Error → FileFault
  | .noFileOrDirectory .. => .notFound
  | .inappropriateType _ code _ => if errorNumber code = 20 then .notDirectory else .isDirectory
  | .invalidArgument _ code details =>
    if errorNumber code = 36 then .nameTooLong else refusal code details
  | .permissionDenied _ code details => refusal code details
  | e => .refused (toString e)
where
  /-- A refusal in the words of the system. -/
  refusal (code : UInt32) (details : String) : FileFault :=
    .refused s!"{details.capitalize} (os error {errorNumber code})"

instance : Host IO where
  readFile path := do
    try
      return .ok (← IO.FS.readBinFile path)
    catch e =>
      return .error (.ofSystem e)
  writeFile path contents := do
    try
      IO.FS.writeBinFile path contents
      return .ok ()
    catch e =>
      return .error (.ofSystem e)
  note events := do
    for event in events do
      if event.level = .warn then
        IO.eprintln ("warning: " ++ event.message)

end Rebase

/-- Runs the program on the command line's arguments. -/
def main (arguments : List String) : IO UInt32 := do
  let output : Rebase.CommandLine.Output ← Rebase.CommandLine.execute arguments
  IO.print output.stdout
  IO.eprint output.stderr
  return output.exitCode
