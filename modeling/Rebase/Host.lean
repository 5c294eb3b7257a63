import Rebase.FileTree
import Rebase.Journal

/-!
# Runs on files

The two images are files. Both are read before anything else is done, the source first, and the
destination is written in one go, when a table was made for it and the run is not a dry one.

What a run needs of the system that it runs on is a `Host`: files that can be read and written, both
of which can fail, and a place for the journal. A `FileTree` is such a system as a value.
-/

namespace Rebase

/-- What a run needs of the system that it runs on. -/
class Host (m : Type → Type) where
  /-- The contents of a file. -/
  readFile : String → m (Except FileFault Bytes)
  /-- Puts contents into a file. -/
  writeFile : String → Bytes → m (Except FileFault Unit)
  /-- Takes note of the events of a run. -/
  note : List Event → m Unit

/-- A file tree is a host that keeps no journal. -/
instance : Host (StateM FileTree) where
  readFile path := do return (← get).read path
  writeFile path contents := modifyGet fun tree => tree.write path contents
  note _ := pure ()

/-- A run on two files. -/
def patchFile {m : Type → Type} [Monad m] [Host m] (options : Options) (elfPath pePath : String) :
    m (Except Error Outcome) := do
  match ← Host.readFile elfPath with
  | .error fault => return .error (.file elfPath fault)
  | .ok elf =>
    match ← Host.readFile pePath with
    | .error fault => return .error (.file pePath fault)
    | .ok pe =>
      Host.note (Journal.ofRun options elf pe)
      match run options elf pe with
      | (.ok (.patched report), patched) =>
        if options.dryRun then
          return .ok (.patched report)
        else
          match ← Host.writeFile pePath patched with
          | .error fault => return .error (.file pePath fault)
          | .ok () => return .ok (.patched report)
      | (result, _) => return result

end Rebase
