import Rebase.Bytes.Basic
import Rebase.Error

/-!
# File trees

A file system as a value: what every place of a tree holds, and the directory in which relative
paths start. A path is followed name by name; every name has to be looked up in a directory, which
is why a path can fail before its end is reached.

- `Path.names`: the names on a path
- `FileTree.locate`: the place that a path leads to
- `FileTree.read`, `FileTree.write`: the contents of a regular file

The main statements are `FileTree.read_eq_ok_iff`, when a path can be read, and
`FileTree.write_of_regular`, what writing over a file does.
-/

namespace Rebase

/-! ## §1 Paths -/

namespace Path

/-- The longest path that is followed, in bytes. -/
def maxSize : Nat := 4095

/-- The longest name that a directory can hold, in bytes. -/
def maxNameSize : Nat := 255

/-- The parts of a text that slashes separate. There is one more than there are slashes. -/
def split : List Char → List (List Char)
  | [] => [[]]
  | c :: rest =>
    if c = '/' then [] :: split rest
    else
      match split rest with
      | [] => [[c]]
      | part :: parts => (c :: part) :: parts

/-- The names on a path. -/
def names (path : String) : List String := (split path.toList).map String.ofList

/-- Whether a path starts at the root. -/
def isAbsolute (path : String) : Bool := path.toList.head? = some '/'

end Path

/-! ## §2 Trees -/

/-- The place of a file or directory: the names on the way to it from the root. -/
abbrev Place := List String

/-- What a place holds. -/
inductive FileState where
  | absent
  | directory
  | regular (contents : Bytes)

/-- A file system as a value. -/
structure FileTree where
  /-- What every place holds. -/
  state : Place → FileState
  /-- Where relative paths start. -/
  workingDirectory : Place

namespace FileTree

/-- A tree in which a place holds something else. -/
def set (tree : FileTree) (place : Place) (state : FileState) : FileTree :=
  { tree with state := fun other => if other = place then state else tree.state other }

/-- Looks up a name at a place, which has to be a directory. An empty name, as between two slashes,
and a single dot stay there; two dots lead up, but not above the root. -/
def step (tree : FileTree) (place : Place) (name : String) : Except FileFault Place :=
  match tree.state place with
  | .absent => .error .notFound
  | .regular _ => .error .notDirectory
  | .directory =>
    if name = "" ∨ name = "." then .ok place
    else if name = ".." then .ok place.dropLast
    else if Path.maxNameSize < name.utf8ByteSize then .error .nameTooLong
    else .ok (place ++ [name])

/-- The place that a path leads to. Nothing needs to be there. -/
def locate (tree : FileTree) (path : String) : Except FileFault Place :=
  if path = "" then .error .notFound
  else if Path.maxSize < path.utf8ByteSize then .error .nameTooLong
  else (Path.names path).foldlM tree.step
    (if Path.isAbsolute path then [] else tree.workingDirectory)

/-- The contents of the file at a path. -/
def read (tree : FileTree) (path : String) : Except FileFault Bytes :=
  match tree.locate path with
  | .error fault => .error fault
  | .ok place =>
    match tree.state place with
    | .absent => .error .notFound
    | .directory => .error .isDirectory
    | .regular contents => .ok contents

/-- Puts contents into the file at a path, which comes into being if need be. -/
def write (tree : FileTree) (path : String) (contents : Bytes) : Except FileFault Unit × FileTree :=
  match tree.locate path with
  | .error fault => (.error fault, tree)
  | .ok place =>
    match tree.state place with
    | .directory => (.error .isDirectory, tree)
    | .absent | .regular _ => (.ok (), tree.set place (.regular contents))

/-! ## §3 Laws -/

@[simp]
theorem state_set_self (tree : FileTree) (place : Place) (state : FileState) :
    (tree.set place state).state place = state := by
  simp only [set, if_true]

theorem state_set_of_ne (tree : FileTree) (state : FileState) {place other : Place}
    (h : other ≠ place) : (tree.set place state).state other = tree.state other := by
  simp only [set, if_neg h]

/-- **A path can be read** exactly when it leads to a place that holds a regular file. -/
theorem read_eq_ok_iff {tree : FileTree} {path : String} {contents : Bytes} :
    tree.read path = .ok contents ↔
      ∃ place, tree.locate path = .ok place ∧ tree.state place = .regular contents := by
  unfold read
  cases tree.locate path with
  | error fault =>
    simp only [reduceCtorEq, false_and, exists_false]
  | ok place =>
    simp only [Except.ok.injEq]
    cases hstate : tree.state place <;> simp [hstate]

/-- **Writing over a file** changes what its place holds and nothing else. -/
theorem write_of_regular {tree : FileTree} {path : String} {place : Place} {old : Bytes}
    (new : Bytes)
    (hplace : tree.locate path = .ok place) (hstate : tree.state place = .regular old) :
    tree.write path new = (.ok (), tree.set place (.regular new)) := by
  simp only [write, hplace, hstate]

end FileTree

end Rebase
