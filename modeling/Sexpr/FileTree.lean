import Sexpr.Stream.Error
import Sexpr.Byte

/-! # Trees of files

A tree of directories and files below one current directory, with the rules by which paths are
resolved in it. Every component of a path but the last has to be a directory. Nothing is known of
what lies outside the tree. The tree stands for the file system of the operating system where one is
to be replayed; nothing else depends on it, for reading and running are given what was looked up.
-/

namespace Sexpr

inductive FileTree.Entry
  | directory
  | file (contents : Bytes)
deriving DecidableEq

/-- Entries by the names that lead to them, the current directory itself left out. -/
structure FileTree where
  entries : List (List Bytes × FileTree.Entry) := []

namespace FileTree

def slash : UInt8 := 0x2f

def components : Bytes → List Bytes
  | [] => [[]]
  | b :: path =>
    if b == slash then [] :: components path
    else
      match components path with
      | [] => [[b]]
      | c :: cs => (b :: c) :: cs

def isHere (component : Bytes) : Bool := component == [] || component == [Byte.period]

def isAbove (component : Bytes) : Bool := component == [Byte.period, Byte.period]

/-- A place is reached by names from the current directory, or it lies outside the tree. -/
abbrev Place := Option (List Bytes)

def at? (t : FileTree) : Place → Option Entry
  | none => some .directory
  | some [] => some .directory
  | some names => t.entries.lookup names

def parent : Place → Place
  | none => none
  | some [] => none
  | some names => some names.dropLast

def child : Place → Bytes → Option (List Bytes)
  | none, _ => none
  | some names, name => some (names ++ [name])

/-- Follow components from a place that exists. -/
def walk (t : FileTree) : Place → List Bytes → Except IoError Place
  | here, [] => .ok here
  | here, c :: cs =>
    if t.at? here != some .directory then .error .notADirectory
    else if isHere c then t.walk here cs
    else if isAbove c then t.walk (parent here) cs
    else if 255 < c.length then .error .nameTooLong
    else
      match child here c with
      | none => .error .notFound
      | some names =>
        if (t.at? (some names)).isSome then t.walk (some names) cs else .error .notFound

/-- Where a path begins, and the components to follow from there. -/
def resolve (path : Bytes) : Except IoError (Place × List Bytes) :=
  if path.contains 0 then .error .nulInName
  else if path.isEmpty then .error .notFound
  else if 4096 ≤ path.length then .error .nameTooLong
  else if path.head? == some slash then .ok (none, components path)
  else .ok (some [], components path)

def read (t : FileTree) (path : Bytes) : Except IoError Bytes := do
  let (start, names) ← resolve path
  match t.at? (← t.walk start names) with
  | some (.file contents) => return contents
  | some .directory => throw .isADirectory
  | none => throw .notFound

def insert (t : FileTree) (names : List Bytes) (entry : Entry) : FileTree :=
  ⟨(names, entry) :: t.entries.filter (·.1 != names)⟩

/-- Place at which a file can be created or replaced. -/
def creatable (t : FileTree) (path : Bytes) : Except IoError (List Bytes) := do
  let (start, names) ← resolve path
  let ends := (names.reverse.takeWhile (·.isEmpty)).length
  let names := names.take (names.length - ends)
  let here ← t.walk start names.dropLast
  if t.at? here != some .directory then throw .notADirectory
  let name := names.getLast?.getD []
  if 0 < ends || isHere name || isAbove name then throw .isADirectory
  if 255 < name.length then throw .nameTooLong
  match child here name with
  | none => throw .notFound
  | some names =>
    if t.at? (some names) == some .directory then throw .isADirectory
    return names

def write (t : FileTree) (path contents : Bytes) : Except IoError FileTree := do
  return t.insert (← t.creatable path) (.file contents)

/-- Add a file or, if the path ends in a slash, a directory, with the directories above it. -/
def add (t : FileTree) (path contents : Bytes) : FileTree :=
  let names := (components path).filter (!isHere ·)
  let above := (List.range names.length).map names.take
  let t := above.foldl
    (fun t names => if (t.at? (some names)).isSome then t else t.insert names .directory) t
  t.insert names (if path.getLast? == some slash then .directory else .file contents)

end FileTree

end Sexpr
