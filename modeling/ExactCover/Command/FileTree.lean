/-!
# Files and directories

What the program sees of a file system: files with their contents, directories, and the directory
that relative paths start from.

* **`FileTree.resolve?`**: the place that the text of a path names.
* **`FileTree.below`**: all files below a directory, in the order of a walk by file names.
-/

namespace ExactCover.Command

/-- A place in a file system, by the names on the way from the root. -/
abbrev Place := List String

/-- Files with their contents, and directories. Directories that hold something need not be
listed. -/
structure FileTree where
  files : List (Place × ByteArray)
  directories : List Place
  /-- Where relative paths start. -/
  origin : Place

namespace FileTree

/-- The names of a path, empty ones included. -/
def components (path : String) : List String := path.splitOn "/"

def file? (t : FileTree) (place : Place) : Option ByteArray :=
  (t.files.find? (·.1 = place)).map (·.2)

def isDirectory (t : FileTree) (place : Place) : Bool :=
  (t.origin :: t.directories).any place.isPrefixOf
    || t.files.any fun (file, _) => place.isPrefixOf file && place ≠ file

/-- Goes on from a place by one name: an empty name and a dot stay there, and two dots lead back,
from the root to the root. -/
def step (place : Place) (name : String) : Place :=
  match name with
  | "" | "." => place
  | ".." => place.dropLast
  | name => place ++ [name]

/-- The place that the names of a path come down to if everything on the way is a directory. -/
def lexical (origin : Place) (path : String) : Place :=
  (components path).foldl step (if path.startsWith "/" then [] else origin)

/-- The place that a path names. Only from a directory does a name lead anywhere. -/
def resolve? (t : FileTree) (path : String) : Option Place :=
  (components path).foldlM
    (fun place name => if t.isDirectory place then some (step place name) else none)
    (if path.startsWith "/" then [] else t.origin)

def fileAt? (t : FileTree) (path : String) : Option ByteArray := do
  t.file? (← t.resolve? path)

def isDirectoryAt (t : FileTree) (path : String) : Bool := (t.resolve? path).any t.isDirectory

/-- What follows the last dot of a file name. A dot at the start of the name does not count. -/
def extension? (name : String) : Option String :=
  let reversed := name.toList.reverse
  -- read backwards, at least one more character has to come after the dot
  match reversed.dropWhile (· ≠ '.') with
  | _ :: _ :: _ =>
    if name = ".." then none else some (String.ofList (reversed.takeWhile (· ≠ '.')).reverse)
  | _ => none

def extensionAt? (path : String) : Option String := do
  extension? (← ((components path).filter fun name => name ≠ "" ∧ name ≠ ".").getLast?)

def join (path : String) (place : Place) : String :=
  (if path.endsWith "/" then path else path ++ "/") ++ "/".intercalate place

/-- Whether one file name comes before another, byte by byte. -/
def nameBefore (a b : String) : Bool := a.toUTF8.toList < b.toUTF8.toList

/-- Whether one place comes no later than another in a walk that enters each directory where its
name stands among its neighbours. -/
def noLater : Place → Place → Bool
  | [], _ => true
  | _ :: _, [] => false
  | a :: as, b :: bs => if a = b then noLater as bs else nameBefore a b

/-- All files below the directory at a place, each by the rest of its place, in the order of a
walk. -/
def below (t : FileTree) (place : Place) : List Place :=
  let inside := t.files.filterMap fun (file, _) =>
    if place.isPrefixOf file then some (file.drop place.length) else none
  inside.mergeSort noLater

end FileTree

end ExactCover.Command
