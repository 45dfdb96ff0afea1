import ExactCover.Command.FileTree
import ExactCover.Command.Report
import ExactCover.Draw

/-!
# Runs

A run is a list of tasks: puzzles to solve, in order, and failures met on the way to them. It ends
with the first failure; what was printed before stays.

* **`Task.ofTarget`**: the tasks that a target comes down to.
* **`run`**: all lines that are printed, and the failure that ended the run.
-/

namespace ExactCover.Command

inductive Task
  | solve (label : String) (p : AnyPuzzle)
  | fail (failure : Failure)

namespace Task

/-- The Sudokus in a file, all of them or so many that are drawn. -/
def ofSudokus (t : FileTree) (path : String) (count : Option Nat) (seed : UInt64) : List Task :=
  match t.fileAt? path with
  | none => [.fail (.notAFile path)]
  | some bytes =>
    match Sudoku.readBytes (some bytes) with
    | .error error => [.fail (.sudokus error)]
    | .ok boards =>
      let chosen := match count with
        | none => boards
        | some amount => (Draw.sample amount boards ⟨seed⟩).1
      chosen.zipIdx.map fun (s, i) =>
        .solve (path ++ " (" ++ toString (i + 1) ++ "/" ++ toString chosen.length ++ ")") (.sudoku s)

def ofFamily (t : FileTree) (path : String) : List Task :=
  match t.fileAt? path with
  | none => [.fail (.notAFile path)]
  | some bytes =>
    match Family.readBytes (some bytes) with
    | .error error => [.fail (.family error)]
    | .ok f => [.solve path (.family f)]

/-- All puzzle files below a directory; other files are passed over. -/
def ofDirectory (t : FileTree) (path : String) : List Task :=
  match t.resolve? path with
  | none => [.fail (.notADirectory path)]
  | some place =>
    if t.isDirectory place then
      (t.below place).flatMap fun file =>
        let label := FileTree.join path file
        match file.getLast?.bind FileTree.extension? with
        | some "sudoku" => ofSudokus t label none 0
        | some "xc" => ofFamily t label
        | _ => []
    else [.fail (.notADirectory path)]

/-- The tasks that a target comes down to. Where Sudokus are drawn and no seed is given, `entropy`
is the seed. -/
def ofTarget (t : FileTree) (entropy : UInt64) : Target → List Task
  | .anything path =>
    if t.isDirectoryAt path then ofDirectory t path
    else if FileTree.extensionAt? path = some "xc" then ofFamily t path
    else ofSudokus t path none 0
  | .sudokus path count seed =>
    ofSudokus t path count ((seed.map UInt64.ofNat).getD entropy)
  | .family path => ofFamily t path
  | .directory path => ofDirectory t path

/-- What one task prints, and the failure that ends the run. -/
def perform (settings : Settings) : Task → List Line × Option Failure
  | .solve label p => report settings label p
  | .fail failure => ([], some failure)

end Task

/-- What a list of tasks prints, and the failure that ended it. -/
def run (settings : Settings) : List Task → List Line × Option Failure
  | [] => ([], none)
  | task :: rest =>
    match task.perform settings with
    | (lines, some failure) => (lines, some failure)
    | (lines, none) =>
      let (more, failure) := run settings rest
      (lines ++ more, failure)

end ExactCover.Command
