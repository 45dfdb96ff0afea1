import ExactCover.AnyPuzzle
import ExactCover.Command.Arguments
import ExactCover.Family.Reader
import ExactCover.Search.Basic
import ExactCover.Sudoku.Printer
import ExactCover.Sudoku.Reader
import ExactCover.Text.Field

/-!
# Reports

What the program prints about one puzzle: that it is being solved, whether the solution was
verified, two tables of statistics, the solution, and the verdict.

Some figures are not determined by the puzzle: times, rates and memory. A line of a report says
which figure it shows and leaves the figure to whoever prints the line.

* **`report`**: the lines about one puzzle, and what went wrong.
-/

namespace ExactCover.Command

inductive Failure
  | sudokus (error : Sudoku.ReadError)
  | family (error : Family.ReadError)
  | notAFile (path : String)
  | notADirectory (path : String)
  | unverified (label : String)
  | fault (fault : Fault)
  deriving Repr

def Failure.message : Failure → String
  | .sudokus error => "error parsing Sudoku file: " ++ error.message
  | .family error => "error parsing cover file: " ++ error.message
  | .notAFile path => "provided path is not a file: " ++ path
  | .notADirectory path => "provided path is not a directory: " ++ path
  | .unverified label => "solution for " ++ label ++ " failed verification"
  | .fault _ => "the matrix is damaged"

/-! ### Lines -/

inductive Gauge
  | parseTime
  | memory
  | residentMemory
  | searchTime
  deriving DecidableEq, Repr

def Gauge.label : Gauge → String
  | .parseTime => "Parse time (s)"
  | .memory => "Memory usage (MiB)"
  | .residentMemory => "Resident memory (MiB)"
  | .searchTime => "CPU time (s)"

inductive Line
  | text (s : String)
  /-- A row of a table that shows a measured figure. -/
  | gauge (g : Gauge)
  /-- The row that shows how many nodes were touched, and how many in a second. -/
  | explored (count : Nat)
  deriving DecidableEq, Repr

def row (label value : String) : String :=
  "|  " ++ Text.padRight 28 label ++ " " ++ Text.padLeft 18 value ++ "  |"

namespace Line

/-- The line, given the figures and the rate that belongs to a count. -/
def render (figure : Gauge → String) (rate : Nat → String) : Line → String
  | text s => s
  | gauge g => row g.label (figure g)
  | explored count =>
    "|  " ++ Text.padRight 20 "Nodes explored" ++ " " ++ Text.padLeft 12 (toString count) ++ " ("
      ++ Text.padLeft 9 (rate count) ++ "/sec)  |"

end Line

/-! ### The parts of a report -/

def statistics (p : AnyPuzzle) (t : Tally) (moves : Nat) : List Line :=
  [.text "",
    .text "=======================[ Problem Statistics ]=========================",
    .gauge .parseTime,
    .text (row "Problem kind" p.kind),
    .text (row "Matrix nodes" (toString t.extent)),
    .text (row "Initial constraints" (toString t.initial)),
    .text (row "Skipped constraints" (toString t.skipped)),
    .text "========================[ Search Statistics ]========================",
    .explored t.explored,
    .text (row "Actions in solution" (toString moves)),
    .gauge .memory,
    .gauge .residentMemory,
    .gauge .searchTime,
    .text "====================================================================="]

/-- The filled board and the placements that filled it. Placements that the rules refuse are left
out of the board. -/
def sudokuSolution (s : Sudoku) (moves : List AnyMove) : List String :=
  let placements := moves.filterMap fun | .placement p => some p | .choice _ => none
  (placements.foldl Puzzle.playOrSkip s).pictureLines
    ++ ["Actions: " ++ ", ".intercalate (moves.map Move.text)]

/-- The names of the chosen subsets. A choice that means no declared subset is written out. -/
def familySolution (f : Family) (moves : List AnyMove) : List String :=
  [" ".intercalate (moves.map fun
    | .choice c => (f.nameOf? c).getD (Move.text c)
    | .placement p => Move.text p)]

def solution : AnyPuzzle → List AnyMove → List String
  | .sudoku s, moves => sudokuSolution s moves
  | .family f, moves => familySolution f moves

/-- The lines about one search: the first about its verification, if that is asked for and there is
something to verify. -/
def outcomeLines (settings : Settings) (label : String) (p : AnyPuzzle)
    (out : Search.Outcome AnyMove) : List Line × Option Failure :=
  let isVerified := Puzzle.isSolvedBy p out.moves
  let verification : List Line :=
    if settings.verify ∧ out.tally.solved then [.text ("Verified: " ++ toString isVerified)] else []
  if settings.verify ∧ out.tally.solved ∧ !isVerified then (verification, some (.unverified label))
  else
    let stats := if settings.stats then statistics p out.tally out.moves.length else []
    let solved : List Line :=
      if settings.printSolution ∧ out.tally.solved then
        .text "Solution:" :: (solution p out.moves).map .text
      else []
    (verification ++ stats ++ solved ++ [.text "", .text out.tally.verdict], none)

def report (settings : Settings) (label : String) (p : AnyPuzzle) : List Line × Option Failure :=
  let start : Line := .text ("Solving: " ++ label)
  match Search.solve p { branching := settings.branching, budget := settings.budget } with
  | .error fault => ([start], some (.fault fault))
  | .ok out =>
    let (lines, failure) := outcomeLines settings label p out
    (start :: lines, failure)

end ExactCover.Command
