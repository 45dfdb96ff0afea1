import ExactCover.Puzzle
import ExactCover.Sudoku.Size
import ExactCover.Sudoku.Constraint

/-!
# Placing a digit

A placement writes one digit into one cell. It meets four constraints, and some of them are enough
to tell the placement: its row, its column and its digit must each be mentioned, and whatever is
mentioned must agree.

* **`Placement.constraints`**: the four constraints.
* **`Placement.ofConstraints?`, `Placement.ofKeys?`**: the placement that meets some constraints.
-/

namespace ExactCover.Sudoku

/-- A digit and the cell that it goes into, on a board of some size. Cells are counted from zero,
row by row. -/
structure Placement where
  position : Nat
  value : Nat
  size : Size
  deriving DecidableEq, Repr

namespace Placement

/-- The placement of a digit in a row and a column, both counted from zero. -/
def ofCell (size : Size) (row column value : Nat) : Placement :=
  { position := row * size.side + column, value, size }

def row (p : Placement) : Nat := p.position / p.size.side

def column (p : Placement) : Nat := p.position % p.size.side

def box (p : Placement) : Nat := p.size.boxOf p.row p.column

/-- Whether the cell is on the board and the digit is one of its digits. -/
def isValid (p : Placement) : Bool :=
  p.position < p.size.cells && 1 ≤ p.value && p.value ≤ p.size.side

def text (p : Placement) : String := "(" ++ toString p.position ++ "," ++ toString p.value ++ ")"

def constraints (p : Placement) : List Constraint :=
  [.cell (p.row + 1) (p.column + 1), .inRow (p.row + 1) p.value, .inColumn (p.column + 1) p.value,
    .inBox (p.box + 1) p.value]

def keys (p : Placement) : List String := p.constraints.map Constraint.key

/-! ### Back from constraints -/

/-- The one number that a list holds, any number of times but at least once. -/
def unanimous? : List Nat → Option Nat
  | [] => none
  | n :: rest => if rest.all (· = n) then some n else none

/-- The placement that meets all of these constraints, if they mention its row, its column and its
digit and agree with each other. The digit is not held against the size. -/
def ofConstraints? (size : Size) (cs : List Constraint) : Option Placement := do
  let row ← unanimous? (cs.filterMap Constraint.row?)
  let column ← unanimous? (cs.filterMap Constraint.column?)
  let value ← unanimous? (cs.filterMap Constraint.digit?)
  -- a box that is mentioned must be the one of the cell
  if 1 ≤ row ∧ row ≤ size.side ∧ 1 ≤ column ∧ column ≤ size.side
      ∧ ∀ box ∈ cs.filterMap Constraint.box?, box = size.boxOf (row - 1) (column - 1) + 1
  then some (.ofCell size (row - 1) (column - 1) value)
  else none

/-- The placement that meets the constraints with these keys, in whatever order. -/
def ofKeys? (size : Size) (keys : List String) : Option Placement := do
  ofConstraints? size (← keys.mapM Constraint.ofKey?)

end Placement

instance : Move Placement where
  keys := Placement.keys
  isValid := Placement.isValid
  text := Placement.text

end ExactCover.Sudoku
