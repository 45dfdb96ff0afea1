import ExactCover.Sudoku.Grid
import ExactCover.Sudoku.Placement

/-!
# Sudoku

A Sudoku is a board of some size with a number in every cell, zero where the cell is empty. As a
puzzle, the constraints are the demands on all cells, rows, columns and boxes; the rows are the
placements of all digits in all cells; and what is filled already is part of every solution.

* **`Sudoku.ofGrid`**: a board out of a grid, or what is wrong with the grid.
* **`Sudoku.isLegal`, `Sudoku.play?`**: the rules of the game.
* **`Sudoku.isConsistent`, `Sudoku.isFull`**: together, that the board is solved.
-/

namespace ExactCover

open Sudoku (Size Grid Placement Constraint)

structure Sudoku where
  size : Size
  cells : Vector Nat size.cells
  deriving DecidableEq

namespace Sudoku

/-! ### Cells -/

/-- The number in a cell; zero outside the board. -/
def valueAt (s : Sudoku) (position : Nat) : Nat := s.cells[position]?.getD 0

def positions (size : Size) : List Nat := List.range size.cells

/-- The board with a number written into a cell, whatever was there; outside the board, the board
itself. -/
def write (s : Sudoku) (position value : Nat) : Sudoku :=
  { s with cells := s.cells.setIfInBounds position value }

def valueAt? (s : Sudoku) (row column : Nat) : Option Nat :=
  if row < s.size.side ∧ column < s.size.side then some (s.valueAt (row * s.size.side + column))
  else none

/-- The board with a number written into a row and a column of it. -/
def writeAt? (s : Sudoku) (row column value : Nat) : Option Sudoku :=
  if row < s.size.side ∧ column < s.size.side then
    some (s.write (row * s.size.side + column) value)
  else none

def grid (s : Sudoku) : Grid :=
  ⟨(List.range s.size.side).map fun row =>
    (List.range s.size.side).map fun column => s.valueAt (row * s.size.side + column)⟩

def givens (s : Sudoku) : Nat := (positions s.size).countP (s.valueAt · ≠ 0)

inductive Flaw
  | unsupportedSize (size : Nat)
  | raggedRow (row length expected : Nat)
  | valueOutOfRange (row column value : Nat)
  deriving DecidableEq, Repr

def Flaw.message : Flaw → String
  | .unsupportedSize size => "unsupported board size: " ++ toString size
  | .raggedRow row length expected =>
    "row " ++ toString row ++ " has " ++ toString length ++ " cells, expected " ++ toString expected
  | .valueOutOfRange row column value =>
    "value " ++ toString value ++ " at row " ++ toString row ++ ", column " ++ toString column
      ++ " is out of range"

/-- The board that a grid shows. The number of rows must be a side, every row must have as many
cells, and no number may be larger than the largest digit; the first flaw in this order is
reported, and within a kind the first one from the top left. -/
def ofGrid (g : Grid) : Except Flaw Sudoku :=
  match Size.ofSide? g.rows.length with
  | none => .error (.unsupportedSize g.rows.length)
  | some size =>
    match g.rows.zipIdx.find? fun (row, _) => row.length ≠ size.side with
    | some (row, r) => .error (.raggedRow (r + 1) row.length size.side)
    | none =>
      match g.cells.find? fun (_, _, value) => size.side < value with
      | some (r, c, value) => .error (.valueOutOfRange (r + 1) (c + 1) value)
      | none =>
        .ok { size, cells := .ofFn fun i => g.valueAt (i / size.side) (i % size.side) }

/-! ### Rows, columns and boxes -/

def rowCells (size : Size) (row : Nat) : List Nat :=
  (positions size).filter (· / size.side = row)

def columnCells (size : Size) (column : Nat) : List Nat :=
  (positions size).filter (· % size.side = column)

def boxCells (size : Size) (box : Nat) : List Nat :=
  (positions size).filter fun position =>
    size.boxOf (position / size.side) (position % size.side) = box

/-- All rows, columns and boxes, each as its cells. -/
def houses (size : Size) : List (List Nat) :=
  let numbers := List.range size.side
  numbers.map (rowCells size) ++ numbers.map (columnCells size) ++ numbers.map (boxCells size)

/-- The digits in some cells, with repeats. -/
def digitsIn (s : Sudoku) (cells : List Nat) : List Nat := (cells.map s.valueAt).filter (· ≠ 0)

/-! ### The rules -/

/-- Whether a placement can be played: it is one for boards of this size, its cell is empty, and
its digit is not yet in the row, column or box of the cell. -/
def isLegal (s : Sudoku) (p : Placement) : Bool :=
  p.size = s.size && p.isValid && s.valueAt p.position == 0
    && !(s.digitsIn (rowCells s.size p.row)).contains p.value
    && !(s.digitsIn (columnCells s.size p.column)).contains p.value
    && !(s.digitsIn (boxCells s.size p.box)).contains p.value

def play? (s : Sudoku) (p : Placement) : Option Sudoku :=
  if s.isLegal p then some (s.write p.position p.value) else none

def isFull (s : Sudoku) : Bool := (positions s.size).all (s.valueAt · ≠ 0)

/-- Whether no row, column or box holds a digit twice. -/
def isConsistent (s : Sudoku) : Bool := (houses s.size).all fun cells => (s.digitsIn cells).Nodup

def isSolved (s : Sudoku) : Bool := s.isFull && s.isConsistent

/-! ### As a puzzle -/

/-- All pairs of numbers from one to the side, in order. -/
def pairs (size : Size) : List (Nat × Nat) :=
  (List.range size.side).flatMap fun i => (List.range size.side).map fun j => (i + 1, j + 1)

def constraints (size : Size) : List Constraint :=
  (pairs size).map (fun (row, column) => .cell row column)
    ++ (pairs size).map (fun (row, digit) => .inRow row digit)
    ++ (pairs size).map (fun (column, digit) => .inColumn column digit)
    ++ (pairs size).map (fun (box, digit) => .inBox box digit)

/-- All placements on a board, cell by cell and by ascending digits. -/
def candidates (size : Size) : List Placement :=
  (positions size).flatMap fun position =>
    (List.range size.side).map fun i => { position, value := i + 1, size }

def legalMoves (s : Sudoku) : List Placement := (candidates s.size).filter s.isLegal

/-- The placements of all numbers that are on the board. -/
def initial (s : Sudoku) : List Placement :=
  ((positions s.size).filter (s.valueAt · ≠ 0)).map fun position =>
    { position, value := s.valueAt position, size := s.size }

instance : Puzzle Sudoku Placement where
  constraints s := (constraints s.size).map Constraint.key
  rows s := (candidates s.size).map Placement.keys
  initial := initial
  play? := play?
  isSolved := isSolved
  ofKeys? s := Placement.ofKeys? s.size

end Sudoku

end ExactCover
