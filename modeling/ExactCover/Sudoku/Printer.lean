import ExactCover.Sudoku.Basic
import ExactCover.Text.Field

/-!
# Writing a Sudoku

* **`Sudoku.line`**: the board on one line, as files hold it.
* **`Sudoku.picture`**: the board as a grid with its boxes marked off.
-/

namespace ExactCover.Sudoku

/-! ### On one line -/

/-- The character for a cell of a small board: a digit, or a dot if the cell is empty. A board that
was written over without checks can hold numbers that are no digits; those that fit into 32 bits
show as a dot too, and larger ones as a zero. -/
def cellChar (value : Nat) : Char :=
  if value = 0 then '.'
  else if value < 10 then Nat.digitChar value
  else if value < UInt32.size then '.'
  else '0'

/-- The board on one line: a character for each cell where one digit is enough, and numbers with
spaces between them on larger boards. -/
def line (s : Sudoku) : String :=
  let values := (positions s.size).map s.valueAt
  if s.size.side < 10 then String.ofList (values.map cellChar)
  else " ".intercalate (values.map toString)

/-! ### As a grid -/

/-- How wide a cell is drawn: as wide as the largest digit. -/
def cellWidth (size : Size) : Nat := (toString size.side).length

def drawCell (width value : Nat) : String :=
  Text.padLeft width (if value = 0 then "." else toString value)

/-- A row as it is drawn, with a bar between boxes. -/
def drawRow (size : Size) (row : List Nat) : String :=
  "|".intercalate ((Grid.chunks size.block row).map fun part =>
    " " ++ " ".intercalate (part.map (drawCell (cellWidth size))) ++ " ")

/-- The line between two rows of boxes, with a plus under each bar. -/
def separator (size : Size) : String :=
  let part := String.ofList (List.replicate (size.block * (cellWidth size + 1) + 1) '-')
  "+".intercalate (List.replicate size.block part)

/-- The lines of the grid. A separator stands above the first row of every row of boxes but the
topmost. -/
def pictureLines (s : Sudoku) : List String :=
  s.grid.rows.zipIdx.flatMap fun (row, r) =>
    if 0 < r ∧ r % s.size.block = 0 then [separator s.size, drawRow s.size row]
    else [drawRow s.size row]

/-- The grid; every line of it ends with a line feed. -/
def picture (s : Sudoku) : String := String.join (s.pictureLines.map (· ++ "\n"))

end ExactCover.Sudoku
