/-!
# Sizes of boards

A board is a square of boxes, each of which is a square of cells of the same width: a block of `b`
makes a side of `b * b`. Boards with blocks of 2 to 5 are supported.
-/

namespace ExactCover.Sudoku

/-- The supported sizes, named for their sides. -/
inductive Size
  | four
  | nine
  | sixteen
  | twentyFive
  deriving DecidableEq, Repr

namespace Size

/-- All sizes, the smallest first. -/
def all : List Size := [.four, .nine, .sixteen, .twentyFive]

def block : Size → Nat
  | .four => 2
  | .nine => 3
  | .sixteen => 4
  | .twentyFive => 5

/-- How many cells a board is wide; also its largest digit. -/
def side (s : Size) : Nat := s.block * s.block

def cells (s : Size) : Nat := s.side * s.side

/-- The box of a cell. Boxes are numbered row by row, and everything is counted from zero. -/
def boxOf (s : Size) (row column : Nat) : Nat := row / s.block * s.block + column / s.block

def ofSide? (n : Nat) : Option Size := all.find? (·.side = n)

def ofCells? (n : Nat) : Option Size := all.find? (·.cells = n)

theorem block_pos (s : Size) : 0 < s.block := by cases s <;> decide

theorem side_pos (s : Size) : 0 < s.side := by cases s <;> decide

theorem side_ofSide? {n : Nat} {s : Size} (h : ofSide? n = some s) : s.side = n := by
  simpa using List.find?_some h

theorem cells_ofCells? {n : Nat} {s : Size} (h : ofCells? n = some s) : s.cells = n := by
  simpa using List.find?_some h

theorem ofSide?_side (s : Size) : ofSide? s.side = some s := by cases s <;> decide

/-- Every size is the one with its own number of cells. -/
theorem ofCells?_cells (s : Size) : ofCells? s.cells = some s := by cases s <;> decide

end Size

end ExactCover.Sudoku
