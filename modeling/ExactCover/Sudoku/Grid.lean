/-!
# Grids of numbers

A grid is a board as it is written down, before anything is known of its shape or its numbers. A
zero stands for an empty cell.
-/

namespace ExactCover.Sudoku

structure Grid where
  rows : List (List Nat)
  deriving DecidableEq, Repr

namespace Grid

/-- The pieces of a list with `width` elements each, the last one possibly shorter. -/
def chunks {α : Type} (width : Nat) (xs : List α) : List (List α) :=
  (List.range ((xs.length + width - 1) / width)).map fun i => (xs.drop (i * width)).take width

/-- The grid with these cells in rows of a given width. -/
def ofCells (width : Nat) (cells : List Nat) : Grid := ⟨chunks width cells⟩

/-- All cells row by row, each with its row and its column counted from zero. -/
def cells (g : Grid) : List (Nat × Nat × Nat) :=
  g.rows.zipIdx.flatMap fun (row, r) => row.zipIdx.map fun (value, c) => (r, c, value)

def givens (g : Grid) : Nat := g.cells.countP fun (_, _, value) => value ≠ 0

/-- The number in a cell, zero outside the grid. -/
def valueAt (g : Grid) (row column : Nat) : Nat := ((g.rows[row]?.getD [])[column]?).getD 0

end Grid

end ExactCover.Sudoku
