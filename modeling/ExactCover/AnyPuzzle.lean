import ExactCover.Family.Basic
import ExactCover.Sudoku.Basic

/-!
# Puzzles of either kind

A collection may hold Sudokus and families of subsets side by side. Wrapped up, they are played and
searched as one type of puzzle; a move of the one kind is refused by a puzzle of the other.
-/

namespace ExactCover

inductive AnyMove
  | placement (p : Sudoku.Placement)
  | choice (c : Family.Choice)
  deriving DecidableEq, Repr

inductive AnyPuzzle
  | sudoku (s : Sudoku)
  | family (f : Family)
  deriving DecidableEq

instance : Move AnyMove where
  keys
    | .placement p => Move.keys p
    | .choice c => Move.keys c
  isValid
    | .placement p => Move.isValid p
    | .choice c => Move.isValid c
  text
    | .placement p => Move.text p
    | .choice c => Move.text c

namespace AnyPuzzle

def kind : AnyPuzzle → String
  | sudoku _ => "sudoku"
  | family _ => "exact cover"

/-- The puzzle after a move. A move of the other kind is refused. -/
def play? : AnyPuzzle → AnyMove → Option AnyPuzzle
  | sudoku s, .placement p => (Puzzle.play? s p).map sudoku
  | family f, .choice c => (Puzzle.play? f c).map family
  | _, _ => none

instance : Puzzle AnyPuzzle AnyMove where
  constraints
    | sudoku s => Puzzle.constraints s
    | family f => Puzzle.constraints f
  rows
    | sudoku s => Puzzle.rows s
    | family f => Puzzle.rows f
  initial
    | sudoku s => (Puzzle.initial s).map .placement
    | family f => (Puzzle.initial f).map .choice
  play? := play?
  isSolved
    | sudoku s => Puzzle.isSolved s
    | family f => Puzzle.isSolved f
  ofKeys?
    | sudoku s, keys => (Puzzle.ofKeys? s keys).map .placement
    | family f, keys => (Puzzle.ofKeys? f keys).map .choice

end AnyPuzzle

end ExactCover
