import ExactCover.Matrix.Basic

/-!
# Puzzles

A puzzle is a state in which moves can be played. It describes itself as an exact cover problem:
each constraint is a column, named by a key, and each move that may ever be played is a row, given
by the keys of the constraints that it meets. A search works on columns and rows alone; `Puzzle`
says how to read a row back as a move, and the rules of the game have the last word on what the
search has found.

* **`Move`**: the keys of a move, and its text.
* **`Puzzle`**: columns and rows, what is played already, and the rules.
* **`Puzzle.replay?`**: the state after a list of moves, if the rules accept every one.
-/

namespace ExactCover

/-- Something that can be played in a puzzle. -/
class Move (μ : Type) where
  /-- The keys of all constraints that the move meets. -/
  keys : μ → List String
  /-- Whether the move is within the ranges of its puzzle, whatever the state. -/
  isValid : μ → Bool
  /-- The move as it is written in reports. -/
  text : μ → String

/-- A game for one player, as an exact cover problem. -/
class Puzzle (σ : Type) (μ : outParam Type) where
  /-- The keys of all constraints, in the order of the columns. -/
  constraints : σ → List String
  /-- The rows, each by the keys of the constraints that it meets. -/
  rows : σ → List (List String)
  /-- The moves that are part of every solution. -/
  initial : σ → List μ
  /-- The state after a move, or none if the rules refuse it. -/
  play? : σ → μ → Option σ
  /-- Whether the puzzle is solved. -/
  isSolved : σ → Bool
  /-- The move that meets the constraints with these keys, in whatever order. -/
  ofKeys? : σ → List String → Option μ

namespace Puzzle

variable {σ μ : Type} [Puzzle σ μ]

def matrix (p : σ) : Except Fault Matrix := Matrix.ofRows (constraints p) (rows p)

/-- The move that the row through `id` stands for, its keys read from `id` to the right. -/
def ofRow? (p : σ) (m : Matrix) (id : NodeId) : Except Fault (Option μ) := do
  return ofKeys? p (← m.rowKeys id)

/-- The state after one move; a move that the rules refuse leaves it as it was. -/
def playOrSkip (p : σ) (move : μ) : σ := (play? p move).getD p

/-- The state after a list of moves, or none if the rules refuse one of them. -/
def replay? (p : σ) (moves : List μ) : Option σ := moves.foldlM play? p

/-- Whether a list of moves is accepted move by move and ends in a solved state. -/
def isSolvedBy (p : σ) (moves : List μ) : Bool := (replay? p moves).any isSolved

end Puzzle

end ExactCover
