import ExactCover.Matrix.Basic

/-!
# Which column to branch on

A search picks one live column and tries its rows in turn. Any choice is correct; a column with few
rows keeps the tree small.

* **`Branching.fewestRows`**: a live column with the fewest nodes, the first of these.
* **`Branching.firstColumn`**: the first live column.
-/

namespace ExactCover

inductive Branching
  | fewestRows
  | firstColumn
  deriving DecidableEq, Repr, Inhabited

namespace Branching

/-- The rule that holds where none is asked for. -/
def standard : Branching := .fewestRows

def all : List Branching := [.fewestRows, .firstColumn]

def name : Branching → String
  | .fewestRows => "minimum-remaining"
  | .firstColumn => "first-column"

def title : Branching → String
  | .fewestRows => "Minimum Remaining Values"
  | .firstColumn => "First Column"

def ofName? (s : String) : Option Branching := all.find? (·.name == s)

/-- The rule with this name, where letters `A` to `Z` count as small ones. -/
def ofNameIgnoringCase? (s : String) : Option Branching := ofName? (s.map Char.toLower)

/-- The first column of least size, given the best one of those before it. Nothing is smaller than
zero, so the first empty column ends the scan. -/
def scan (m : Matrix) (best : ColumnId) (bestSize : Nat) : List ColumnId → Except Fault ColumnId
  | [] => return best
  | c :: rest => do
    let size := (← m.column c).size
    if size < bestSize then
      -- an empty column cannot be met any more, so there is no need to look further
      if size = 0 then return c else scan m c size rest
    else scan m best bestSize rest

/-- The column to branch on, or none if no column is live. -/
def choose (b : Branching) (m : Matrix) : Except Fault (Option ColumnId) := do
  match b, ← m.live with
  | _, [] => return none
  | .firstColumn, c :: _ => return some c
  | .fewestRows, c :: rest =>
    let size := (← m.column c).size
    if size = 0 then return some c else return some (← scan m c size rest)

end Branching

end ExactCover
