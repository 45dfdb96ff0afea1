import ExactCover.Matrix.Cover
import ExactCover.Branching
import ExactCover.Puzzle
import ExactCover.Search.Tally

/-!
# Searching for an exact cover

A search picks a live column, covers it, and tries the rows that went through it one by one: it
covers the other columns of the row, searches what is left, and uncovers them again. When no column
is left the rows chosen on the way are an exact cover. The puzzle is then asked to replay them as
moves, and only what it accepts counts as a solution; otherwise the search goes on.

The search takes its operations as an argument. What it answers does not hang on how columns are
covered and uncovered, as long as the one undoes the other; and so what is proved of it for any
operations that do, holds of each of them.

* **`CoverOps`**: operations for covering and uncovering, and how far a search may go with them.
* **`CoverOps.precover`**: covers what the initial moves of the puzzle meet.
* **`CoverOps.descend`**: the search below the moves chosen so far.
* **`CoverOps.solveWith`**: a whole search. The matrix is handed back as it came.
* **`Search.solveWith`, `Search.solve`**: with the operations of matrices, on a given one or on the
  puzzle's own.
-/

namespace ExactCover

namespace Search

structure Options where
  branching : Branching := .standard
  /-- The search is given up once more nodes than this have been touched. -/
  budget : Option Nat := none
  deriving DecidableEq, Repr, Inhabited

variable {σ μ : Type} [Puzzle σ μ]

/-! ### What a search keeps and answers -/

/-- A matrix with some columns covered, the latest first, and the number of keys that no live
column had. -/
structure Precovered where
  matrix : Matrix
  covered : List ColumnId
  skipped : Nat

structure Progress where
  matrix : Matrix
  /-- Nodes touched so far. -/
  explored : Nat
  /-- Whether the budget has run out. -/
  aborted : Bool

/-- What a search below some point leaves behind, and the moves of the solution if it found one. -/
abbrev Answer (μ : Type) := Progress × Option (List μ)

/-- Whether more nodes were touched than the budget allows. -/
def isOverBudget (o : Options) (explored : Nat) : Bool := o.budget.any (· < explored)

def accept (p : σ) (moves : List μ) : Option (List μ) :=
  if Puzzle.isSolvedBy p moves then some moves else none

/-- How deep a search on a matrix with so many live columns may go. Where columns were only ever
covered and uncovered like brackets, each level takes away a live column, and their number is
enough. On any other matrix a covered column can come back; what counts then is that each level
touches a node, so that the budget ends the search. -/
def depthBound (o : Options) (m : Matrix) (live : Nat) : Nat :=
  live + m.stepBound + (o.budget.getD 0 + 1)

/-- The end of a search: the moves of the solution, or none of them if there is no solution, and
the matrix as the search left it. -/
structure Outcome (μ : Type) where
  moves : List μ
  tally : Tally
  matrix : Matrix

end Search

open Search

/-! ### Operations -/

/-- Operations for covering and uncovering, and how far a search may go with them. -/
structure CoverOps where
  cover : ColumnId → Matrix → Except Fault (Matrix × Nat)
  uncover : ColumnId → Matrix → Except Fault Matrix
  coverRow : NodeId → Matrix → Except Fault (Matrix × Nat)
  uncoverRow : NodeId → Matrix → Except Fault Matrix
  /-- How many steps the loop over the rows of a column may take. -/
  steps : Matrix → Nat
  /-- How deep a search on a matrix with so many live columns may go. -/
  depth : Options → Matrix → Nat → Nat

namespace CoverOps

variable {σ μ : Type} [Puzzle σ μ] (k : CoverOps)

/-! ### Before the search -/

/-- Covers the live column with this key, if there is one. -/
def precoverKey : Precovered → String → Except Fault Precovered
  | ⟨matrix, covered, skipped⟩, key => do
    match ← matrix.find? key with
    | some c => return ⟨(← k.cover c matrix).1, c :: covered, skipped⟩
    | none => return ⟨matrix, covered, skipped + 1⟩

/-- Covers the columns of all keys, in order. A key that names no live column, because it is
unknown or because its column is covered already, is counted and passed over. -/
def precover (keys : List String) (m : Matrix) : Except Fault Precovered :=
  keys.foldlM k.precoverKey ⟨m, [], 0⟩

/-! ### The search -/

/-- Tries the row through `row` and those below it, up to the head of the column. A row that is no
move of the puzzle is passed over. -/
def tryRows (p : σ) (below : List μ → Progress → Except Fault (Answer μ)) (header : NodeId)
    (chosen : List μ) : Nat → NodeId → Progress → Except Fault (Answer μ)
  | 0, _, _ => .error (.openRing header)
  | fuel + 1, row, ⟨matrix, explored, aborted⟩ => do
    -- below the last row of a column is its head
    if row = header ∨ aborted then return (⟨matrix, explored, aborted⟩, none)
    else
      match ← Puzzle.ofRow? p matrix row with
      | none =>
        let row' := (← matrix.mesh.node row).down
        tryRows p below header chosen fuel row' ⟨matrix, explored, aborted⟩
      | some move =>
        let (matrix, touched) ← k.coverRow row matrix
        let (⟨matrix, explored, aborted⟩, found) ←
          below (chosen ++ [move]) ⟨matrix, explored + touched, aborted⟩
        let matrix ← k.uncoverRow row matrix
        -- what was taken apart is together again, so the next row is found from this one
        match found with
        | some moves => return (⟨matrix, explored, aborted⟩, some moves)
        | none =>
          let row' := (← matrix.mesh.node row).down
          tryRows p below header chosen fuel row' ⟨matrix, explored, aborted⟩

/-- Searches below the moves chosen so far. The first number bounds the depth. -/
def descend (p : σ) (o : Options) : Nat → List μ → Progress → Except Fault (Answer μ)
  | depth, chosen, ⟨matrix, explored, aborted⟩ => do
    if isOverBudget o explored then return (⟨matrix, explored, true⟩, none)
    else
      match ← o.branching.choose matrix with
      | none => return (⟨matrix, explored, aborted⟩, accept p chosen)
      | some c =>
        match depth with
        | 0 => throw .tooDeep
        | depth + 1 =>
          let header := (← matrix.column c).header
          let (matrix, touched) ← k.cover c matrix
          -- the covered column still holds its rows
          let top := (← matrix.mesh.node header).down
          let bound := k.steps matrix
          let (⟨matrix, explored, aborted⟩, found) ←
            k.tryRows p (descend p o depth) header chosen bound top
              ⟨matrix, explored + touched, aborted⟩
          return (⟨← k.uncover c matrix, explored, aborted⟩, found)

/-! ### A whole search -/

def solveWith [Move μ] (p : σ) (o : Options) (m : Matrix) : Except Fault (Outcome μ) := do
  let (columns, nodes) ← m.extent
  let initial := Puzzle.initial p
  let ⟨matrix, covered, skipped⟩ ← k.precover (initial.flatMap Move.keys) m
  let depth := k.depth o matrix (← matrix.live).length
  let (⟨matrix, explored, aborted⟩, found) ← k.descend p o depth [] ⟨matrix, 0, false⟩
  -- the column that was covered last comes first
  let matrix ← covered.foldlM (fun m c => k.uncover c m) matrix
  return {
    moves := found.getD []
    tally := {
      extent := columns + nodes
      initial := initial.length
      explored, skipped, aborted
      solved := found.isSome }
    matrix }

/-! ### The operations of matrices -/

/-- The operations of a matrix itself, which list the nodes first that they are going to work on. -/
def listed : CoverOps where
  cover := Matrix.cover
  uncover := Matrix.uncover
  coverRow := Matrix.coverRow
  uncoverRow := Matrix.uncoverRow
  steps := Matrix.stepBound
  depth := depthBound

end CoverOps

namespace Search

variable {σ μ : Type} [Move μ] [Puzzle σ μ]

def precover (keys : List String) (m : Matrix) : Except Fault Precovered :=
  CoverOps.listed.precover keys m

def solveWith (p : σ) (o : Options) (m : Matrix) : Except Fault (Outcome μ) :=
  CoverOps.listed.solveWith p o m

def solve (p : σ) (o : Options) : Except Fault (Outcome μ) := do
  solveWith p o (← Puzzle.matrix p)

end Search

end ExactCover
