/-!
# What a search reports about itself

* **`Tally`**: the counts of one search, and how it ended.
* **`Tally.counters`**: the four counts that are published by name, in the order of their names.
-/

namespace ExactCover

structure Elapsed where
  seconds : Nat
  nanoseconds : Nat
  deriving DecidableEq, Repr

/-- The span of so many seconds and nanoseconds. A billion nanoseconds are carried over as a second;
there is no such span if the seconds do not fit into 64 bits. -/
def Elapsed.ofParts? (seconds nanoseconds : Nat) : Option Elapsed :=
  let whole := seconds + nanoseconds / 1000000000
  if whole < UInt64.size then some ⟨whole, nanoseconds % 1000000000⟩ else none

/-- Whole milliseconds, as many as fit into 64 bits. -/
def Elapsed.milliseconds (e : Elapsed) : Nat :=
  min (e.seconds * 1000 + e.nanoseconds / 1000000) (UInt64.size - 1)

structure Tally where
  /-- Columns, and nodes below their heads, before anything was covered. -/
  extent : Nat
  /-- How many moves were part of the puzzle from the start. -/
  initial : Nat
  /-- Nodes touched by covering in the search proper. -/
  explored : Nat
  /-- Keys of initial moves that named no live column. -/
  skipped : Nat
  /-- Whether the search ran out of its budget. -/
  aborted : Bool
  /-- Whether a solution was found that the puzzle itself accepts. -/
  solved : Bool
  deriving DecidableEq, Repr, Inhabited

namespace Tally

def verdict (t : Tally) : String :=
  if t.solved then "SOLVED" else if t.aborted then "ABORTED" else "NO SOLUTION"

/-- The published counts with their names, in alphabetical order. -/
def counters (t : Tally) (elapsed : Elapsed) : List (String × Nat) :=
  [("elapsedtime", elapsed.milliseconds), ("nodesexplored", t.explored),
    ("numberinitialconstraints", t.initial), ("torsize", t.extent)]

def line (t : Tally) (elapsed : Elapsed) : String :=
  ", ".intercalate ((t.counters elapsed).map fun (name, count) => name ++ "=" ++ toString count)

end Tally

end ExactCover
