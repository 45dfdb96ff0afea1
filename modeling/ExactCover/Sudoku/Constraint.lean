import ExactCover.Text.Numeral

/-!
# What a Sudoku demands

Every cell holds one digit, and every row, column and box holds every digit once. Each of these
demands is a constraint with a key. Rows, columns, boxes and digits are counted from one here, as
the keys write them.

| constraint | key |
|---|---|
| the cell is filled | `R{row}C{column}` |
| the row holds the digit | `R{row}#{digit}` |
| the column holds the digit | `C{column}#{digit}` |
| the box holds the digit | `B{box}#{digit}` |

* **`Constraint.key`, `Constraint.ofKey?`**: from a constraint to its key and back.
-/

namespace ExactCover.Sudoku

/-- One demand on a board. -/
inductive Constraint
  | cell (row column : Nat)
  | inRow (row digit : Nat)
  | inColumn (column digit : Nat)
  | inBox (box digit : Nat)
  deriving DecidableEq, Repr

namespace Constraint

def key : Constraint → String
  | cell row column => "R" ++ toString row ++ "C" ++ toString column
  | inRow row digit => "R" ++ toString row ++ "#" ++ toString digit
  | inColumn column digit => "C" ++ toString column ++ "#" ++ toString digit
  | inBox box digit => "B" ++ toString box ++ "#" ++ toString digit

/-- A tag and the number after it, at the start of a text, and what follows them. The number takes
in all digits there are. -/
def field? : List Char → Option ((Char × Nat) × List Char)
  | [] => none
  | tag :: cs => do
    let n ← Text.digits? (cs.takeWhile Char.isDigit)
    return ((tag, n), cs.dropWhile Char.isDigit)

/-- The constraint with this key. Zeros in front of a number do not matter. -/
def ofKey? (key : String) : Option Constraint := do
  let ((tag, n), rest) ← field? key.toList
  let ((tag', n'), rest) ← field? rest
  match tag, tag', rest with
  | 'R', 'C', [] => some (cell n n')
  | 'R', '#', [] => some (inRow n n')
  | 'C', '#', [] => some (inColumn n n')
  | 'B', '#', [] => some (inBox n n')
  | _, _, _ => none

/-! ### What a constraint mentions -/

def row? : Constraint → Option Nat
  | cell row _ | inRow row _ => some row
  | _ => none

def column? : Constraint → Option Nat
  | cell _ column | inColumn column _ => some column
  | _ => none

def box? : Constraint → Option Nat
  | inBox box _ => some box
  | _ => none

def digit? : Constraint → Option Nat
  | cell _ _ => none
  | inRow _ digit | inColumn _ digit | inBox _ digit => some digit

end Constraint

end ExactCover.Sudoku
