/-!
# Numerals

Numbers are written with decimal digits and must fit into 64 bits.
-/

namespace ExactCover.Text

def largest : Nat := UInt64.size - 1

def digitValue (c : Char) : Nat := c.toNat - '0'.toNat

/-- The number that a list of digits stands for. Zeros in front do not matter; no digits at all, any
other character, and a number that is too large, stand for nothing. -/
def digits? (cs : List Char) : Option Nat :=
  if cs ≠ [] ∧ cs.all Char.isDigit then
    let n := cs.foldl (fun n c => 10 * n + digitValue c) 0
    if n ≤ largest then some n else none
  else none

/-- The number that a list of digits stands for, with or without a plus sign in front. -/
def number? : List Char → Option Nat
  | '+' :: cs => digits? cs
  | cs => digits? cs

end ExactCover.Text
