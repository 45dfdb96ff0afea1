import ExactCover.Family.Basic
import ExactCover.Text.Blank
import ExactCover.Text.Source

/-!
# Reading families of subsets

```text
# comment
columns: A B C D E F G
r1: C E F
r2: A D G
fixed: r1
```

A line names the items, fixes subsets, or declares one subset. The items come before any subset;
subsets can be fixed anywhere and more than once. Blank lines and lines that start with `#` mean
nothing. The first malformed line is reported, whatever is wrong with the items and subsets.
-/

namespace ExactCover.Family

/-- Why a text, or the file it should have come from, is no family. -/
inductive ReadError
  | unreadable (fault : Text.SourceFault)
  /-- The line has no colon, or no name before it. -/
  | missingSeparator (line : Nat)
  | duplicateColumns (line : Nat)
  /-- A subset is declared before the items are. -/
  | missingColumns (line : Nat)
  | noColumns
  | invalid (flaw : Flaw)
  deriving DecidableEq, Repr

def ReadError.message : ReadError → String
  | .unreadable fault => "unable to read cover file: " ++ fault.message
  | .missingSeparator line => "line " ++ toString line ++ ": expected \x60name: items\x60"
  | .duplicateColumns line => "line " ++ toString line ++ ": columns declared twice"
  | .missingColumns line => "line " ++ toString line ++ ": subset declared before the columns"
  | .noColumns => "no columns declared"
  | .invalid flaw => flaw.message

/-! ### Lines -/

inductive Entry
  | columns (items : List String)
  | fixed (names : List String)
  | subset (name : String) (keys : List String)
  deriving DecidableEq, Repr

/-- What a line says: a name, a colon, and words. The name has no blanks around it and is not
empty. -/
def Entry.ofLine? (line : List Char) : Option Entry :=
  match line.dropWhile (· ≠ ':') with
  | [] => none
  | _ :: rest =>
    let values := (Text.words rest).map String.ofList
    match String.ofList (Text.trim (line.takeWhile (· ≠ ':'))) with
    | "" => none
    | "columns" => some (.columns values)
    | "fixed" => some (.fixed values)
    | name => some (.subset name values)

/-- Whether a line, without the blanks around it, means anything. -/
def isSignificant (line : List Char) : Bool := line ≠ [] ∧ line.head? ≠ some '#'

/-- The lines that mean something, without the blanks around them, with their numbers. -/
def significantLines (text : String) : List (Nat × List Char) :=
  ((Text.numberedLines text.toList).map fun (number, line) => (number, Text.trim line)).filter
    fun (_, line) => isSignificant line

/-! ### The whole text -/

structure Draft where
  items? : Option (List String) := none
  subsets : List (String × List String) := []
  fixed : List String := []
  deriving DecidableEq, Repr

def Draft.add (d : Draft) : Nat × List Char → Except ReadError Draft
  | (number, line) =>
    match Entry.ofLine? line with
    | none => .error (.missingSeparator number)
    | some (.columns items) =>
      if d.items?.isSome then .error (.duplicateColumns number)
      else .ok { d with items? := some items }
    | some (.fixed names) => .ok { d with fixed := d.fixed ++ names }
    | some (.subset name keys) =>
      if d.items?.isNone then .error (.missingColumns number)
      else .ok { d with subsets := d.subsets ++ [(name, keys)] }

def readDeclaration (text : String) : Except ReadError Declaration := do
  let d ← (significantLines text).foldlM Draft.add {}
  match d.items? with
  | none => throw .noColumns
  | some items => return { items, subsets := d.subsets, fixed := d.fixed }

def read (text : String) : Except ReadError Family := do
  (ofDeclaration (← readDeclaration text)).mapError .invalid

/-- The family that a file describes, given its bytes if it is there. -/
def readBytes (content : Option ByteArray) : Except ReadError Family := do
  read (← (Text.ofBytes content).mapError .unreadable)

end ExactCover.Family
