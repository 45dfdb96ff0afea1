import ExactCover.Sudoku.Basic
import ExactCover.Text.Blank
import ExactCover.Text.Quoted
import ExactCover.Text.Source

/-!
# Reading Sudokus

A file holds one board on each line. A line without blanks has one character for each cell, a digit
or a dot, and a line with blanks has one number for each cell. Lines that are blank or start with
`#` or `c` mean nothing. The first line that is no board is reported, and in it the first bad
character or number before the number of cells, and that before the numbers that are too large.
-/

namespace ExactCover.Sudoku

/-- Why a text, or the file it should have come from, holds no boards. -/
inductive ReadError
  | unreadable (fault : Text.SourceFault)
  /-- A character is neither a digit nor a dot. Columns are counted from one. -/
  | invalidCharacter (line column : Nat) (c : Char)
  | invalidNumber (line : Nat) (token : String)
  /-- No board has this many cells. -/
  | unsupportedLength (line length : Nat)
  | board (line : Nat) (flaw : Flaw)
  deriving DecidableEq, Repr

def ReadError.message : ReadError → String
  | .unreadable fault => "unable to read puzzle file: " ++ fault.message
  | .invalidCharacter line column c =>
    "line " ++ toString line ++ ": invalid character " ++ Text.quoteChar c ++ " at column "
      ++ toString column
  | .invalidNumber line token =>
    "line " ++ toString line ++ ": invalid number " ++ Text.quote token
  | .unsupportedLength line length =>
    "line " ++ toString line ++ ": " ++ toString length ++ " cells do not form a supported board"
  | .board line flaw => "line " ++ toString line ++ ": " ++ flaw.message

/-! ### One line -/

def cellValue? (c : Char) : Option Nat :=
  if c = '.' then some 0 else if c.isDigit then some (Text.digitValue c) else none

/-- The numbers of a line with one character for each cell. -/
def readCharacters (number : Nat) (line : List Char) : Except ReadError (List Nat) :=
  (line.zipIdx 1).mapM fun (c, column) =>
    match cellValue? c with
    | some value => .ok value
    | none => .error (.invalidCharacter number column c)

def readNumbers (number : Nat) (line : List Char) : Except ReadError (List Nat) :=
  (Text.words line).mapM fun token =>
    match Text.number? token with
    | some value => .ok value
    | none => .error (.invalidNumber number (String.ofList token))

def readCells (number : Nat) (line : List Char) : Except ReadError (List Nat) :=
  if line.any Text.isBlank then readNumbers number line else readCharacters number line

/-- The board on a line. Blanks at its ends count as blanks. The number of the line is for messages
only. -/
def readLine (number : Nat) (line : List Char) : Except ReadError Sudoku := do
  let cells ← readCells number line
  match Size.ofCells? cells.length with
  | none => throw (.unsupportedLength number cells.length)
  | some size => (ofGrid (Grid.ofCells size.side cells)).mapError (.board number)

/-! ### A whole text -/

/-- Whether a line, without the blanks around it, holds a board. -/
def isPuzzleLine (line : List Char) : Bool :=
  line ≠ [] ∧ line.head? ≠ some '#' ∧ line.head? ≠ some 'c'

/-- The lines that hold boards, without the blanks around them, with their numbers. -/
def puzzleLines (text : String) : List (Nat × List Char) :=
  ((Text.numberedLines text.toList).map fun (number, line) => (number, Text.trim line)).filter
    fun (_, line) => isPuzzleLine line

def read (text : String) : Except ReadError (List Sudoku) :=
  (puzzleLines text).mapM fun (number, line) => readLine number line

/-- All boards in a file, given its bytes if it is there. -/
def readBytes (content : Option ByteArray) : Except ReadError (List Sudoku) := do
  read (← (Text.ofBytes content).mapError .unreadable)

end ExactCover.Sudoku
