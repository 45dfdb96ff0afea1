/-!
# Blanks, words and lines

* **`isBlank`**: the characters with the Unicode property `White_Space`.
* **`cut`**: a text at each character of some kind; nothing else is lost.
* **`trim`, `words`, `lines`**: a text without blanks at its ends, between blanks, and line by line.

Texts are lists of characters here, so that each function is a recursion on its text.
-/

namespace ExactCover.Text

/-! ### Blanks -/

/-- The code points with the property `White_Space`, as closed ranges in ascending order. -/
def blankRanges : List (Nat × Nat) :=
  [(0x9, 0xD), (0x20, 0x20), (0x85, 0x85), (0xA0, 0xA0), (0x1680, 0x1680), (0x2000, 0x200A),
    (0x2028, 0x2029), (0x202F, 0x202F), (0x205F, 0x205F), (0x3000, 0x3000)]

def isBlank (c : Char) : Bool :=
  blankRanges.any fun (first, last) => first ≤ c.toNat && c.toNat ≤ last

/-- The text without the blanks at its start and at its end. -/
def trim (cs : List Char) : List Char :=
  ((cs.dropWhile isBlank).reverse.dropWhile isBlank).reverse

/-! ### Pieces -/

/-- The pieces of a text between the characters of some kind, empty ones included. There is always
one piece more than there are such characters. -/
def cut (p : Char → Bool) : List Char → List (List Char)
  | [] => [[]]
  | c :: cs =>
    if p c then [] :: cut p cs
    else
      -- the character belongs to the piece that starts after it
      match cut p cs with
      | [] => [[c]]
      | piece :: rest => (c :: piece) :: rest

theorem cut_ne_nil (p : Char → Bool) (cs : List Char) : cut p cs ≠ [] := by
  cases cs with
  | nil => simp [cut]
  | cons c cs =>
    unfold cut
    split
    · simp
    · split <;> simp

/-- The maximal runs of characters that are no blanks. -/
def words (cs : List Char) : List (List Char) :=
  (cut isBlank cs).filter (· ≠ [])

def dropReturn (cs : List Char) : List Char :=
  if cs.getLast? = some '\r' then cs.dropLast else cs

/-- The lines of a text. A line ends with a line feed, or with a carriage return and a line feed;
what follows the last line feed is a line only if it is not empty. -/
def lines (cs : List Char) : List (List Char) :=
  let pieces := cut (· = '\n') cs
  pieces.dropLast.map dropReturn ++ pieces.getLast?.toList.filter (· ≠ [])

/-- The lines of a text with their numbers, from `1` on. -/
def numberedLines (cs : List Char) : List (Nat × List Char) :=
  (lines cs).zipIdx 1 |>.map fun (line, number) => (number, line)

end ExactCover.Text
