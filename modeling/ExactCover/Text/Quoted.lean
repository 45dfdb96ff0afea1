import ExactCover.Text.Visible

/-!
# Quoting in messages

A piece of a bad input is quoted so that the message stays on one line and every character of it
can be told: a backslash stands before the quote itself, before another backslash, and before the
letter of a tab, line feed, carriage return or null; a character without a shape of its own is
written by its code point.
-/

namespace ExactCover.Text

def codePoint (c : Char) : String :=
  "\\u\x7b" ++ String.ofList (Nat.toDigits 16 c.toNat) ++ "\x7d"

def escape (quoteMark : Char) (c : Char) : String :=
  if c = quoteMark ∨ c = '\\' then String.ofList ['\\', c]
  else if c = '\t' then "\\t"
  else if c = '\n' then "\\n"
  else if c = '\r' then "\\r"
  else if c.toNat = 0 then "\\0"
  else if isVisible c then c.toString
  else codePoint c

def quoteChar (c : Char) : String := "'" ++ escape '\'' c ++ "'"

def quote (s : String) : String := "\"" ++ String.join (s.toList.map (escape '"')) ++ "\""

end ExactCover.Text
