/-!
# Fields of a fixed width

A text that is shorter than its field is filled up with spaces; a longer one is written in full.
-/

namespace ExactCover.Text

def spaces (n : Nat) : String := String.ofList (List.replicate n ' ')

def padLeft (width : Nat) (text : String) : String := spaces (width - text.length) ++ text

def padRight (width : Nat) (text : String) : String := text ++ spaces (width - text.length)

end ExactCover.Text
