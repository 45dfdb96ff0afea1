/-!
# Texts that come out of files

A file is a list of bytes, or it is not there at all. Its text is what the bytes say in UTF-8.
-/

namespace ExactCover.Text

inductive SourceFault
  | missing
  | notUnicode
  deriving DecidableEq, Repr

def SourceFault.message : SourceFault → String
  | .missing => "No such file or directory (os error 2)"
  | .notUnicode => "stream did not contain valid UTF-8"

/-- The text of a file, given its bytes if it is there. -/
def ofBytes (content : Option ByteArray) : Except SourceFault String :=
  match content with
  | none => .error .missing
  | some bytes =>
    match String.fromUTF8? bytes with
    | some text => .ok text
    | none => .error .notUnicode

end ExactCover.Text
