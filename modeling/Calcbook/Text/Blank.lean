import Calcbook.Text.Ranges

/-! The Unicode property White_Space, and the lines of a text. -/

namespace Calcbook.Text

/-- The characters that leave a line blank. -/
def whiteSpaceRanges : Ranges := [
  (0x9, 0xd), (0x20, 0x20), (0x85, 0x85), (0xa0, 0xa0), (0x1680, 0x1680), (0x2000, 0x200a),
  (0x2028, 0x2029), (0x202f, 0x202f), (0x205f, 0x205f), (0x3000, 0x3000)]

/-- Whether there is nothing but white space in a text. -/
def isBlankText (s : String) : Bool := s.toList.all whiteSpaceRanges.contains

/-- A line without the carriage return at its end. -/
def dropReturn (line : List Char) : List Char :=
  if line.getLast? = some '\r' then line.dropLast else line

/-- The lines of some characters behind the start of a line, which is kept in reverse. A line ends in a
    line feed, or in a carriage return and a line feed; what comes behind the last of them is a line if it
    is not empty, and keeps its carriage return. -/
def linesFrom (start : List Char) : List Char → List (List Char)
  | [] => if start.isEmpty then [] else [start.reverse]
  | c :: cs =>
    if c = '\n' then dropReturn start.reverse :: linesFrom [] cs else linesFrom (c :: start) cs

/-- The lines of a text. -/
def lines (s : String) : List String := (linesFrom [] s.toList).map String.ofList

end Calcbook.Text
