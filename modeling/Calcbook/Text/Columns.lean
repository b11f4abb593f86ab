/-! Text in columns: each entry is filled up with blanks to the width of its column. An entry that is
    wider than its column stays whole. -/

namespace Calcbook.Text

/-- A text filled up with blanks on its right to the given number of characters. -/
def padRight (width : Nat) (s : String) : String := s ++ "".pushn ' ' (width - s.length)

/-- A row of columns of given widths and a last entry, separated by single blanks. -/
def row (columns : List (Nat × String)) (last : String) : String :=
  columns.foldr (fun c line => padRight c.1 c.2 ++ " " ++ line) last

end Calcbook.Text
