import Calcbook.Text.Hidden

/-! Texts in quotes. Everything that would be misread is escaped: the quote and the backslash, line breaks
    and tabs by letters, and all other hidden characters by their code points in hexadecimal. -/

namespace Calcbook.Text

/-- A character as it stands between quotes. -/
def escape (c : Char) : String :=
  if c = '\x00' then "\\0"
  else if c = '\t' then "\\t"
  else if c = '\r' then "\\r"
  else if c = '\n' then "\\n"
  else if c = '"' then "\\\""
  else if c = '\\' then "\\\\"
  else if isHidden c then "\\u\x7b" ++ String.ofList (Nat.toDigits 16 c.toNat) ++ "\x7d"
  else String.singleton c

/-- A text in quotes. -/
def quoted (s : String) : String := "\"" ++ String.join (s.toList.map escape) ++ "\""

end Calcbook.Text
