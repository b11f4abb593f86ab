import Calcbook.Word

/-! Tokens and what is reported of a token that does not fit. -/

namespace Calcbook

/-- A lexeme that stands for a terminal of a grammar, with the place where it starts. -/
structure Token where
  terminal : Nat
  lexeme : String
  offset : Nat
  deriving DecidableEq

/-- The place behind a token. Places are words, and the count starts over behind the last of them. -/
def Token.stop (t : Token) : Nat := (t.offset + t.lexeme.length) % Word.count

/-- A token that cannot come where it stands: the names of the terminals that could, the name of the
    one found, and its place. -/
structure Rejection where
  expected : List String
  found : String
  position : Nat
  deriving DecidableEq

namespace Rejection

/-- Alternatives in quotes, the last one after an "or". -/
def alternatives (names : List String) : String :=
  match (names.map fun n => "`" ++ n ++ "`").reverse with
  | [] => "nothing"
  | [only] => only
  | last :: before => ", ".intercalate before.reverse ++ " or " ++ last

/-- The wording of a rejection. -/
def message (r : Rejection) : String :=
  s!"expected {alternatives r.expected}, found `{r.found}` at {r.position}"

end Rejection

end Calcbook
