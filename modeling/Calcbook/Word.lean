/-! Words of 64 bits. The numbers of inputs, the numbers of symbols in tokens and the offsets of tokens
    are words. -/

namespace Calcbook.Word

/-- How many words there are. -/
def count : Nat := 0x10000000000000000

/-- The largest word. -/
def last : Nat := count - 1

/-- Reads a word in decimal digits, with an optional plus sign. -/
def read? (s : String) : Option Nat :=
  let digits := match s.toList with
    | '+' :: ds => ds
    | ds => ds
  if !digits.isEmpty && digits.all Char.isDigit then
    let n := digits.foldl (fun n c => 10 * n + (c.toNat - '0'.toNat)) 0
    if n < count then some n else none
  else none

end Calcbook.Word
