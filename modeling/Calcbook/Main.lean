import Calcbook.Command.Run

/-! The program: files and lines are read here, everything else is decided by `Calcbook.Command`. -/

namespace Calcbook.Command

/-- Reads a file as text. -/
def readText (path : String) : IO (Except FileFault String) := do
  try
    let bytes ← IO.FS.readBinFile path
    return match String.fromUTF8? bytes with
      | some text => .ok text
      | none => .error .notText
  catch
    | .noFileOrDirectory .. => return .error .notFound
    | .inappropriateType _ code _ =>
      return .error (if code.toInt32.toInt.natAbs = 20 then .notDirectory else .isDirectory)
    | _ => return .error .isDirectory

/-- Writes what a run has to say. -/
def emit (o : Output) : IO UInt32 := do
  IO.print o.out
  IO.eprint o.err
  return UInt32.ofNat o.code

/-- Answers the lines of the input as they come. -/
partial def answerLines (input : IO.FS.Stream) (b : Book StdGen) : IO Unit := do
  let line ← input.getLine
  if line.isEmpty then return
  let (out, next) := respond b ("".intercalate (Text.lines line))
  IO.print out
  (← IO.getStdout).flush
  match next with
  | some b' => answerLines input b'
  | none => return

end Calcbook.Command

open Calcbook.Command in
def main (args : List String) : IO UInt32 := do
  let seed ← IO.rand 0 0x7fffffff
  match Task.ofArgs (mkStdGen seed) args with
  | .done output => emit output
  | .file b path => emit (answerFile b (← readText path))
  | .conversation b =>
    answerLines (← IO.getStdin) b
    return 0
