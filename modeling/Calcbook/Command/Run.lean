import Calcbook.Book.Basic
import Calcbook.Command.Options
import Calcbook.Text.Blank

/-! What the program does with its command line. It prints the grammar, or answers one expression or the
    lines of a file all at once, or answers the lines of its input one by one. Reading files and lines is
    left to the caller. -/

namespace Calcbook.Command

/-! ### Results -/

/-- The exit code of a run and what it writes. -/
structure Output where
  code : Nat
  out : String
  err : String

/-- Why a file cannot be read as text. -/
inductive FileFault
  | notFound
  | notDirectory
  | isDirectory
  | notText

/-- Why a run fails. -/
inductive Trouble
  | answer (why : Failure)
  | file (why : FileFault)

/-- What went wrong with a file, with the number of the system for it if it has one. -/
def FileFault.detail : FileFault → String
  | notFound => "Os \x7b code: 2, kind: NotFound, message: \"No such file or directory\" \x7d"
  | notDirectory => "Os \x7b code: 20, kind: NotADirectory, message: \"Not a directory\" \x7d"
  | isDirectory => "Os \x7b code: 21, kind: IsADirectory, message: \"Is a directory\" \x7d"
  | notText =>
    "Error \x7b kind: InvalidData, message: \"stream did not contain valid UTF-8\" \x7d"

/-- The report of a run that fails. -/
def Trouble.report : Trouble → String
  | answer (.exhausted number) => s!"SeqExhausted({number})"
  | answer why => why.message
  | file why => s!"Io({why.detail})"

/-- A run that succeeds. -/
def Output.success (out : String) : Output := ⟨0, out, ""⟩

/-- A run that fails after it has written something. -/
def Output.failure (out : String) (why : Trouble) : Output := ⟨1, out, "Error: " ++ why.report ++ "\n"⟩

/-! ### Texts about the program -/

def versionText : String := "notebook 0.1.0\n"

def helpText : String :=
  "Numbered arithmetic notebook over an LL(1) parser\n\n" ++
  "Usage: notebook [OPTIONS] [EXPRS]...\n\n" ++
  "Arguments:\n" ++
  "  [EXPRS]...  Expression to evaluate once, words are joined with spaces\n\n" ++
  "Options:\n" ++
  "  -j, --jobs <JOBS>            Worker threads evaluating inputs [default: 4]\n" ++
  "      --first-seq <FIRST_SEQ>  Number given to the first input [default: 0]\n" ++
  "  -f, --file <FILE>            Evaluate every non-empty line of a file, in order\n" ++
  "      --grammar                Print the grammar analysis and parse table, then exit\n" ++
  "  -h, --help                   Print help\n" ++
  "  -V, --version                Print version\n"

/-- The rules of formulas, what is known of them, and their parse table. -/
def grammarText : Except Defect String := do
  let table ← Formula.table
  let analysis ← Analysis.ofGrammar table.grammar
  return table.grammar.text ++ "\n" ++ analysis.text ++ "\n" ++ table.text

/-! ### Answering -/

section Answering
variable {σ : Type} [Chance σ]

/-- Submits inputs until one gets no number. -/
def submitAll (b : Book σ) : List String → Option Failure × Book σ
  | [] => (none, b)
  | input :: inputs =>
    match b.submit input with
    | (.ok _, b') => submitAll b' inputs
    | (.error why, b') => (some why, b')

/-- Answers inputs all at once, in order. -/
def answerAll (b : Book σ) (inputs : List String) : Output :=
  let (failure, submitted) := submitAll b inputs
  let out := String.join (submitted.finish.released.map fun a => answerLine a ++ "\n")
  match failure with
  | none => .success out
  | some why => .failure out (.answer why)

/-- What a line of a conversation is answered by, and the book for the next one; none when there are
    no numbers left. Blank lines are passed over. -/
def respond (b : Book σ) (line : String) : String × Option (Book σ) :=
  if Text.isBlankText line then ("", some b)
  else
    match b.submit line with
    | (.error why, _) => (why.message ++ "\n", none)
    | (.ok _, submitted) =>
      let b' := submitted.finish
      let news := b'.released.map fun a => answerLine a ++ "\n\n"
      (String.join news, some { b' with released := [] })

/-- Answers lines one by one. -/
def converse (b : Book σ) : List String → String
  | [] => ""
  | line :: lines =>
    match respond b line with
    | (out, some b') => out ++ converse b' lines
    | (out, none) => out

/-! ### Tasks -/

/-- What is left to do once the command line is read. -/
inductive Task (σ : Type)
  | done (output : Output)
  | file (b : Book σ) (path : String)
  | conversation (b : Book σ)

/-- The task of a command line. The grammar comes before expressions and these before a file. -/
def Task.ofArgs (gen : σ) (args : List String) : Task σ :=
  match Options.ofArgs args with
  | .error .version => .done (.success versionText)
  | .error .help => .done (.success helpText)
  | .error _ => .done ⟨2, "", "error: invalid command line\n\nFor more information, try '--help'.\n"⟩
  | .ok options =>
    if options.grammar then
      match grammarText with
      | .ok out => .done (.success out)
      | .error why => .done (.failure "" (.answer (.grammar why)))
    else
      match Book.make options.jobs options.firstNumber .default gen with
      | .error why => .done (.failure "" (.answer why))
      | .ok b =>
        if !options.exprs.isEmpty then .done (answerAll b [" ".intercalate options.exprs])
        else
          match options.file with
          | some path => .file b path
          | none => .conversation b

/-- Answers every line of a file that is not blank. -/
def answerFile (b : Book σ) : Except FileFault String → Output
  | .ok text => answerAll b ((Text.lines text).filter (!Text.isBlankText ·))
  | .error why => .failure "" (.file why)

/-- The whole run of a command line, given the files there are and the text of its input. -/
def run (gen : σ) (files : String → Except FileFault String) (input : String)
    (args : List String) : Output :=
  match Task.ofArgs gen args with
  | .done output => output
  | .file b path => answerFile b (files path)
  | .conversation b => .success (converse b (Text.lines input))

end Answering

/-! ### The generator -/

/-- How many numbers a draw chooses from; a double holds all of them. -/
def drawSteps : Nat := 0x20000000000000

/-- The generator that the program draws from. -/
instance generator : Chance StdGen where
  draw gen :=
    let (n, gen') := randNat gen 0 (drawSteps - 1)
    (n.toFloat / drawSteps.toFloat, gen')
  split := stdSplit

end Calcbook.Command
