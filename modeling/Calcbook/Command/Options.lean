import Calcbook.Word

/-! The options of the command line. Options come first; from the first argument that is none of them on,
    everything belongs to the expression, and a double dash ends the options by itself. A minus sign may
    well begin an expression, so an unknown word is never a fault. -/

namespace Calcbook.Command

/-- What the command line asks for. -/
structure Options where
  jobs : Nat
  firstNumber : Nat
  file : Option String
  grammar : Bool
  exprs : List String
  deriving DecidableEq

namespace Options

def default : Options := ⟨4, 0, none, false, []⟩

end Options

/-- Why a command line is not run: a fault of its options, or a question about the program itself. -/
inductive Stop
  | badNumber
  | missingValue
  | repeated
  | unneededValue
  | version
  | help
  deriving DecidableEq

/-! ### Words -/

/-- Options that take a value. -/
inductive Key
  | jobs | firstNumber | file
  deriving DecidableEq

/-- Options that take none. -/
inductive Flag
  | grammar | version | help
  deriving DecidableEq

/-- What an argument is, by its form alone. -/
inductive Word
  | option (key : Key) (value : Option String)
  | flag (flag : Flag) (hasValue : Bool)
  | doubleDash
  | plain

namespace Word

/-- A long option, by its name and the value attached to it. -/
def ofLong (name : List Char) (value : Option String) : Word :=
  match String.ofList name with
  | "jobs" => .option .jobs value
  | "first-seq" => .option .firstNumber value
  | "file" => .option .file value
  | "grammar" => .flag .grammar value.isSome
  | "version" => .flag .version value.isSome
  | "help" => .flag .help value.isSome
  | _ => .plain

/-- Short options run together. They count as options only if every letter is one, and then the first
    takes what is left as its value. -/
def ofShort (letters : List Char) : Word :=
  if letters.all ['j', 'f', 'V', 'h'].contains then
    match letters with
    | [] => .plain
    | c :: rest =>
      let value := if rest.isEmpty then none else some (String.ofList rest)
      if c = 'j' then .option .jobs value
      else if c = 'f' then .option .file value
      else if c = 'V' then .flag .version false
      else .flag .help false
  else .plain

/-- The value behind the first equals sign. -/
def attached : List Char → Option String
  | '=' :: value => some (String.ofList value)
  | _ => none

/-- What an argument is. -/
def ofArg (arg : String) : Word :=
  match arg.toList with
  | ['-', '-'] => .doubleDash
  | '-' :: '-' :: body =>
    ofLong (body.takeWhile (· ≠ '=')) (attached (body.dropWhile (· ≠ '=')))
  | '-' :: letters => ofShort letters
  | _ => .plain

end Word

/-! ### Values -/

/-- The options given so far, and an option that may still get its value. -/
structure Given where
  jobs : Option Nat
  firstNumber : Option Nat
  file : Option String
  grammar : Bool
  unsettled : Option (Key × Option String)

namespace Given

def nothing : Given := ⟨none, none, none, false, none⟩

/-- Takes a number, once. -/
def number (already : Option Nat) (value : String) : Except Stop (Option Nat) :=
  if already.isSome then .error .repeated
  else
    match Word.read? value with
    | some n => .ok (some n)
    | none => .error .badNumber

/-- Takes the value of an option. -/
def take (g : Given) (key : Key) (value : String) : Except Stop Given :=
  match key with
  | .jobs => return { g with jobs := ← number g.jobs value }
  | .firstNumber => return { g with firstNumber := ← number g.firstNumber value }
  | .file =>
    if g.file.isSome then .error .repeated
    else if value.isEmpty then .error .missingValue
    else .ok { g with file := some value }

/-- Takes the value of the open option, which must have come by now. -/
def close (g : Given) : Except Stop Given :=
  match g.unsettled with
  | none => .ok g
  | some (_, none) => .error .missingValue
  | some (key, some value) => { g with unsettled := none }.take key value

/-- Takes a flag. -/
def flag (g : Given) : Flag → Except Stop Given
  | .grammar => if g.grammar then .error .repeated else .ok { g with grammar := true }
  | .version => .error .version
  | .help => .error .help

/-- The options, once all the options are there. -/
def options (g : Given) (exprs : List String) : Except Stop Options := do
  let g ← g.close
  return {
    jobs := g.jobs.getD Options.default.jobs
    firstNumber := g.firstNumber.getD Options.default.firstNumber
    file := g.file
    grammar := g.grammar
    exprs := exprs }

/-- Takes the arguments that are left. -/
def read (g : Given) : List String → Except Stop Options
  | [] => g.options []
  | arg :: args =>
    match Word.ofArg arg with
    | .doubleDash => g.options args
    | .flag _ true => .error .unneededValue
    | .flag f false => do (← (← g.close).flag f).read args
    | .option key (some value) => do (← (← g.close).take key value).read args
    | .option key none => do
      let g ← g.close
      { g with unsettled := some (key, none) }.read args
    | .plain =>
      match g.unsettled with
      | some (key, none) => { g with unsettled := some (key, some arg) }.read args
      | _ => g.options (arg :: args)

end Given

/-- The options of a command line. -/
def Options.ofArgs (args : List String) : Except Stop Options := Given.nothing.read args

end Calcbook.Command
