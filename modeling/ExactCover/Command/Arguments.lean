import ExactCover.Branching
import ExactCover.Text.Numeral

/-!
# Command lines

```text
dlx [OPTIONS] [PATH]
dlx sudoku --path PATH [-n COUNT] [--seed SEED] [OPTIONS]
dlx cover --path PATH [OPTIONS]
dlx dir --path PATH [OPTIONS]
dlx help [COMMAND]
```

An option is written `--name`, and one that takes a value `--name value` or `--name=value`. Some
have a letter too: letters of options without a value can be joined as in `-dp`, and a letter that
takes a value ends the group, as in `-n3`, `-n=3` and `-n 3`. No option may be given twice. What
follows `--` is no option and no command. Options before a command belong to the whole and not to
the command.

* **`Arguments.scan`**: a command line as options, operands and a command with what follows it.
* **`Invocation.ofArguments`**: what the command line asks for.
-/

namespace ExactCover.Command

inductive UsageError
  | unknownOption (written : String)
  | unexpectedValue (option : String)
  | missingValue (option : String)
  | invalidValue (option value : String)
  | repeated (option : String)
  | unexpectedOperand (operand : String)
  | missingOption (option : String)
  | unknownCommand (name : String)
  | unsupported (command : String)
  deriving DecidableEq, Repr

def UsageError.message : UsageError → String
  | .unknownOption written => "unexpected argument '" ++ written ++ "' found"
  | .unexpectedValue option => "unexpected value for '--" ++ option ++ "'"
  | .missingValue option => "a value is required for '--" ++ option ++ "'"
  | .invalidValue option value => "invalid value '" ++ value ++ "' for '--" ++ option ++ "'"
  | .repeated option => "the argument '--" ++ option ++ "' cannot be used multiple times"
  | .unexpectedOperand operand => "unexpected argument '" ++ operand ++ "' found"
  | .missingOption option => "the following required argument was not provided: --" ++ option
  | .unknownCommand name => "unrecognized command '" ++ name ++ "'"
  | .unsupported command => "the command '" ++ command ++ "' is not supported"

/-! ### Options, operands and commands -/

structure OptionKind where
  name : String
  letter : Option Char := none
  takesValue : Bool := false
  deriving DecidableEq, Repr

inductive Part
  | option (name : String) (value : Option String)
  | operand (text : String)
  /-- A command, and all arguments that follow it. -/
  | command (name : String) (rest : List String)
  deriving DecidableEq, Repr

namespace Arguments

/-- Whether an argument is written like an option, so that it is no value for the option before
it. A single dash is a value. -/
def isOptionLike (arg : String) : Bool :=
  match arg.toList with
  | '-' :: _ :: _ => true
  | _ => false

/-- The options in a group of letters, and the name of the last one if its value is still to
come. -/
def scanLetters (kinds : List OptionKind) :
    List Char → Except UsageError (List Part × Option String)
  | [] => .ok ([], none)
  | c :: rest =>
    match kinds.find? (·.letter = some c) with
    | none => .error (.unknownOption (String.ofList ['-', c]))
    | some kind =>
      if kind.takesValue then
        match rest with
        | [] => .ok ([], some kind.name)
        | '=' :: value => .ok ([.option kind.name (some (String.ofList value))], none)
        | value => .ok ([.option kind.name (some (String.ofList value))], none)
      else do
        let (parts, open?) ← scanLetters kinds rest
        return (.option kind.name none :: parts, open?)

/-- The option that `--` and this text write, and its name if its value is still to come. -/
def scanLong (kinds : List OptionKind) (text : List Char) :
    Except UsageError (List Part × Option String) :=
  let name := String.ofList (text.takeWhile (· ≠ '='))
  match kinds.find? (·.name = name), text.dropWhile (· ≠ '=') with
  | none, _ => .error (.unknownOption ("--" ++ name))
  | some kind, [] =>
    -- without an equals sign the value is the next argument
    if kind.takesValue then .ok ([], some name) else .ok ([.option name none], none)
  | some kind, _ :: value =>
    if kind.takesValue then .ok ([.option name (some (String.ofList value))], none)
    else .error (.unexpectedValue name)

/-- The parts of a command line, given the name of an option whose value is the next argument. -/
def scanFrom (kinds : List OptionKind) (commands : List String) :
    Option String → List String → Except UsageError (List Part)
  | some name, [] => .error (.missingValue name)
  | none, [] => .ok []
  | some name, arg :: rest =>
    -- a value that looks like an option has to be written with an equals sign
    if isOptionLike arg then .error (.missingValue name)
    else do return .option name (some arg) :: (← scanFrom kinds commands none rest)
  | none, arg :: rest =>
    if arg ∈ commands then .ok [.command arg rest]
    else
      match arg.toList with
      -- nothing after this is an option or a command
      | ['-', '-'] => .ok (rest.map .operand)
      | '-' :: '-' :: text => do
        let (parts, open?) ← scanLong kinds text
        return parts ++ (← scanFrom kinds commands open? rest)
      | '-' :: c :: letters => do
        let (parts, open?) ← scanLetters kinds (c :: letters)
        return parts ++ (← scanFrom kinds commands open? rest)
      | _ => do return .operand arg :: (← scanFrom kinds commands none rest)

def scan (kinds : List OptionKind) (commands args : List String) :
    Except UsageError (List Part) :=
  scanFrom kinds commands none args

end Arguments

/-! ### What the options say -/

/-- The options that the whole and every command share. -/
structure Settings where
  debug : Bool := false
  /-- Whether solutions are replayed on a fresh copy of the puzzle. -/
  verify : Bool := true
  /-- Whether statistics are printed. -/
  stats : Bool := true
  printSolution : Bool := false
  branching : Branching := .standard
  budget : Option Nat := none
  deriving DecidableEq, Repr

def sharedKinds : List OptionKind :=
  [{ name := "debug", letter := some 'd' }, { name := "verify", takesValue := true },
    { name := "stats", takesValue := true }, { name := "print-solution", letter := some 'p' },
    { name := "selection", takesValue := true }, { name := "max-nodes", takesValue := true },
    { name := "help", letter := some 'h' }]

/-- The option that names the file or directory of a command. -/
def pathKind : OptionKind := { name := "path", takesValue := true }

def sudokuKinds : List OptionKind :=
  [pathKind, { name := "count", letter := some 'n', takesValue := true },
    { name := "seed", takesValue := true }] ++ sharedKinds

/-- Options with their values, in the order in which they were given. -/
abbrev Given := List (String × Option String)

namespace Given

/-- The options among some parts, if none is repeated. -/
def ofParts (parts : List Part) : Except UsageError Given :=
  parts.foldlM (fun given part =>
    match part with
    | .option name value =>
      if given.any (·.1 = name) then .error (.repeated name) else .ok (given ++ [(name, value)])
    | _ => .ok given) []

def has (given : Given) (name : String) : Bool := given.any (·.1 = name)

/-- What an option's value stands for, if the option was given. -/
def value? {α : Type} (given : Given) (name : String) (read : String → Option α) :
    Except UsageError (Option α) :=
  match given.find? (·.1 = name) with
  | none => .ok none
  | some (_, value) =>
    let text := value.getD ""
    match read text with
    | some a => .ok (some a)
    | none => .error (.invalidValue name text)

def readBool : String → Option Bool
  | "true" => some true
  | "false" => some false
  | _ => none

/-- A number of 64 bits. -/
def readNumber (text : String) : Option Nat := Text.number? text.toList

def readPath (text : String) : Option String := if text = "" then none else some text

def settings (given : Given) : Except UsageError Settings := do
  return {
    debug := given.has "debug"
    verify := (← given.value? "verify" readBool).getD true
    stats := (← given.value? "stats" readBool).getD true
    printSolution := given.has "print-solution"
    branching := (← given.value? "selection" Branching.ofName?).getD .standard
    budget := ← given.value? "max-nodes" readNumber }

def path (given : Given) : Except UsageError String := do
  match ← given.value? "path" readPath with
  | some path => return path
  | none => throw (.missingOption "path")

end Given

/-! ### What a command line asks for -/

inductive Target
  /-- Whatever is at a path. -/
  | anything (path : String)
  /-- The Sudokus in a file, or so many of them drawn with a seed. -/
  | sudokus (path : String) (count seed : Option Nat)
  | family (path : String)
  | directory (path : String)
  deriving DecidableEq, Repr

inductive Invocation
  | help
  | solve (target : Target) (settings : Settings)
  deriving DecidableEq, Repr

namespace Invocation

def commands : List String := ["sudoku", "cover", "dir", "completions", "help"]

/-- What `help` asks for, given the arguments after it: one command at most, since no command has
commands of its own. -/
def ofHelp : List String → Except UsageError Invocation
  | [] => .ok .help
  | name :: rest =>
    if name ∈ commands then
      match rest with
      | [] => .ok .help
      | extra :: _ => .error (.unknownCommand extra)
    else .error (.unknownCommand name)

/-- What a command asks for, given the arguments after it. A command takes no operands. -/
def ofCommand (name : String) (args : List String) : Except UsageError Invocation := do
  if name = "completions" then throw (.unsupported name)
  if name = "help" then return ← ofHelp args
  let kinds := if name = "sudoku" then sudokuKinds else pathKind :: sharedKinds
  let parts ← Arguments.scan kinds [] args
  let given ← Given.ofParts parts
  -- with `--help` nothing else has to be there
  if given.has "help" then return .help
  match parts.findSome? (fun | .operand text => some text | _ => none) with
  | some text => throw (.unexpectedOperand text)
  | none =>
    let path ← given.path
    let settings ← given.settings
    match name with
    | "sudoku" =>
      let count ← given.value? "count" Given.readNumber
      let seed ← given.value? "seed" Given.readNumber
      return .solve (.sudokus path count seed) settings
    | "cover" => return .solve (.family path) settings
    | _ => return .solve (.directory path) settings

/-- What a whole command line asks for. The operand before a command is checked, but the command
decides. -/
def ofArguments (args : List String) : Except UsageError Invocation := do
  let parts ← Arguments.scan sharedKinds commands args
  let given ← Given.ofParts parts
  if given.has "help" then return .help
  let settings ← given.settings
  let operands ← (parts.filterMap fun | .operand text => some text | _ => none).mapM fun text =>
    match Given.readPath text with
    | some path => .ok path
    | none => throw (.invalidValue "path" text)
  match operands with
  | _ :: text :: _ => throw (.unexpectedOperand text)
  | _ =>
    match parts.findSome? (fun | .command name rest => some (name, rest) | _ => none), operands with
    | some (name, rest), _ => ofCommand name rest
    | none, path :: _ => return .solve (.anything path) settings
    | none, [] => return .help

end Invocation

end ExactCover.Command
