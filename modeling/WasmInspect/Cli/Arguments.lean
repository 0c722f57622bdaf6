/-!
# Arguments

The tool has three commands: `dump` logs the sections of modules, `disasm` prints them as S-expressions, and `check` compares
their exported functions with an engine's view. The arguments are read from left to right. A word before the command must name
it; a word after it is a file. A flag may stand anywhere, those of a command only behind it, and the last setting of a flag
counts. Two dashes alone end the flags: all that follows them is a file. `Line.ofArgs` reads the arguments, or says which of them
is wrong.
-/

namespace WasmInspect.Cli

/-- The commands. -/
inductive Command where
  | dump
  | disasm
  | check
  deriving DecidableEq

/-- The word for a command. -/
def Command.name : Command → String
  | dump => "dump"
  | disasm => "disasm"
  | check => "check"

/-- The command of a word. -/
def Command.ofName? (word : String) : Option Command := [dump, disasm, check].find? fun c => c.name = word

/-- A text with a context and a colon in front of it; an empty context leaves the text as it is. -/
def inContext (context text : String) : String := if context = "" then text else context ++ ": " ++ text

/-- What the arguments say. -/
structure Settings where
  /-- Where log records go: entries with commas between them. -/
  log : String := "stderr?dm"
  /-- The topics of trace events to log. -/
  topics : String := ""
  /-- The address of a debug server, if not empty. -/
  debug : String := ""
  /-- Whether to print the indexed model. -/
  indexed : Bool := false
  /-- When to highlight. -/
  color : String := "auto"
  files : List String := []

/-- The flags; those of `disasm` alone are the last two. -/
inductive Flag where
  | log
  | topics
  | debug
  | indexed
  | color
  deriving DecidableEq

/-- The flag that a command, or none yet, takes under a name. -/
def Flag.ofName? (command : Option Command) (name : String) : Option Flag :=
  match name with
  | "log" => some log
  | "verbosity" => some topics
  | "v" => some topics
  | "debug" => some debug
  | "indexed" => if command = some .disasm then some indexed else none
  | "color" => if command = some .disasm then some color else none
  | _ => none

/-- Whether a flag may stand without a value. -/
def Flag.isSwitch : Flag → Bool
  | indexed => true
  | _ => false

/-- The truth value that a word stands for, in letters of either case; a switch that is set to nothing is on. -/
def truth? (word : String) : Option Bool :=
  if ["", "true", "t", "yes", "y", "1"].contains word.toLower then some true
  else if ["false", "f", "no", "n", "0"].contains word.toLower then some false
  else none

/-- The settings with a flag set to a value, if the flag can take it. -/
def Flag.set? (s : Settings) (value : String) : Flag → Option Settings
  | log => some { s with log := value }
  | topics => some { s with topics := value }
  | debug => some { s with debug := value }
  | indexed => (truth? value).map fun b => { s with indexed := b }
  | color => some { s with color := value }

/-- The two dashes that end the flags. -/
def endOfFlags : String := "--"

/-- Whether an argument is a flag: it starts with a dash, but a single dash is a word, and two dashes end the flags. -/
def isFlag (arg : String) : Bool := arg.startsWith "-" && arg ≠ "-" && arg ≠ endOfFlags

/-- What stands behind the one or two dashes of a flag. -/
def afterDashes (arg : String) : List Char :=
  match arg.toList with
  | '-' :: '-' :: body => body
  | '-' :: body => body
  | body => body

/-- The name of a flag and its value, if that stands in the same argument: behind the first equals sign or blank. -/
def splitFlag (arg : String) : String × Option String :=
  let body := afterDashes arg
  let name := body.takeWhile fun c => c ≠ '=' && c ≠ ' '
  match body.drop name.length with
  | [] => (String.ofList name, none)
  | _ :: value => (String.ofList name, some (String.ofList value))

/-- What can be wrong with an argument. -/
inductive ArgumentProblem where
  /-- There is no flag of that name. -/
  | noSuchFlag
  /-- The flag needs a value, and no argument follows. -/
  | valueRequired
  /-- The value of a switch is neither true nor false. -/
  | notTruthValue
  /-- A word where a command should be. -/
  | noSuchCommand
  deriving DecidableEq

/-- A wrong argument, and the command it stands behind, if any. -/
structure ArgumentError where
  command : Option Command
  argument : String
  problem : ArgumentProblem
  deriving DecidableEq

/-- The text of an error under the command it arose in. -/
def Command.blame (command : Option Command) (text : String) : String :=
  match command with
  | some c => inContext c.name text
  | none => text

/-- The text of an error in the arguments. -/
def ArgumentError.message (e : ArgumentError) : String :=
  Command.blame e.command <|
    match e.problem with
    | .noSuchFlag => "parse flag: " ++ e.argument ++ ": no such flag"
    | .valueRequired => "parse flag: " ++ e.argument ++ ": flag value is required"
    | .notTruthValue => "parse flag: " ++ e.argument ++ ": not a bool value"
    | .noSuchCommand => "no args expected, got " ++ e.argument

/-- A command line: the command, if one was named, and the settings. -/
structure Line where
  command : Option Command
  settings : Settings

namespace Line

/-- Reads arguments, with what those before them said. -/
def parse (command : Option Command) (s : Settings) : List String → Except ArgumentError Line
  | [] => .ok ⟨command, s⟩
  | arg :: args =>
    if isFlag arg then
      match Flag.ofName? command (splitFlag arg).1 with
      | none => .error ⟨command, arg, .noSuchFlag⟩
      | some f =>
        let set (value : String) : Except ArgumentError Settings :=
          match f.set? s value with
          | some s => .ok s
          | none => .error ⟨command, arg, .notTruthValue⟩
        match (splitFlag arg).2, f.isSwitch, args with
        | some v, _, args => do parse command (← set v) args
        | none, true, args => do parse command (← set "") args
        | none, false, v :: args => do parse command (← set v) args
        | none, false, [] => .error ⟨command, arg, .valueRequired⟩
    else
      match command with
      | some c =>
        if arg = endOfFlags then .ok ⟨some c, { s with files := s.files ++ args }⟩
        else parse (some c) { s with files := s.files ++ [arg] } args
      | none =>
        match Command.ofName? arg with
        | some c => parse (some c) s args
        | none => .error ⟨none, arg, .noSuchCommand⟩

/-- Reads the arguments. -/
def ofArgs (args : List String) : Except ArgumentError Line := parse none {} args

end Line

end WasmInspect.Cli
