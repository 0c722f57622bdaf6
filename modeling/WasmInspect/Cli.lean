import WasmInspect.Agreement
import WasmInspect.Cli.Arguments
import WasmInspect.Cli.Listen
import WasmInspect.Cli.Log
import WasmInspect.SExpr

/-!
# The command line

`run` is the whole tool as a function of its arguments and of the files around it. The arguments are read first, then the logs and
the debug server are set up, and then the files are handled in order; the first failure ends the run, and what was printed and
logged before it stays. A file that is one of the logs is read as it stands by then.
-/

namespace WasmInspect.Cli

/-- What handling files leaves behind: the text printed, the records logged, and the text of the error that ended it. -/
structure Progress where
  printed : String := ""
  records : List Record := []
  error : Option String := none

/-- The records of trace events on the topics. -/
def traced (s : Settings) (events : List Event) : List Record := ((Topics.ofText s.topics).select events).map Event.record

/-- The text of a failure. -/
def failureText : Failure → String
  | .error e => e.message
  | .fault _ => "fault"

/-- Logs a module that was read. -/
def dumpModule (file : String) (m : Module) : Progress := { records := m.records file }

/-- Prints a module that was read. -/
def disasmModule (s : Settings) (m : Module) : Progress :=
  match if s.indexed then Model.indexed m else Model.positional m with
  | .ok model => { printed := SExpr.text model }
  | .error f => { error := some (failureText (.fault f)) }

/-- The record of a mismatch in a file. -/
def mismatchRecord (file : String) (m : Agreement.Mismatch) : Record :=
  ⟨"mismatch",
    [("file", .text file), ("export", .text m.name), ("what", .text m.what), ("ours", .text m.ours), ("wazero", .text m.theirs)]⟩

/-- The records of a comparison: the numbers, if that topic is wanted, and each mismatch, or that there is none. -/
def reportRecords (s : Settings) (file : String) (r : Agreement.Report) : List Record :=
  (if (Topics.ofText s.topics).shows "crosscheck" then
    [⟨"crosscheck",
      [("exports", .nat r.exports), ("wazero_funcs", .nat r.theirs), ("mismatches", .nat r.mismatches.length)]⟩]
   else []) ++
  (if r.mismatches.isEmpty then [⟨"ok", [("file", .text file)]⟩] else r.mismatches.map (mismatchRecord file))

/-- Compares a module that was read with the engine's view. -/
def checkModule (s : Settings) (file : String) (m : Module) : Progress :=
  match Agreement.report m with
  | .ok r =>
    { records := reportRecords s file r
      error := if r.mismatches.isEmpty then none else some (Text.decimal r.mismatches.length ++ " mismatches") }
  | .error (.unreadable f) => { error := some (failureText f) }
  | .error .refused => { error := some "wazero: compile: module refused" }

/-- Carries out a command on a module that was read from a file. -/
def Command.handle (c : Command) (s : Settings) (file : String) (m : Module) : Progress :=
  match c with
  | dump => dumpModule file m
  | disasm => disasmModule s m
  | check => checkModule s file m

/-- A command that is set up: with its settings, the files around it and its open logs. -/
structure Session where
  command : Command
  settings : Settings
  disk : Disk
  sinks : List Sink

/-- The bytes of records in a log. -/
def logBytes (records : List Record) : Bytes := (String.join (records.map fun r => r.line ++ "\n")).toUTF8.toList

namespace Session

/-- The contents of the file of a name, after some records were logged. A log has them behind what it had before. -/
def read (x : Session) (logged : List Record) (name : String) : Except OpenError Bytes := do
  let path ← x.disk.locate name
  let stored := x.disk.read path
  if x.sinks.contains (.file path) then
    return (stored.toOption.getD []) ++ logBytes (Sink.received x.sinks logged (.file path))
  else stored

/-- The text of what is wrong with a file that cannot be read; a folder can be opened and then not be read. -/
def readProblem (name : String) : OpenError → String
  | .isFolder => "read file: mmap: no such device"
  | e => "read file: open " ++ name ++ ": " ++ e.message

/-- Carries out the command on a file, after some records were logged. -/
def handleFile (x : Session) (logged : List Record) (file : String) : Progress :=
  match x.read logged file with
  | .error e => { error := some (inContext file (readProblem file e)) }
  | .ok b =>
    let d := decode b
    let trace := traced x.settings d.events
    match d.result with
    | .error f => { records := trace, error := some (inContext file (failureText (f.within (.part "decode")))) }
    | .ok m =>
      let p := x.command.handle x.settings file m
      { p with records := trace ++ p.records, error := p.error.map (inContext file) }

/-- Carries out the command on files in order, up to the first that fails. -/
def handleFiles (x : Session) (logged : List Record) : List String → Progress
  | [] => {}
  | file :: more =>
    let p := x.handleFile logged file
    match p.error with
    | some _ => p
    | none =>
      let q := x.handleFiles (logged ++ p.records) more
      { q with printed := p.printed ++ q.printed, records := p.records ++ q.records }

/-- Sets up a command: opens the logs, and then looks at the debug address. -/
def start (c : Command) (s : Settings) (disk : Disk) : Except String Session := do
  let sinks ← (Sink.ofEntries disk s.log).mapError fun e => "open log file: " ++ e
  if s.debug ≠ "" then
    (Listen.check s.debug).mapError fun e => "listen debug: listen tcp: " ++ e.message s.debug
  return ⟨c, s, disk, sinks⟩

end Session

/-- What a run of the tool comes to. -/
structure Result where
  exit : Nat
  stdout : String := ""
  stderr : String := ""
  /-- The open logs. -/
  sinks : List Sink := []
  /-- What was logged. -/
  records : List Record := []

namespace Result

/-- The result of a run that ends with an error. -/
def failed (text : String) : Result := { exit := 1, stderr := "error: " ++ text ++ "\n" }

/-- The records that a sink got. -/
def logged (r : Result) (sink : Sink) : List Record := Sink.received r.sinks r.records sink

end Result

/-- The result of a command on the files of its settings. -/
def Session.run (x : Session) : Result :=
  let p := x.handleFiles [] x.settings.files
  let ending : Result :=
    match p.error with
    | none => { exit := 0 }
    | some e => .failed (inContext x.command.name e)
  { ending with stdout := p.printed, sinks := x.sinks, records := p.records }

/-- Runs a command line among files. -/
def Line.run (line : Line) (disk : Disk) : Result :=
  match line.command with
  | none => { exit := 0 }
  | some c =>
    match Session.start c line.settings disk with
    | .error problem => .failed (inContext c.name ("before: wasmtool: " ++ problem))
    | .ok session => session.run

/-- Runs the tool. -/
def run (args : List String) (disk : Disk) : Result :=
  match Line.ofArgs args with
  | .error e => .failed e.message
  | .ok line => line.run disk

end WasmInspect.Cli
