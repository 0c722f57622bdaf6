import WasmInspect.Cli

/-!
# The program

Opens the logs and reads the files that the arguments name, runs the tool on them, and writes out what it printed and logged.
-/

namespace WasmInspect.Program

open Cli

/-- Why the system did not open a file. -/
def openError : IO.Error → OpenError
  | .inappropriateType _ code _ => if code = 21 then .isFolder else .notFolder
  | .invalidArgument .. => .nameTooLong
  | .permissionDenied .. => .denied
  | _ => .missing

/-- The result of an action on a file, or why there is none. -/
def attempt {α : Type} (action : IO α) : IO (Except OpenError α) := do
  try
    pure (.ok (← action))
  catch e => pure (.error (openError e))

/-- The names of the files that a log list is written to. -/
def logNames (list : String) : List String :=
  (Sink.entries list).filterMap fun entry =>
    match Sink.ofEntry ⟨fun name => .ok [name], fun _ => .error .missing⟩ entry with
    | .ok (.file [name]) => some name
    | _ => none

/-- The files around the tool, as far as a command line names them. A log is opened for writing before the files are read. -/
def disk (s : Settings) : IO Disk := do
  let logs ← (logNames s.log).mapM fun (name : String) => do pure (name, ← attempt (IO.FS.Handle.mk name .append))
  let contents ← s.files.mapM fun (name : String) => do pure (name, ← attempt (IO.FS.readBinFile name))
  pure {
    locate := fun name =>
      match logs.lookup name with
      | some (.error e) => .error e
      | _ => .ok [name]
    read := fun path =>
      match path with
      | [name] => ((contents.lookup name).getD (.error .missing)).map ByteArray.toList
      | _ => .error .missing }

/-- Writes the records of a run to one of its logs. -/
def writeLog (result : Result) (sink : Sink) : IO Unit := do
  let text := String.join ((result.logged sink).map fun r => r.line ++ "\n")
  match sink with
  | .stderr => IO.eprint text
  | .stdout => IO.print text
  | .file path => do
    let handle ← IO.FS.Handle.mk ("/".intercalate path) .append
    handle.putStr text

end WasmInspect.Program

open WasmInspect Program in
/-- Runs the tool on the arguments. -/
def main (args : List String) : IO UInt32 := do
  let settings := match Cli.Line.ofArgs args with
    | .ok ⟨some _, settings⟩ => settings
    | _ => { log := "" }
  let result := Cli.run args (← disk settings)
  result.sinks.eraseDups.forM (writeLog result)
  IO.print result.stdout
  IO.eprint result.stderr
  pure (.ofNat result.exit)
