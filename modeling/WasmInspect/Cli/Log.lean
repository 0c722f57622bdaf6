import WasmInspect.Cli.Folder
import WasmInspect.Cli.Url
import WasmInspect.Record

/-!
# Logs

Log records go to sinks: the standard streams or files. A list of entries names them. The ending of an entry's name says in which
format the log is written. `Sink.ofEntries` opens the sinks of all entries, in order, up to the first that cannot be opened.
-/

namespace WasmInspect.Cli

/-- Where log records go. -/
inductive Sink where
  | stderr
  | stdout
  | file (path : Path)
  deriving DecidableEq

/-- Why a log cannot be opened. -/
inductive LogProblem where
  /-- The entry is no address. -/
  | badAddress (e : UrlError)
  /-- There is no format of that ending. -/
  | format (ending : String)
  /-- Logs cannot be sent under that scheme. -/
  | scheme (name : String)
  /-- The file of that name cannot be opened. -/
  | file (name : String) (e : OpenError)
  deriving DecidableEq

/-- The text of a problem with an entry. -/
def LogProblem.message (entry : String) : LogProblem → String
  | badAddress e => "parse " ++ entry ++ ": parse \"" ++ entry ++ "\": " ++ e.message
  | format ending => entry ++ ": unsupported format: " ++ ending
  | scheme name => entry ++ ": unsupported scheme: " ++ name
  | file name e => entry ++ ": open " ++ name ++ ": " ++ e.message

namespace Sink

/-- The endings of the formats, without their points. -/
def formats : List String :=
  ["tl", "tlog", "tlz", "tldump", "tlogdump", "ezdump", "eazydump", "log", "json", "logfmt", "html"]

/-- The endings that say that the log is compressed; the format stands before them. -/
def compressed : List String := ["ez", "eazy"]

/-- The ending of a name that is no format's, if there is one. The parts of the name are given from the last to the first; a name
without an ending is fine. -/
def strangeEnding? : List String → Option String
  | [] => none
  | [_] => none
  | ending :: more =>
    if compressed.contains ending then strangeEnding? more
    else if formats.contains ending then none
    else some ("." ++ ending)

/-- The parts of the last step of a name, between its points. -/
def nameParts (name : String) : List String := ((name.splitOn "/").getLastD "").splitOn "."

/-- The sink of a path: a standard stream under its name, and otherwise a file. -/
def ofPath (d : Disk) (name : String) : Except LogProblem Sink :=
  match (name.splitOn ".").head? with
  | some "stderr" => .ok stderr
  | some "stdout" => .ok stdout
  | _ => ((d.create name).map Sink.file).mapError (LogProblem.file name)

/-- The sink of an entry. -/
def ofEntry (d : Disk) (entry : String) : Except LogProblem Sink :=
  match Url.ofText entry with
  | .error e => .error (.badAddress e)
  | .ok url =>
    match strangeEnding? (nameParts url.path).reverse with
    | some ending => .error (.format ending)
    | none =>
      if url.scheme = "" then ofPath d url.path
      else if url.scheme = "file" then ofPath d (url.host ++ url.path)
      else .error (.scheme url.scheme)

/-- The entries of a list with commas between them; empty ones do not count. -/
def entries (list : String) : List String := (list.splitOn ",").filter (· ≠ "")

/-- The sinks of entries, or the text of what is wrong with the first that has none. -/
def ofEntries (d : Disk) (list : String) : Except String (List Sink) :=
  (entries list).mapM fun entry => (ofEntry d entry).mapError (LogProblem.message entry)

/-- What a sink gets of records that go to some sinks: each record as often as the sink is among them. -/
def received (sinks : List Sink) (records : List Record) (sink : Sink) : List Record :=
  records.flatMap fun r => (sinks.filter (· = sink)).map fun _ => r

end Sink

end WasmInspect.Cli
