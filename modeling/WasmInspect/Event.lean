import WasmInspect.Bytes
import WasmInspect.Opcode

/-!
# Trace events

Reading a module leaves a trace: an event for every section whose size is known to fit, one for every instruction, and one for
every section whose payload takes another number of bytes than declared. An event belongs to a topic, and rules on topics
select the events to show.
-/

namespace WasmInspect

/-- What happens while a module is read. -/
inductive Event where
  /-- A section begins at a position, with the declared size of its payload. -/
  | sectionBegins (id : SectionId) (pos size : Nat)
  /-- The payload that starts at a position took another number of bytes than declared. -/
  | sizeMismatch (id : SectionId) (pos size consumed : Nat)
  /-- An instruction was read from these bytes at a position. -/
  | instruction (pos : Nat) (op : Opcode) (code : Bytes)
  deriving DecidableEq

/-- The topic of an event. -/
def Event.topic : Event → String
  | .sectionBegins .. => "section"
  | .sizeMismatch .. => "section"
  | .instruction .. => "opcode"

/-- A rule on topics: it shows or hides those of a list, in which a star stands for all topics. -/
structure TopicRule where
  shown : Bool
  topics : List String

namespace TopicRule

/-- Whether a rule is about a topic. -/
def covers (r : TopicRule) (topic : String) : Bool := r.topics.contains "*" || r.topics.contains topic

/-- The topics of a rule, with plus signs between them. A place and an equals sign may stand before them. The places where events
arise have no names, so a rule for one place is about no topic, and a star is every place. -/
def topicsOf (text : String) : List String :=
  match text.splitOn "=" with
  | [topics] => topics.splitOn "+"
  | ["*", topics] => topics.splitOn "+"
  | _ => []

/-- Reads a rule. An exclamation mark in front hides what the rule is about. -/
def ofText (text : String) : TopicRule :=
  match text.toList with
  | '!' :: rest => ⟨false, topicsOf (String.ofList rest)⟩
  | _ => ⟨true, topicsOf text⟩

end TopicRule

/-- The topics to show: whether those are that no rule is about, and rules, of which a later one overrides those before it. -/
structure Topics where
  others : Bool
  rules : List TopicRule

namespace Topics

/-- Reads rules with commas between them. If the first of them hides something, all else is shown. -/
def ofText (text : String) : Topics := ⟨text.toList.head? = some '!', (text.splitOn ",").map TopicRule.ofText⟩

/-- Whether a topic is shown: the last rule about it decides. -/
def shows (t : Topics) (topic : String) : Bool :=
  t.rules.foldl (fun shown r => if r.covers topic then r.shown else shown) t.others

/-- The events to show, in their order. -/
def select (t : Topics) (events : List Event) : List Event := events.filter fun e => t.shows e.topic

end Topics

end WasmInspect
