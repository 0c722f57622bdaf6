import WasmInspect.Event
import WasmInspect.Instruction.Text
import WasmInspect.Module

/-!
# Log records

A record is a message with named values. Here are the records of trace events and those that dump a module: one for the module,
and then for each section one record per entry.
-/

namespace WasmInspect

/-- A value in a record. -/
inductive Value where
  | text (s : String)
  | number (n : Int)
  | flag (b : Bool)
  | list (items : List Value)
  | object (fields : List (String × Value))

/-- A message with named values, in order. -/
structure Record where
  message : String
  fields : List (String × Value)

namespace Value

/-- A natural number. -/
def nat (n : Nat) : Value := number n

/-- A list of texts. -/
def texts (items : List String) : Value := list (items.map text)

/-- The bytes in hexadecimal, in one text. -/
def hex (b : Bytes) : Value := text (String.join (b.map fun x => Text.hex 2 x.toNat))

/-- The bytes in hexadecimal, each in a text of its own. -/
def words (b : Bytes) : Value := texts (b.map Text.word8)

/-- The names of value types. -/
def types (ts : List ValueType) : Value := texts (ts.map ValueType.name)

/-- The texts of instructions. -/
def code (c : Code) : Value := texts (c.map Instruction.text)

/-- Indices. -/
def indices (is : List UInt32) : Value := list (is.map fun i => nat i.toNat)

/-- The limits of a table or memory. -/
def limits (l : Limits) : Value :=
  object [("Flags", nat l.flags.toNat), ("Lo", number l.initial), ("Hi", number l.maximum)]

/-- What is imported. -/
def importType : ImportType → Value
  | .function t => object [("Type", nat t.toNat)]
  | .table t => object [("Elem", text t.element.name), ("Limits", limits t.limits)]
  | .memory t => object [("Limits", limits t.limits)]
  | .global t => object [("Type", text t.value.name), ("Mutable", flag t.isMutable)]

mutual

/-- A value on one line: a text as it is, lists and objects in brackets. -/
def line : Value → String
  | text s => s
  | number n => Text.signedDecimal n
  | flag b => if b then "true" else "false"
  | list items => "[" ++ " ".intercalate (lines items) ++ "]"
  | object fields => "(" ++ " ".intercalate (fieldLines fields) ++ ")"

/-- The values of a list, each on one line. -/
def lines : List Value → List String
  | [] => []
  | v :: vs => line v :: lines vs

/-- Named values, each on one line. -/
def fieldLines : List (String × Value) → List String
  | [] => []
  | (k, v) :: fs => (k ++ "=" ++ line v) :: fieldLines fs

end

end Value

/-- A record on one line: the message, then the named values. -/
def Record.line (r : Record) : String := " ".intercalate (r.message :: Value.fieldLines r.fields)

/-- The record of a trace event. -/
def Event.record : Event → Record
  | .sectionBegins id pos size => ⟨"section", [("id", .text id.name), ("pos", .nat pos), ("size", .nat size)]⟩
  | .sizeMismatch id pos size consumed =>
    ⟨"section size mismatch", [("id", .text id.name), ("pos", .nat pos), ("size", .nat size), ("consumed", .nat consumed)]⟩
  | .instruction pos op code => ⟨"opcode", [("i", .nat pos), ("op", .text op.name), ("code", .hex code)]⟩

/-- One record per entry, each with its number. -/
def Record.numbered {α : Type} (message : String) (entries : List α) (fields : α → List (String × Value)) : List Record :=
  entries.mapIdx fun i x => ⟨message, ("i", .nat i) :: fields x⟩

/-- The records of a section's entries. -/
def Payload.records (id : SectionId) : Payload → List Record
  | .types entries => Record.numbered "type" entries fun t => [("params", .types t.params), ("result", .types t.results)]
  | .imports entries =>
    Record.numbered "import" entries fun i =>
      [("mod", .text i.moduleName), ("name", .text i.field), ("kind", .text i.kind.name), ("desc", .importType i.type)]
  | .functions indices => Record.numbered "function" indices fun t => [("tp", .nat t.toNat)]
  | .tables entries =>
    Record.numbered "table" entries fun t => [("tp", .text t.element.name), ("limits", .limits t.limits)]
  | .memories entries => Record.numbered "memory" entries fun t => [("limits", .limits t.limits)]
  | .globals entries =>
    Record.numbered "global" entries fun g =>
      [("tp", .text g.type.value.name), ("mut", .flag g.type.isMutable), ("init", .code g.init)]
  | .exports entries =>
    Record.numbered "export" entries fun e =>
      [("name", .text e.field), ("kind", .text e.kind.name), ("index", .nat e.index.toNat)]
  | .start f => [⟨"start", [("func", .nat f.toNat)]⟩]
  | .elements entries =>
    Record.numbered "element" entries fun e =>
      [("table", .nat e.table.toNat), ("offset", .code e.offset), ("funcs", .indices e.functions)]
  | .code bodies =>
    Record.numbered "code" bodies fun f =>
      [("size", .nat f.size),
       ("locals", .list (f.locals.map fun l => .object [("Count", .nat l.count.toNat), ("Type", .text l.type.name)])),
       ("code", .code f.code)]
  | .data entries =>
    Record.numbered "data" entries fun d =>
      [("memory", .nat d.memory.toNat), ("offset", .code d.offset), ("init", .words d.bytes)]
  | .custom name b => [⟨"custom", [("id", .text id.name), ("name", .text name), ("data", .words b)]⟩]

/-- The records of a section: that its size is wrong, if it is, and its entries. -/
def Section.records (s : Section) : List Record :=
  (if s.consumed = s.size then []
   else [⟨"section size mismatch", [("id", .text s.id.name), ("size", .nat s.size), ("consumed", .nat s.consumed)]⟩]) ++
  s.payload.records s.id

/-- The records of a module read from a file. -/
def Module.records (file : String) (m : Module) : List Record :=
  ⟨"module",
    [("file", .text file), ("magic", .text (Text.word32 m.magic)), ("version", .nat m.version.toNat),
     ("sections", .list (m.ids.map fun id => .nat id.byte.toNat))]⟩ ::
  m.sections.flatMap Section.records

end WasmInspect
