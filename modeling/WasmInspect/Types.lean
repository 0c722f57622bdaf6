import WasmInspect.Text.Number

/-!
# Types, kinds and section ids

The one-byte codes of the binary format. Each is a type of its own over its byte, with constants for the bytes that have a
meaning. Not every byte is a legal code: the grammar decides which ones it accepts, and `name` has a text for the others as
well.
-/

namespace WasmInspect

/-- The type of a value, by its byte. -/
structure ValueType where
  byte : UInt8
  deriving DecidableEq

namespace ValueType

/-- Integers of 32 bits. -/
def i32 : ValueType := ⟨0x7f⟩

/-- Integers of 64 bits. -/
def i64 : ValueType := ⟨0x7e⟩

/-- Floating-point numbers of 32 bits. -/
def f32 : ValueType := ⟨0x7d⟩

/-- Floating-point numbers of 64 bits. -/
def f64 : ValueType := ⟨0x7c⟩

/-- The four value types. -/
def all : List ValueType := [i32, i64, f32, f64]

/-- The name of a value type; a byte without meaning is shown as such. -/
def name (t : ValueType) : String :=
  if t = i32 then "i32"
  else if t = i64 then "i64"
  else if t = f32 then "f32"
  else if t = f64 then "f64"
  else "valtype(0x" ++ Text.hex 2 t.byte.toNat ++ ")"

end ValueType

/-- The type of a block, of a table's elements, or the mark of a function type, by its byte. -/
structure BlockType where
  byte : UInt8
  deriving DecidableEq

namespace BlockType

/-- A table element: any function. -/
def anyFunc : BlockType := ⟨0x70⟩

/-- The mark that a function type starts with. -/
def func : BlockType := ⟨0x60⟩

/-- A block without a value. -/
def empty : BlockType := ⟨0x40⟩

/-- A block that leaves a value of the given type. -/
def ofValueType (t : ValueType) : BlockType := ⟨t.byte⟩

/-- The seven bytes that stand for a block type: the value types, and the three of its own. -/
def all : List BlockType := ValueType.all.map ofValueType ++ [anyFunc, func, empty]

/-- The name of a block type; a byte that is none of its own is named as a value type. -/
def name (t : BlockType) : String :=
  if t = anyFunc then "anyfunc"
  else if t = func then "func"
  else if t = empty then "empty"
  else ValueType.name ⟨t.byte⟩

end BlockType

/-- The kind of an import or export, by its byte. -/
structure ExternalKind where
  byte : UInt8
  deriving DecidableEq

namespace ExternalKind

/-- A function. -/
def function : ExternalKind := ⟨0⟩

/-- A table. -/
def table : ExternalKind := ⟨1⟩

/-- A memory. -/
def memory : ExternalKind := ⟨2⟩

/-- A global variable. -/
def global : ExternalKind := ⟨3⟩

/-- The name of a kind; a byte without meaning is shown as such. -/
def name (k : ExternalKind) : String :=
  if k = function then "Function"
  else if k = table then "Table"
  else if k = memory then "Memory"
  else if k = global then "Global"
  else "kind(" ++ Text.decimal k.byte.toNat ++ ")"

end ExternalKind

/-- The id of a section, by its byte. -/
structure SectionId where
  byte : UInt8
  deriving DecidableEq

namespace SectionId

/-- Function types. -/
def types : SectionId := ⟨1⟩

/-- Imports. -/
def imports : SectionId := ⟨2⟩

/-- The type index of each function that the module defines. -/
def functions : SectionId := ⟨3⟩

/-- Tables. -/
def tables : SectionId := ⟨4⟩

/-- Memories. -/
def memories : SectionId := ⟨5⟩

/-- Global variables. -/
def globals : SectionId := ⟨6⟩

/-- Exports. -/
def exports : SectionId := ⟨7⟩

/-- The start function. -/
def start : SectionId := ⟨8⟩

/-- Initial table elements. -/
def elements : SectionId := ⟨9⟩

/-- Function bodies. -/
def code : SectionId := ⟨10⟩

/-- Initial memory contents. -/
def data : SectionId := ⟨11⟩

/-- The names of the known sections, by id from 1 on. -/
def knownNames : List String :=
  ["type", "import", "function", "table", "memory", "global", "export", "start", "element", "code", "data"]

/-- Whether the id has a meaning of its own; the sections with any other id are custom sections. -/
def isKnown (id : SectionId) : Bool := 0 < id.byte.toNat && id.byte.toNat ≤ knownNames.length

/-- The name of a section id; a custom section is named with its number. -/
def name (id : SectionId) : String :=
  match id.byte.toNat with
  | 0 => "custom(0)"
  | n + 1 => knownNames.getD n ("custom(" ++ Text.decimal (n + 1) ++ ")")

end SectionId

end WasmInspect
