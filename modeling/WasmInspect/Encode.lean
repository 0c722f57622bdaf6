import WasmInspect.Leb128.Encode
import WasmInspect.Module

/-!
# Writing modules

The binary form of every part of a module, with the shortest form of each number and with sizes computed from what they are
about. The sizes that a section and a body hold in themselves are not used: they tell what was read, not what is written.
-/

namespace WasmInspect.Encode

/-- The `n` bytes of a number, the lowest first. -/
def littleEndian : (n v : Nat) → Bytes
  | 0, _ => []
  | n + 1, v => .ofNat (v % 256) :: littleEndian n (v / 256)

/-- A number in as few bytes as it takes. -/
def number (n : Nat) : Bytes := Leb128.encodeUnsigned n

/-- An index or count. -/
def index (n : UInt32) : Bytes := number n.toNat

/-- A list: the number of entries, and these. -/
def list {α : Type} (entry : α → Bytes) (xs : List α) : Bytes := number xs.length ++ xs.flatMap entry

/-- Bytes after their number. -/
def sized (b : Bytes) : Bytes := number b.length ++ b

/-- A name: one byte for each character. -/
def name (s : String) : Bytes := sized (s.toList.map fun c => .ofNat c.toNat)

/-- The type of a value. -/
def valueType (t : ValueType) : Bytes := [t.byte]

/-- Limits: a flag, the initial size, and the maximum if there is one. -/
def limits (l : Limits) : Bytes :=
  if l.maximum < 0 then 0 :: number l.initial.toNat
  else 1 :: (number l.initial.toNat ++ number l.maximum.toNat)

/-- The type of a function. -/
def funcType (t : FuncType) : Bytes := BlockType.func.byte :: (list valueType t.params ++ list valueType t.results)

/-- The type of a table. -/
def tableType (t : TableType) : Bytes := t.element.byte :: limits t.limits

/-- The type of a memory. -/
def memoryType (t : MemoryType) : Bytes := limits t.limits

/-- The type of a global variable. -/
def globalType (t : GlobalType) : Bytes := [t.value.byte, if t.isMutable then 1 else 0]

/-- The operand of an instruction. -/
def operand : Operand → Bytes
  | .block t => [t.byte]
  | .index n => index n
  | .branchTable targets default => list index targets ++ index default
  | .indirectCall t reserved => index t ++ number reserved.toNat
  | .memory flags offset => index flags ++ index offset
  | .reserved v => number v.toNat
  | .i32 v => Leb128.encodeSigned v.toInt
  | .i64 v => Leb128.encodeSigned v.toInt
  | .f32 bits => littleEndian 4 bits.toNat
  | .f64 bits => littleEndian 8 bits.toNat

/-- An instruction: its opcode and its operand. -/
def instruction (x : Instruction) : Bytes :=
  x.op.byte :: match x.operand with
    | some o => operand o
    | none => []

/-- Instructions one after the other. -/
def code (c : Code) : Bytes := c.flatMap instruction

/-- What is imported. -/
def importType : ImportType → Bytes
  | .function t => index t
  | .table t => tableType t
  | .memory t => memoryType t
  | .global t => globalType t

/-- An import. -/
def importEntry (i : Import) : Bytes := name i.moduleName ++ name i.field ++ i.kind.byte :: importType i.type

/-- An export. -/
def exportEntry (e : Export) : Bytes := name e.field ++ e.kind.byte :: index e.index

/-- A global variable. -/
def globalEntry (g : Global) : Bytes := globalType g.type ++ code g.init

/-- Functions for a table. -/
def element (e : Element) : Bytes := index e.table ++ code e.offset ++ list index e.functions

/-- Bytes for a memory. -/
def dataSegment (d : Data) : Bytes := index d.memory ++ code d.offset ++ sized d.bytes

/-- A group of local variables. -/
def localGroup (l : LocalGroup) : Bytes := index l.count ++ valueType l.type

/-- What the size of a body counts: its local variables, its code, and the `end` that closes it. -/
def bodyContent (f : FuncBody) : Bytes := list localGroup f.locals ++ code f.code ++ [Opcode.blockEnd.byte]

/-- The body of a function: its size and its content. -/
def funcBody (f : FuncBody) : Bytes := sized (bodyContent f)

/-- What a section holds. -/
def payload : Payload → Bytes
  | .types entries => list funcType entries
  | .imports entries => list importEntry entries
  | .functions types => list index types
  | .tables entries => list tableType entries
  | .memories entries => list memoryType entries
  | .globals entries => list globalEntry entries
  | .exports entries => list exportEntry entries
  | .start f => index f
  | .elements entries => list element entries
  | .code bodies => list funcBody bodies
  | .data entries => list dataSegment entries
  | .custom n b => name n ++ b

/-- A section with an id and a payload. -/
def sectionOf (id : SectionId) (p : Bytes) : Bytes := id.byte :: sized p

/-- The two words that a module starts with. -/
def header (magic version : UInt32) : Bytes := littleEndian 4 magic.toNat ++ littleEndian 4 version.toNat

/-- A module. -/
def module (m : Module) : Bytes :=
  header m.magic m.version ++ m.sections.flatMap fun s => sectionOf s.id (payload s.payload)

end WasmInspect.Encode
