import WasmInspect.Grammar.Section

/-!
# The productions of the binary format

Every kind of value that can be read on its own, as one family: `Production.Value` is the type of the values and
`Production.read` the reader. A law of all readers is a law of this family.
-/

namespace WasmInspect

/-- The kinds of values that can be read from a binary on their own. -/
inductive Production where
  | byte | uint8 | uint16 | uint32 | uint64
  | varuint1 | varuint7 | varuint32 | varuint64
  | varint7 | varint16 | varint32 | varint64
  | count | name | nameText
  | valueType | blockType | elementType | externalKind | limits
  | instruction | expression | initializer
  | funcType | tableType | memoryType | globalType
  | importEntry | exportEntry | globalEntry | element | dataSegment | localGroup | funcBody
  | wholeSection
  | custom | types | imports | functions | tables | memories | globals | exports | start | elements | code | data
  deriving DecidableEq

namespace Production

/-- The type of the values of a production. -/
abbrev Value : Production → Type
  | byte => UInt8
  | uint8 => UInt8
  | uint16 => UInt16
  | uint32 => UInt32
  | uint64 => UInt64
  | varuint1 => UInt8
  | varuint7 => UInt8
  | varuint32 => UInt32
  | varuint64 => UInt64
  | varint7 => Int8
  | varint16 => Int16
  | varint32 => Int32
  | varint64 => Int64
  | count => Nat
  | name => Bytes
  | nameText => String
  | valueType => ValueType
  | blockType => BlockType
  | elementType => BlockType
  | externalKind => ExternalKind
  | limits => Limits
  | instruction => Instruction
  | expression => Code
  | initializer => Code
  | funcType => FuncType
  | tableType => TableType
  | memoryType => MemoryType
  | globalType => GlobalType
  | importEntry => Import
  | exportEntry => Export
  | globalEntry => Global
  | element => Element
  | dataSegment => Data
  | localGroup => LocalGroup
  | funcBody => FuncBody
  | wholeSection => Section
  | custom => String × Bytes
  | types => List FuncType
  | imports => List Import
  | functions => List UInt32
  | tables => List TableType
  | memories => List MemoryType
  | globals => List Global
  | exports => List Export
  | start => UInt32
  | elements => List Element
  | code => List FuncBody
  | data => List Data

/-- The reader of a production. The initial value of a variable and an offset are expressions. -/
def read : (p : Production) → Reader p.Value
  | byte => Grammar.byte
  | uint8 => Grammar.uint8
  | uint16 => Grammar.uint16
  | uint32 => Grammar.uint32
  | uint64 => Grammar.uint64
  | varuint1 => Grammar.varuint1
  | varuint7 => Grammar.varuint7
  | varuint32 => Grammar.varuint32
  | varuint64 => Grammar.varuint64
  | varint7 => Grammar.varint7
  | varint16 => Grammar.varint16
  | varint32 => Grammar.varint32
  | varint64 => Grammar.varint64
  | count => Grammar.count
  | name => Grammar.name
  | nameText => Grammar.nameText
  | valueType => Grammar.valueType
  | blockType => Grammar.blockType
  | elementType => Grammar.elementType
  | externalKind => Grammar.externalKind
  | limits => Grammar.limits
  | instruction => Grammar.instruction
  | expression => Grammar.expression
  | initializer => Grammar.expression
  | funcType => Grammar.funcType
  | tableType => Grammar.tableType
  | memoryType => Grammar.memoryType
  | globalType => Grammar.globalType
  | importEntry => Grammar.importEntry
  | exportEntry => Grammar.exportEntry
  | globalEntry => Grammar.globalEntry
  | element => Grammar.element
  | dataSegment => Grammar.dataSegment
  | localGroup => Grammar.localGroup
  | funcBody => Grammar.funcBody
  | wholeSection => Grammar.anySection
  | custom => Grammar.custom
  | types => Grammar.types
  | imports => Grammar.imports
  | functions => Grammar.functions
  | tables => Grammar.tables
  | memories => Grammar.memories
  | globals => Grammar.globals
  | exports => Grammar.exports
  | start => Grammar.start
  | elements => Grammar.elements
  | code => Grammar.code
  | data => Grammar.data

end Production

end WasmInspect
