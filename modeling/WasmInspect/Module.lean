import WasmInspect.Bytes
import WasmInspect.Instruction

/-!
# Modules

A module is a version and a list of sections, each with an id, the size that its header declares, the number of bytes that its
payload really took, and the payload. The payloads are those of version 1 of the binary format.
-/

namespace WasmInspect

/-- The types of the parameters and of the results of a function. -/
structure FuncType where
  params : List ValueType
  results : List ValueType
  deriving DecidableEq

/-- The bounds of a table or memory: the flags that their binary form starts with, the initial size, and the largest size. -/
structure Limits where
  flags : UInt32
  initial : Int
  /-- The largest size, or -1 if there is none. -/
  maximum : Int
  deriving DecidableEq

/-- Whether there is a largest size. -/
def Limits.hasMaximum (l : Limits) : Bool := 0 ≤ l.maximum

/-- The type of a table: what its elements are and how many it may hold. -/
structure TableType where
  element : BlockType
  limits : Limits
  deriving DecidableEq

/-- The type of a memory: how many pages it may hold. -/
structure MemoryType where
  limits : Limits
  deriving DecidableEq

/-- The type of a global variable. -/
structure GlobalType where
  value : ValueType
  isMutable : Bool
  deriving DecidableEq

/-- What is imported. -/
inductive ImportType where
  /-- A function of the type with that index. -/
  | function (type : UInt32)
  /-- A table. -/
  | table (type : TableType)
  /-- A memory. -/
  | memory (type : MemoryType)
  /-- A global variable. -/
  | global (type : GlobalType)
  deriving DecidableEq

/-- The kind of what is imported. -/
def ImportType.kind : ImportType → ExternalKind
  | .function _ => .function
  | .table _ => .table
  | .memory _ => .memory
  | .global _ => .global

/-- An import: the names of the module and of its field, the kind that the binary gives, and what is expected there. -/
structure Import where
  moduleName : String
  field : String
  kind : ExternalKind
  type : ImportType
  deriving DecidableEq

/-- An export: a name for the item of the given kind and index. -/
structure Export where
  field : String
  kind : ExternalKind
  index : UInt32
  deriving DecidableEq

/-- A global variable and the expression for its first value, which ends with its only `end`. -/
structure Global where
  type : GlobalType
  init : Code
  deriving DecidableEq

/-- Functions to put into a table from an offset on. -/
structure Element where
  table : UInt32
  offset : Code
  functions : List UInt32
  deriving DecidableEq

/-- Bytes to put into a memory from an offset on. -/
structure Data where
  memory : UInt32
  offset : Code
  bytes : Bytes
  deriving DecidableEq

/-- A group of local variables of one type. -/
structure LocalGroup where
  count : UInt32
  type : ValueType
  deriving DecidableEq

/-- The body of a function: its declared size, its local variables, and its code without the `end` that closes it. -/
structure FuncBody where
  size : Nat
  locals : List LocalGroup
  code : Code
  deriving DecidableEq

/-- What a section holds. -/
inductive Payload where
  /-- Function types. -/
  | types (entries : List FuncType)
  /-- Imports. -/
  | imports (entries : List Import)
  /-- The type index of each function that the module defines. -/
  | functions (types : List UInt32)
  /-- Tables. -/
  | tables (entries : List TableType)
  /-- Memories. -/
  | memories (entries : List MemoryType)
  /-- Global variables. -/
  | globals (entries : List Global)
  /-- Exports. -/
  | exports (entries : List Export)
  /-- The function to run at the start. -/
  | start (function : UInt32)
  /-- Initial table elements. -/
  | elements (entries : List Element)
  /-- Function bodies. -/
  | code (bodies : List FuncBody)
  /-- Initial memory contents. -/
  | data (entries : List Data)
  /-- A name and bytes of any meaning. -/
  | custom (name : String) (bytes : Bytes)
  deriving DecidableEq

/-- A section of a module. -/
structure Section where
  id : SectionId
  /-- The payload's length as the header declares it. -/
  size : Nat
  /-- The number of bytes that the payload really took. -/
  consumed : Nat
  payload : Payload
  deriving DecidableEq

/-- A module: the two words of its header and its sections in order. -/
structure Module where
  magic : UInt32
  version : UInt32
  sections : List Section
  deriving DecidableEq

namespace Module

/-- The word that a module starts with. -/
def magicWord : UInt32 := 0x6d736100

/-- The version of the binary format that is understood. -/
def supportedVersion : UInt32 := 1

/-- The ids of the sections in order. -/
def ids (m : Module) : List SectionId := m.sections.map Section.id

/-- The first section with an id. -/
def find? (m : Module) (id : SectionId) : Option Section := m.sections.find? fun s => s.id = id

/-- The place of the first section with an id. -/
def findIdx? (m : Module) (id : SectionId) : Option Nat := m.sections.findIdx? fun s => s.id = id

end Module

end WasmInspect
