import WasmInspect.Types
import WasmInspect.Opcode

/-!
# Errors

An error of reading is a cause and the contexts it arose in, the outermost first. `Error.message` gives its text: every context
stands in front of what it wraps, with a colon between them.

A fault is not an error of the input: it is a step that has no meaning at all, such as taking a byte or an entry that is not there, or going
on with a loop after all the rounds that it was given. Every step of that kind is one that can fail, also behind a check that there is
something to take. A failure is an error or a fault.
-/

namespace WasmInspect

/-- The productions that start with a byte from a fixed set. -/
inductive TagSite where
  /-- The type of a value. -/
  | valueType
  /-- The type of a block. -/
  | blockType
  /-- The type of a table's elements. -/
  | elementType
  /-- The kind of an import or export. -/
  | externalKind
  /-- The flags of limits. -/
  | limits
  /-- The mark of a function type. -/
  | funcType
  /-- The number of results of a function type. -/
  | resultCount
  deriving DecidableEq

/-- The name of a production as error texts give it. -/
def TagSite.name : TagSite → String
  | .valueType => "value_type"
  | .blockType => "block_type"
  | .elementType => "elem_type"
  | .externalKind => "external_kind"
  | .limits => "resizable_limits"
  | .funcType => "func_type"
  | .resultCount => "func_type return count"

/-- Why reading failed. -/
inductive Cause where
  /-- The input ends inside a value. -/
  | outOfBounds
  /-- A byte that the production does not start with. -/
  | invalidTag (site : TagSite) (tag : UInt8) (offset : Nat)
  /-- An opcode without a meaning. -/
  | invalidOpcode (op : Opcode) (offset : Nat)
  /-- A size or count that does not agree with what it is about. -/
  | malformedBody
  /-- The input does not start with the word of a module. -/
  | badMagic
  /-- A version of the binary format that is not understood. -/
  | unsupportedVersion
  deriving DecidableEq

/-- The text of a cause. -/
def Cause.message : Cause → String
  | .outOfBounds => "out of bounds"
  | .invalidTag site tag offset =>
    "invalid " ++ site.name ++ " tag: 0x" ++ Text.hex 2 tag.toNat ++ " at pos 0x" ++ Text.hex 1 offset
  | .invalidOpcode op offset =>
    "invalid opcode: 0x" ++ Text.hex 2 op.byte.toNat ++ " at pos 0x" ++ Text.hex 1 offset
  | .malformedBody => "malformed body"
  | .badMagic => "magic mismatch"
  | .unsupportedVersion => "unsupported binary format version"

/-- Where an error arose. -/
inductive Context where
  /-- In a named part of a production. -/
  | part (name : String)
  /-- In the entry of that number of a list. -/
  | item (name : String) (index : Nat)
  /-- In what starts at a position. -/
  | position (pos : Nat)
  /-- In the operand of the instruction that starts at a position. -/
  | operand (op : Opcode) (pos : Nat)
  /-- In the description of an import of that kind. -/
  | importOf (kind : ExternalKind)
  /-- In the payload of a section. -/
  | payloadOf (id : SectionId)
  /-- In the declared size of a section. -/
  | sizeOf (id : SectionId)
  /-- The declared size of a section is larger than what is left of the input. -/
  | payloadTooLong (id : SectionId) (size : Nat)
  /-- A list of so many entries cannot fit into the bytes that are left. -/
  | listTooLong (count room : Nat)
  /-- The declared size of a body is larger than what is left of the section. -/
  | bodyTooLong (size : Nat)
  /-- The last instruction of a body, at that position, is another one than `end`. -/
  | notEnd (pos : Nat) (op : Opcode)
  /-- A body ends at another position than its size says. -/
  | bodyEnds (pos declared : Nat)
  /-- The version word. -/
  | version (v : UInt32)
  deriving DecidableEq

/-- The text of a context. -/
def Context.message : Context → String
  | .part name => name
  | .item name index => name ++ " " ++ Text.decimal index
  | .position pos => "at pos 0x" ++ Text.hex 1 pos
  | .operand op pos => op.name ++ " at pos 0x" ++ Text.hex 1 pos
  | .importOf kind => kind.name ++ " import"
  | .payloadOf id => "section " ++ id.name
  | .sizeOf id => "section " ++ id.name ++ " size"
  | .payloadTooLong id size => "section " ++ id.name ++ ": payload size " ++ Text.decimal size ++ " exceeds buffer"
  | .listTooLong count room =>
    "vector of " ++ Text.decimal count ++ " entries does not fit into " ++ Text.decimal room ++ " bytes"
  | .bodyTooLong size => "body size " ++ Text.decimal size ++ " exceeds section"
  | .notEnd pos op => "expected end at pos 0x" ++ Text.hex 1 pos ++ ", got " ++ op.name
  | .bodyEnds pos declared => "body ends at pos 0x" ++ Text.hex 1 pos ++ ", declared 0x" ++ Text.hex 1 declared
  | .version v => "version " ++ Text.decimal v.toNat

/-- A cause and the contexts it arose in, the outermost first. -/
structure Error where
  contexts : List Context
  cause : Cause
  deriving DecidableEq

namespace Error

/-- The error that a context wraps around another error. -/
def within (c : Context) (e : Error) : Error := { e with contexts := c :: e.contexts }

/-- An error without a context. -/
def ofCause (cause : Cause) : Error := ⟨[], cause⟩

/-- A size or count that does not agree with what it is about, with the reason. -/
def malformed (reason : Context) : Error := ⟨[reason], .malformedBody⟩

/-- The text of an error: each context and a colon in front of what it wraps. -/
def message (e : Error) : String := e.contexts.foldr (fun c text => c.message ++ ": " ++ text) e.cause.message

end Error

/-- A step that has no meaning. -/
inductive Fault where
  /-- An access where there is no position. -/
  | position
  /-- An entry of a list that has not so many. -/
  | entry
  /-- A section whose payload is not the one that its id stands for. -/
  | payload
  /-- The text of an operand where there is none. -/
  | operand
  /-- A loop that would go on after its last round. -/
  | rounds
  deriving DecidableEq

/-- Why there is no result: an error of the input, or a fault. -/
inductive Failure where
  | error (e : Error)
  | fault (f : Fault)
  deriving DecidableEq

/-- The failure that a context wraps around another one; a fault has no context. -/
def Failure.within (c : Context) : Failure → Failure
  | .error e => .error (e.within c)
  | .fault f => .fault f

end WasmInspect
