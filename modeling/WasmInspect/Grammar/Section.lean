import WasmInspect.Grammar.Entry

/-!
# Sections and modules

A section has an id, the size of its payload, and the payload, which is read from these bytes alone. What the payload does not
take of them is skipped. A module is a header of two words and sections up to the end of the input.

`decode` reads a module and gives its trace as well.
-/

namespace WasmInspect.Grammar

open Reader

/-- Function types. -/
def types : Reader (List FuncType) := vector "type" 1 funcType

/-- Imports. -/
def imports : Reader (List Import) := vector "import" 3 importEntry

/-- Type indices of functions. -/
def functions : Reader (List UInt32) := vector "func" 1 varuint32

/-- Tables. -/
def tables : Reader (List TableType) := vector "table" 3 tableType

/-- Memories. -/
def memories : Reader (List MemoryType) := vector "memory" 2 memoryType

/-- Global variables. -/
def globals : Reader (List Global) := vector "global" 3 globalEntry

/-- Exports. -/
def exports : Reader (List Export) := vector "export" 3 exportEntry

/-- The index of the start function. -/
def start : Reader UInt32 := restoring (within (.part "start function") varuint32)

/-- Table elements. -/
def elements : Reader (List Element) := vector "element" 3 element

/-- Function bodies. -/
def code : Reader (List FuncBody) := vector "code" 2 funcBody

/-- Memory contents. -/
def data : Reader (List Data) := vector "data" 3 dataSegment

/-- A name and all the bytes that are left. -/
def custom : Reader (String × Bytes) := restoring (followed (within (.part "name") nameText))

/-- The payload that the sections of an id hold; an id without a meaning of its own stands for a custom section. -/
def payload (id : SectionId) : Reader Payload :=
  if id = .types then Payload.types <$> types
  else if id = .imports then Payload.imports <$> imports
  else if id = .functions then Payload.functions <$> functions
  else if id = .tables then Payload.tables <$> tables
  else if id = .memories then Payload.memories <$> memories
  else if id = .globals then Payload.globals <$> globals
  else if id = .exports then Payload.exports <$> exports
  else if id = .start then Payload.start <$> start
  else if id = .elements then Payload.elements <$> elements
  else if id = .code then Payload.code <$> code
  else if id = .data then Payload.data <$> data
  else (fun (n, b) => Payload.custom n b) <$> custom

/-- A section: its header and its payload. -/
def anySection : Reader Section := restoring do
  let pos ← position
  let byte ← within (.part "section id") varuint7
  let id : SectionId := ⟨byte⟩
  let size ← within (.sizeOf id) count
  let fits ← reaches size
  ensure fits (.malformed (.payloadTooLong id size))
  log (.sectionBegins id pos size)
  let start ← position
  let (p, consumed) ← within (.payloadOf id) (delimited size (payload id))
  if consumed = size then pure ⟨id, size, consumed, p⟩
  else
    log (.sizeMismatch id start size consumed)
    pure ⟨id, size, consumed, p⟩

/-- Sections up to the end of the input, at most as many as `fuel` has bytes. Fuel for every byte is enough, since a section takes a byte
or more. -/
def sectionLoop : Bytes → Reader (List Section)
  | [] => do
    let more ← hasRoom 1
    if more then outOfRounds else pure []
  | _ :: fuel => do
    let more ← hasRoom 1
    if more then
      let s ← located anySection
      let rest ← sectionLoop fuel
      pure (s :: rest)
    else pure []

/-- Sections up to the end of the input. -/
def sections : Reader (List Section) := do
  let rest ← remaining
  sectionLoop rest

/-- A module. An error is given the position that came back with it: that of a word of the header, or of a section. -/
def module : Reader Module := do
  let magic ← located (orElseFail (.ofCause .badMagic) uint32)
  located (ensure (magic = Module.magicWord) (.ofCause .badMagic))
  let version ← located (within (.part "version") uint32)
  located (ensure (version = Module.supportedVersion) ⟨[.version version], .unsupportedVersion⟩)
  let s ← sections
  pure ⟨magic, version, s⟩

end WasmInspect.Grammar

namespace WasmInspect

/-- The events of reading a module, and the module or the failure. -/
structure Decoded where
  events : List Event
  result : Except Failure Module

/-- Reads a whole module under a policy on counts. -/
def decodeWith (policy : CountPolicy) (b : Bytes) : Decoded :=
  let o := Grammar.module policy (Input.at b 0)
  ⟨o.events, o.value⟩

/-- Reads a whole module. -/
def decode (b : Bytes) : Decoded := decodeWith .checked b

end WasmInspect
