import WasmInspect.Grammar.Number
import WasmInspect.Module

/-!
# Types, kinds and limits

The productions that start with a byte from a fixed set. A byte outside of the set is an invalid tag at its position.
-/

namespace WasmInspect.Grammar

open Reader

/-- Reads a tag with `r` and gives what `accept` makes of it; a tag that it does not accept is an error of the production. -/
def tag {α : Type} (site : TagSite) (r : Reader UInt8) (accept : UInt8 → Option α) : Reader α := restoring do
  let pos ← position
  let t ← r
  match accept t with
  | some a => pure a
  | none => fail (.ofCause (.invalidTag site t pos))

/-- The type of a value. -/
def valueType : Reader ValueType :=
  tag .valueType varuint7 fun t => if ⟨t⟩ ∈ ValueType.all then some ⟨t⟩ else none

/-- The type of a block. -/
def blockType : Reader BlockType :=
  tag .blockType varuint7 fun t => if ⟨t⟩ ∈ BlockType.all then some ⟨t⟩ else none

/-- The type of a table's elements, of which there is only one. -/
def elementType : Reader BlockType :=
  tag .elementType uint8 fun t => if ⟨t⟩ = BlockType.anyFunc then some ⟨t⟩ else none

/-- The kind of an import or export. -/
def externalKind : Reader ExternalKind :=
  tag .externalKind uint8 fun t => if t ≤ ExternalKind.global.byte then some ⟨t⟩ else none

/-- The limits of a table or memory: a flag that says whether there is a maximum, the initial size, and the maximum. -/
def limits : Reader Limits := restoring do
  let flags ← tag .limits (within (.part "flags") varuint1) fun t => if t ≤ 1 then some t else none
  let initial ← within (.part "initial") varuint32
  if flags = 0 then pure ⟨flags.toUInt32, initial.toNat, -1⟩
  else
    let maximum ← within (.part "maximum") varuint32
    pure ⟨flags.toUInt32, initial.toNat, maximum.toNat⟩

/-- The type of a function: its mark, the parameter types, and at most one result type. -/
def funcType : Reader FuncType := restoring do
  let _ ← tag .funcType uint8 fun t => if ⟨t⟩ = BlockType.func then some () else none
  let params ← list "param count" "param" valueType
  let returns ← tag .resultCount (within (.part "return count") varuint1) fun t =>
    if t = 0 then some false else if t = 1 then some true else none
  if returns then
    let result ← within (.part "return type") valueType
    pure ⟨params, [result]⟩
  else pure ⟨params, []⟩

/-- The type of a table. -/
def tableType : Reader TableType := restoring do
  let element ← elementType
  let l ← within (.part "limits") limits
  pure ⟨element, l⟩

/-- The type of a memory. -/
def memoryType : Reader MemoryType := restoring do
  let l ← within (.part "limits") limits
  pure ⟨l⟩

/-- The type of a global variable, which is mutable if the byte after its value type is not zero. -/
def globalType : Reader GlobalType := restoring do
  let value ← valueType
  let flag ← within (.part "mutability") varuint1
  pure ⟨value, flag ≠ 0⟩

end WasmInspect.Grammar
