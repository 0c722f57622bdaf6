import WasmInspect.Grammar.Tag

/-!
# Instructions and expressions

An instruction is an opcode and the operand that the opcode table asks for. An expression is a run of instructions up to the
first `end`: blocks inside of it are not followed.
-/

namespace WasmInspect.Grammar

open Reader

/-- The targets of a branch table. -/
def branchTable : Reader Operand := restoring do
  let targets ← list "target count" "target" varuint32
  let default ← within (.part "default target") varuint32
  pure (.branchTable targets default)

/-- The operand of a kind. -/
def operandOf : OperandKind → Reader Operand
  | .block => do
    let t ← blockType
    pure (.block t)
  | .index => do
    let n ← varuint32
    pure (.index n)
  | .branchTable => branchTable
  | .indirectCall => do
    let t ← varuint32
    let reserved ← varuint1
    pure (.indirectCall t reserved)
  | .memory => do
    let flags ← varuint32
    let offset ← varuint32
    pure (.memory flags offset)
  | .reserved => do
    let v ← varuint1
    pure (.reserved v)
  | .i32 => do
    let v ← varint32
    pure (.i32 v)
  | .i64 => do
    let v ← varint64
    pure (.i64 v)
  | .f32 => do
    let v ← uint32
    pure (.f32 v)
  | .f64 => do
    let v ← uint64
    pure (.f64 v)

/-- The operand that an opcode takes, if any. -/
def operand? : Option OperandKind → Reader (Option Operand)
  | none => pure none
  | some k => do
    let o ← operandOf k
    pure (some o)

/-- An opcode and its operand, without a trace. -/
def bareInstruction : Reader Instruction := do
  let pos ← position
  let op ← byte
  match Opcode.entry? ⟨op⟩ with
  | none => fail (.ofCause (.invalidOpcode ⟨op⟩ pos))
  | some e =>
    let operand ← within (.operand ⟨op⟩ pos) (operand? e.operand)
    pure ⟨⟨op⟩, operand⟩

/-- An instruction, which leaves an event with the bytes it was read from. -/
def instruction : Reader Instruction := restoring do
  let pos ← position
  let (x, code) ← captured bareInstruction
  log (.instruction pos x.op code)
  pure x

/-- Instructions up to the first `end`, at most as many as `fuel` has bytes: one more that can be read is one too many. With fuel for
every byte of the input this does not happen, since an instruction takes a byte or more. -/
def expressionLoop : Bytes → Reader Code
  | [] => do
    let _ ← instruction
    outOfRounds
  | _ :: fuel => do
    let x ← instruction
    if x.op = .blockEnd then pure [x]
    else
      let code ← expressionLoop fuel
      pure (x :: code)

/-- An expression: instructions up to and with the first `end`. -/
def expression : Reader Code := restoring do
  let rest ← remaining
  expressionLoop rest

/-- Instructions as long as more than one of `left` bytes is left, at most `fuel` of them. Fuel for every byte is enough, since
an instruction takes a byte or more. The last instruction may take more bytes than are left. -/
def codeLoop : (fuel left : Nat) → Reader Code
  | 0, left => if 1 < left then outOfRounds else pure []
  | fuel + 1, left =>
    if 1 < left then do
      let (x, n) ← measured instruction
      let code ← codeLoop fuel (left - n)
      pure (x :: code)
    else pure []

end WasmInspect.Grammar
