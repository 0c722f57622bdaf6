import WasmInspect.Opcode

/-!
# Instructions

An instruction is an opcode and, if the opcode takes one, an operand. The operand of a floating-point constant is kept as the
bit pattern, so that every pattern survives, also one that is not a number.
-/

namespace WasmInspect

/-- The operand of an instruction. -/
inductive Operand where
  /-- The type of a block. -/
  | block (type : BlockType)
  /-- The index of a label, a function, a local or a global variable. -/
  | index (index : UInt32)
  /-- The targets of a branch table and its default target. -/
  | branchTable (targets : List UInt32) (default : UInt32)
  /-- The type of an indirect call and a reserved byte. -/
  | indirectCall (type : UInt32) (reserved : UInt8)
  /-- The alignment flags and the offset of a memory access. -/
  | memory (flags offset : UInt32)
  /-- A reserved byte. -/
  | reserved (value : UInt8)
  /-- A 32-bit integer. -/
  | i32 (value : Int32)
  /-- A 64-bit integer. -/
  | i64 (value : Int64)
  /-- The bits of a 32-bit floating-point number. -/
  | f32 (bits : UInt32)
  /-- The bits of a 64-bit floating-point number. -/
  | f64 (bits : UInt64)
  deriving DecidableEq

/-- The kind of an operand. -/
def Operand.kind : Operand → OperandKind
  | .block _ => .block
  | .index _ => .index
  | .branchTable _ _ => .branchTable
  | .indirectCall _ _ => .indirectCall
  | .memory _ _ => .memory
  | .reserved _ => .reserved
  | .i32 _ => .i32
  | .i64 _ => .i64
  | .f32 _ => .f32
  | .f64 _ => .f64

/-- An opcode with its operand. -/
structure Instruction where
  op : Opcode
  operand : Option Operand
  deriving DecidableEq

/-- Instructions one after the other. -/
abbrev Code : Type := List Instruction

end WasmInspect
