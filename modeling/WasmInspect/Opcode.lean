import WasmInspect.Types

/-!
# Opcodes

An instruction starts with one byte, its opcode. The table gives each opcode that has a meaning its mnemonic and says which
operand follows it. It is written in runs: the codes of a run are consecutive and take the same operand.
-/

namespace WasmInspect

/-- The first byte of an instruction. -/
structure Opcode where
  byte : UInt8
  deriving DecidableEq

/-- What an instruction has besides its opcode. -/
inductive OperandKind where
  /-- The type of a block. -/
  | block
  /-- The index of a label, a function, a local or a global variable. -/
  | index
  /-- A list of branch targets and a default target. -/
  | branchTable
  /-- The type of an indirect call and a reserved byte. -/
  | indirectCall
  /-- Alignment flags and an offset. -/
  | memory
  /-- A reserved byte. -/
  | reserved
  /-- A 32-bit integer. -/
  | i32
  /-- A 64-bit integer. -/
  | i64
  /-- The bits of a 32-bit floating-point number. -/
  | f32
  /-- The bits of a 64-bit floating-point number. -/
  | f64
  deriving DecidableEq

namespace Opcode

/-- Consecutive opcodes that take the same operand. -/
structure Run where
  /-- The first opcode. -/
  first : Nat
  /-- The operand that each takes, if any. -/
  operand : Option OperandKind
  /-- The mnemonics, one for each opcode. -/
  mnemonics : List String

/-- What the table says of an opcode. -/
structure Entry where
  mnemonic : String
  operand : Option OperandKind
  deriving DecidableEq

/-- The opcodes that have a meaning. -/
def table : List Run :=
  [⟨0x00, none, ["unreachable", "nop"]⟩,
   ⟨0x02, some .block, ["block", "loop", "if"]⟩,
   ⟨0x05, none, ["else"]⟩,
   ⟨0x0b, none, ["end"]⟩,
   ⟨0x0c, some .index, ["br", "br_if"]⟩,
   ⟨0x0e, some .branchTable, ["br_table"]⟩,
   ⟨0x0f, none, ["return"]⟩,
   ⟨0x10, some .index, ["call"]⟩,
   ⟨0x11, some .indirectCall, ["call_indirect"]⟩,
   ⟨0x1a, none, ["drop", "select"]⟩,
   ⟨0x20, some .index, ["get_local", "set_local", "tee_local", "get_global", "set_global"]⟩,
   ⟨0x28, some .memory,
    ["i32.load", "i64.load", "f32.load", "f64.load",
     "i32.load8_s", "i32.load8_u", "i32.load16_s", "i32.load16_u",
     "i64.load8_s", "i64.load8_u", "i64.load16_s", "i64.load16_u", "i64.load32_s", "i64.load32_u",
     "i32.store", "i64.store", "f32.store", "f64.store",
     "i32.store8", "i32.store16", "i64.store8", "i64.store16", "i64.store32"]⟩,
   ⟨0x3f, some .reserved, ["current_memory", "grow_memory"]⟩,
   ⟨0x41, some .i32, ["i32.const"]⟩,
   ⟨0x42, some .i64, ["i64.const"]⟩,
   ⟨0x43, some .f32, ["f32.const"]⟩,
   ⟨0x44, some .f64, ["f64.const"]⟩,
   ⟨0x45, none,
    ["i32.eqz", "i32.eq", "i32.ne", "i32.lt_s", "i32.lt_u", "i32.gt_s", "i32.gt_u", "i32.le_s", "i32.le_u", "i32.ge_s",
     "i32.ge_u",
     "i64.eqz", "i64.eq", "i64.ne", "i64.lt_s", "i64.lt_u", "i64.gt_s", "i64.gt_u", "i64.le_s", "i64.le_u", "i64.ge_s",
     "i64.ge_u",
     "f32.eq", "f32.ne", "f32.lt", "f32.gt", "f32.le", "f32.ge",
     "f64.eq", "f64.ne", "f64.lt", "f64.gt", "f64.le", "f64.ge"]⟩,
   ⟨0x67, none,
    ["i32.clz", "i32.ctz", "i32.popcnt", "i32.add", "i32.sub", "i32.mul", "i32.div_s", "i32.div_u", "i32.rem_s", "i32.rem_u",
     "i32.and", "i32.or", "i32.xor", "i32.shl", "i32.shr_s", "i32.shr_u", "i32.rotl", "i32.rotr",
     "i64.clz", "i64.ctz", "i64.popcnt", "i64.add", "i64.sub", "i64.mul", "i64.div_s", "i64.div_u", "i64.rem_s", "i64.rem_u",
     "i64.and", "i64.or", "i64.xor", "i64.shl", "i64.shr_s", "i64.shr_u", "i64.rotl", "i64.rotr"]⟩,
   ⟨0x8b, none,
    ["f32.abs", "f32.neg", "f32.ceil", "f32.floor", "f32.trunc", "f32.nearest", "f32.sqrt",
     "f32.add", "f32.sub", "f32.mul", "f32.div", "f32.min", "f32.max", "f32.copysign",
     "f64.abs", "f64.neg", "f64.ceil", "f64.floor", "f64.trunc", "f64.nearest", "f64.sqrt",
     "f64.add", "f64.sub", "f64.mul", "f64.div", "f64.min", "f64.max", "f64.copysign"]⟩,
   ⟨0xa7, none,
    ["i32.wrap/i64", "i32.trunc_s/f32", "i32.trunc_u/f32", "i32.trunc_s/f64", "i32.trunc_u/f64",
     "i64.extend_s/i32", "i64.extend_u/i32", "i64.trunc_s/f32", "i64.trunc_u/f32", "i64.trunc_s/f64", "i64.trunc_u/f64",
     "f32.convert_s/i32", "f32.convert_u/i32", "f32.convert_s/i64", "f32.convert_u/i64", "f32.demote/f64",
     "f64.convert_s/i32", "f64.convert_u/i32", "f64.convert_s/i64", "f64.convert_u/i64", "f64.promote/f32",
     "i32.reinterpret/f32", "i64.reinterpret/f64", "f32.reinterpret/i32", "f64.reinterpret/i64"]⟩]

/-- The mnemonic that a run has for the opcode of number `n`, if it is one of the run. -/
def Run.mnemonic? (r : Run) (n : Nat) : Option String := if r.first ≤ n then r.mnemonics[n - r.first]? else none

/-- What the table says of an opcode, if it has a meaning. -/
def entry? (op : Opcode) : Option Entry :=
  table.findSome? fun r => (r.mnemonic? op.byte.toNat).map fun m => ⟨m, r.operand⟩

/-- The opcode that ends a block, an expression or a body. -/
def blockEnd : Opcode := ⟨0x0b⟩

/-- Whether the opcode has a meaning. -/
def isValid (op : Opcode) : Bool := op.entry?.isSome

/-- The mnemonic of an opcode; one without a meaning is shown by its two hexadecimal digits. -/
def name (op : Opcode) : String :=
  match op.entry? with
  | some e => e.mnemonic
  | none => Text.hex 2 op.byte.toNat

end Opcode

end WasmInspect
