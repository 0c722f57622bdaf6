import WasmInspect.Decimal.FloatText
import WasmInspect.Instruction

/-!
# Instructions as text

The text of an instruction is its mnemonic and, after a blank, its operand.
-/

namespace WasmInspect

/-- The text of an operand. -/
def Operand.text : Operand → String
  | .block type => type.name
  | .index n => Text.decimal n.toNat
  | .branchTable targets default =>
    "[" ++ " ".intercalate (targets.map fun t => Text.decimal t.toNat) ++ "] " ++ Text.decimal default.toNat
  | .indirectCall type extra => Text.decimal type.toNat ++ " " ++ Text.decimal extra.toNat
  | .memory flags offset =>
    "\x7bflags=" ++ Text.decimal flags.toNat ++ " offset=" ++ Text.decimal offset.toNat ++ "\x7d"
  | .reserved v => Text.decimal v.toNat
  | .i32 v => Text.signedDecimal v.toInt
  | .i64 v => Text.signedDecimal v.toInt
  | .f32 bits => Decimal.Format.single.text bits.toNat
  | .f64 bits => Decimal.Format.double.text bits.toNat

/-- The text after the mnemonic: a blank and the operand, if there is one. -/
def Instruction.tail (x : Instruction) : String :=
  match x.operand with
  | some o => " " ++ o.text
  | none => ""

/-- The text of an instruction. -/
def Instruction.text (x : Instruction) : String := x.op.name ++ x.tail

end WasmInspect
