import WasmInspect.Decimal.Shortest
import WasmInspect.Text.Number

/-!
# Floating-point numbers as text

The text of a floating-point constant: the shortest digits that read back, written out where the number is neither small nor
large, else with an exponent.
-/

namespace WasmInspect.Decimal

/-- How the digits of a number are laid out. -/
structure Layout where
  /-- The least exponent of the first digit for which the number is written out. -/
  leastPlain : Int
  /-- The least exponent of the first digit above these for which it is written with an exponent. -/
  leastLarge : Int
  /-- The least number of digits of a written exponent. -/
  exponentWidth : Nat

/-- Constants are written out from `0.0001` up to below a million, and an exponent has two digits or more. -/
def Layout.constant : Layout := ⟨-4, 6, 2⟩

/-- The number without the zeros that it ends with. -/
def stripZeros : List Char → List Char := fun ds => (ds.reverse.dropWhile (· = '0')).reverse

/-- A decimal point and the digits after it, if there are any. -/
def pointed (ds : List Char) : List Char := if ds.isEmpty then [] else '.' :: ds

/-- The digits of a number as text, given the exponent of the first of them. -/
def Layout.digits (l : Layout) (ds : List Char) (exponent : Int) : List Char :=
  if exponent < l.leastPlain ∨ l.leastLarge ≤ exponent then
    let sign := if exponent < 0 then '-' else '+'
    ds.take 1 ++ pointed (ds.drop 1) ++ 'e' :: sign :: Text.padded l.exponentWidth (Nat.toDigits 10 exponent.natAbs)
  else if exponent < 0 then
    '0' :: '.' :: List.replicate (exponent.natAbs - 1) '0' ++ ds
  else
    let whole := exponent.toNat + 1
    ds.take whole ++ List.replicate (whole - ds.length) '0' ++ pointed (ds.drop whole)

/-- The text of a decimal number. -/
def Layout.scaled (l : Layout) (s : Scaled) : String :=
  let all := Nat.toDigits 10 s.digits
  String.ofList (l.digits (stripZeros all) (s.exponent + (all.length - 1 : Nat)))

/-- The text of a bit pattern of the format. -/
def Format.text (f : Format) (bits : Nat) : String :=
  let (negative, reading) := f.read bits
  let sign := if negative then "-" else ""
  match reading with
  | .notANumber => "NaN"
  | .infinity => if negative then "-Inf" else "+Inf"
  | .zero => sign ++ "0"
  | .finite v => sign ++ Layout.constant.scaled v.shortest

end WasmInspect.Decimal
