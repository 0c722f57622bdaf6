/-!
# Numbers as text

Decimal and hexadecimal digits of natural numbers and integers, and the padding of a digit string to a width.
-/

namespace WasmInspect.Text

/-- Fills a digit string up with zeros in front until it has `width` digits; a longer one stays. -/
def padded (width : Nat) (digits : List Char) : List Char :=
  List.replicate (width - digits.length) '0' ++ digits

/-- The decimal digits of a number. -/
def decimal (n : Nat) : String := String.ofList (Nat.toDigits 10 n)

/-- The decimal digits of an integer, after a minus sign if it is negative. -/
def signedDecimal (i : Int) : String :=
  if i < 0 then "-" ++ decimal i.natAbs else decimal i.natAbs

/-- The hexadecimal digits of a number in lower case, at least `width` of them. -/
def hex (width n : Nat) : String := String.ofList (padded width (Nat.toDigits 16 n))

/-- The hexadecimal digits of a number in upper case, at least `width` of them. -/
def upperHex (width n : Nat) : String := String.ofList ((padded width (Nat.toDigits 16 n)).map Char.toUpper)

/-- A byte as `0x` and two upper-case digits. -/
def word8 (v : UInt8) : String := "0x" ++ upperHex 2 v.toNat

/-- A 16-bit word as `0x` and four upper-case digits. -/
def word16 (v : UInt16) : String := "0x" ++ upperHex 4 v.toNat

/-- A 32-bit word as `0x` and eight upper-case digits. -/
def word32 (v : UInt32) : String := "0x" ++ upperHex 8 v.toNat

end WasmInspect.Text
