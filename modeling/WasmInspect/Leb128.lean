import WasmInspect.Bytes

/-!
# LEB128 integers

An integer is written in groups of seven bits, the lowest first, one group a byte; the high bit of a byte says that another
group follows. A reader for a width of `bits` takes at most `limit bits` groups: it stops there whatever the last high bit
says, so an over-long number is cut and not refused.

`groups` finds the bytes of a number, `unsigned` and `signed` give its value in 64 bits.
-/

namespace WasmInspect.Leb128

/-- The number of 64-bit words. -/
def wordCount : Nat := 0x10000000000000000

/-- The most groups that a number of `bits` bits takes. The width is a 64-bit word and the rounding up wraps in it; a sum in
the upper half of the words counts as negative and leaves no group at all. -/
def limit (bits : Nat) : Nat :=
  let word := (bits + 6) % wordCount
  if 2 * word < wordCount then word / 7 else 0

/-- The bytes of the number that `b` starts with, at most `n` of them, and the bytes after it. The number ends with its first
byte below `0x80`, or with the `n`-th byte. `none` when `b` ends first. -/
def groups : Nat → Bytes → Option (Bytes × Bytes)
  | 0, b => some ([], b)
  | _ + 1, [] => none
  | n + 1, x :: b =>
    if x < 0x80 then some ([x], b)
    else (groups n b).map fun (g, rest) => (x :: g, rest)

/-- The sum of the groups' low seven bits, each weighted by its place. -/
def weight : Bytes → Nat
  | [] => 0
  | x :: g => x.toNat % 128 + 128 * weight g

/-- The unsigned value of the groups in 64 bits. -/
def unsigned (g : Bytes) : Nat := weight g % wordCount

/-- The signed value of the groups in 64 bits: the sign is the highest of the bits read, or bit 63 if that many were read. -/
def signed (g : Bytes) : Int := Int.bmod (weight g) (Nat.pow 2 (min (7 * g.length) 64))

/-- An unsigned number of at most `bits` bits at the start of `b`, with the number of bytes read. -/
def readUnsigned (bits : Nat) (b : Bytes) : Option (Nat × Nat) :=
  (groups (limit bits) b).map fun (g, _) => (unsigned g, g.length)

/-- A signed number of at most `bits` bits at the start of `b`, with the number of bytes read. -/
def readSigned (bits : Nat) (b : Bytes) : Option (Int × Nat) :=
  (groups (limit bits) b).map fun (g, _) => (signed g, g.length)

end WasmInspect.Leb128
