/-!
# Byte strings

A byte string is a list of bytes. Here are the few operations that reading a binary format needs: whether a string holds at
least so many bytes, the number that a little-endian word stands for, and the text of a name, which gives every byte one
character.
-/

namespace WasmInspect

/-- A finite string of bytes. -/
abbrev Bytes : Type := List UInt8

namespace Bytes

/-- Whether the string holds at least `n` bytes. Only the first `n` bytes are looked at, so a long string is not walked. -/
def hasAtLeast : Bytes → Nat → Bool
  | _, 0 => true
  | [], _ + 1 => false
  | _ :: b, n + 1 => hasAtLeast b n

/-- Holding at least `n` bytes is a bound on the length. -/
theorem hasAtLeast_iff (b : Bytes) (n : Nat) : b.hasAtLeast n = true ↔ n ≤ b.length := by
  induction b generalizing n with
  | nil => cases n <;> simp [hasAtLeast]
  | cons x b ih => cases n <;> simp [hasAtLeast, ih]

/-- The number whose little-endian bytes these are. -/
def littleEndian : Bytes → Nat
  | [] => 0
  | x :: b => x.toNat + 256 * littleEndian b

/-- The text of a name: each byte is the character of the same number, so no byte string is refused. -/
def nameText (b : Bytes) : String := String.ofList (b.map fun x => Char.ofNat x.toNat)

end Bytes

end WasmInspect
