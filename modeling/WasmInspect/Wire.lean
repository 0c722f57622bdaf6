import WasmInspect.Bytes
import WasmInspect.Instruction.Text

/-!
# Wire form of lists

Lists of types, section ids and instructions as a compact binary. Every item starts with a head: its kind in the three high bits
of a byte and a number in the five low bits, or in the 1, 2, 4 or 8 bytes after it if it is larger. Types and instructions are
written as their texts, section ids as numbers, after a mark that they are best shown in hexadecimal.
-/

namespace WasmInspect.Wire

/-- The kinds of items. -/
inductive Major where
  | number
  | text
  | array
  | tag
  deriving DecidableEq

/-- The code of a kind. -/
def Major.code : Major → Nat
  | number => 0
  | text => 3
  | array => 4
  | tag => 6

/-- The `width` bytes of a number, the highest first. -/
def bigEndian : (width n : Nat) → Bytes
  | 0, _ => []
  | w + 1, n => bigEndian w (n / 256) ++ [.ofNat (n % 256)]

/-- The head of an item with its number. -/
def head (kind : Major) (n : Nat) : Bytes :=
  let first (low : Nat) : UInt8 := .ofNat (kind.code * 32 + low)
  if n < 24 then [first n]
  else if n < 0x100 then first 24 :: bigEndian 1 n
  else if n < 0x10000 then first 25 :: bigEndian 2 n
  else if n < 0x100000000 then first 26 :: bigEndian 4 n
  else first 27 :: bigEndian 8 n

/-- A number. -/
def number (n : Nat) : Bytes := head .number n

/-- A text: the number of its bytes in UTF-8, and these. -/
def text (s : String) : Bytes := head .text s.utf8ByteSize ++ s.toUTF8.toList

/-- An array: the number of its items, and these. -/
def array (items : List Bytes) : Bytes := head .array items.length ++ items.flatten

/-- The tag for numbers to be shown in hexadecimal. -/
def hexTag : Nat := 7

/-- Adds a list of value types to a buffer. -/
def appendTypes (buffer : Bytes) (types : List ValueType) : Bytes := buffer ++ array (types.map fun t => text t.name)

/-- Adds a list of section ids to a buffer. -/
def appendSectionIds (buffer : Bytes) (ids : List SectionId) : Bytes :=
  buffer ++ head .tag hexTag ++ array (ids.map fun id => number id.byte.toNat)

/-- Adds a list of instructions to a buffer. -/
def appendCode (buffer : Bytes) (code : Code) : Bytes := buffer ++ array (code.map fun x => text x.text)

end WasmInspect.Wire
