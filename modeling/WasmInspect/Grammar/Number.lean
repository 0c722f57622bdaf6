import WasmInspect.Leb128
import WasmInspect.Reader

/-!
# Bytes, words and numbers

The readers that all others are made of: one byte, a string of bytes, little-endian words, and LEB128 numbers of each width
that the format uses. A number wider than its field is cut to the field, in two's complement if the field is signed.
-/

namespace WasmInspect.Grammar

open Reader

/-- One byte. -/
def byte : Reader UInt8 := do
  let more ← hasRoom 1
  ensure more (.ofCause .outOfBounds)
  next

/-- The next `n` bytes. The check does not tell an end past all positions from one inside, so taking them is a fault there. -/
def bytes (n : Nat) : Reader Bytes := do
  let fits ← reaches n
  ensure fits (.ofCause .outOfBounds)
  slice n

/-- A little-endian word of `n` bytes. -/
def word (n : Nat) : Reader Nat := do
  let b ← bytes n
  pure b.littleEndian

/-- A word of 8 bits. -/
def uint8 : Reader UInt8 := do
  let v ← word 1
  pure (.ofNat v)

/-- A word of 16 bits. -/
def uint16 : Reader UInt16 := do
  let v ← word 2
  pure (.ofNat v)

/-- A word of 32 bits. -/
def uint32 : Reader UInt32 := do
  let v ← word 4
  pure (.ofNat v)

/-- A word of 64 bits. -/
def uint64 : Reader UInt64 := do
  let v ← word 8
  pure (.ofNat v)

/-- The bytes of a number, at most `n` of them: up to the first byte below `0x80`, or to the `n`-th byte. -/
def groups : Nat → Reader Bytes
  | 0 => pure []
  | n + 1 => do
    let x ← byte
    if x < 0x80 then pure [x]
    else
      let g ← groups n
      pure (x :: g)

/-- The bytes of a LEB128 number of at most `bits` bits. -/
def leb128 (bits : Nat) : Reader Bytes := groups (Leb128.limit bits)

/-- An unsigned LEB128 number of at most `bits` bits. -/
def varuint (bits : Nat) : Reader Nat := restoring do
  let g ← leb128 bits
  pure (Leb128.unsigned g)

/-- A signed LEB128 number of at most `bits` bits. -/
def varint (bits : Nat) : Reader Int := restoring do
  let g ← leb128 bits
  pure (Leb128.signed g)

/-- An unsigned number of one bit. It takes one byte, and all seven bits of that byte count. -/
def varuint1 : Reader UInt8 := do
  let v ← varuint 1
  pure (.ofNat v)

/-- An unsigned number of 7 bits. -/
def varuint7 : Reader UInt8 := do
  let v ← varuint 7
  pure (.ofNat v)

/-- An unsigned number of 32 bits. -/
def varuint32 : Reader UInt32 := do
  let v ← varuint 32
  pure (.ofNat v)

/-- An unsigned number of 64 bits. -/
def varuint64 : Reader UInt64 := do
  let v ← varuint 64
  pure (.ofNat v)

/-- A signed number of 7 bits. -/
def varint7 : Reader Int8 := do
  let v ← varint 7
  pure (.ofInt v)

/-- A signed number of 16 bits. -/
def varint16 : Reader Int16 := do
  let v ← varint 16
  pure (.ofInt v)

/-- A signed number of 32 bits. -/
def varint32 : Reader Int32 := do
  let v ← varint 32
  pure (.ofInt v)

/-- A signed number of 64 bits. -/
def varint64 : Reader Int64 := do
  let v ← varint 64
  pure (.ofInt v)

/-- A count or a length: an unsigned number of 32 bits. -/
def count : Reader Nat := do
  let v ← varuint32
  pure v.toNat

/-- A count and so many entries. `counts` names the count and `item` an entry in errors. A count that is larger than the number
of bytes left is out of bounds, since an entry takes a byte or more. -/
def list {α : Type} (counts item : String) (r : Reader α) : Reader (List α) := do
  let n ← within (.part counts) count
  let fits ← admits n
  ensure fits (.ofCause .outOfBounds)
  entries item r n 0

/-- The entries of a section: a count and so many entries of at least `least` bytes each, which must fit into what is left. -/
def vector {α : Type} (item : String) (least : Nat) (r : Reader α) : Reader (List α) := restoring do
  let n ← within (.part "vector length") count
  let fits ← admits (n * least)
  let rest ← remaining
  ensure fits (.malformed (.listTooLong n rest.length))
  entries item r n 0

/-- A name: a length and so many bytes. -/
def name : Reader Bytes := restoring do
  let n ← count
  bytes n

/-- A name as text. -/
def nameText : Reader String := do
  let b ← name
  pure b.nameText

end WasmInspect.Grammar
