import WasmInspect.Production

/-!
# Reading at any position

A position given from outside is a signed 64-bit word, which may lie before the bytes or past them. A reader that is asked for
a value before the bytes finds none, as at their end. A failed read leaves the position where it was.

A cursor is a position that moves: by a jump, by a step of any length, which wraps in 64 bits, or past what it reads.
-/

namespace WasmInspect

/-- Where a read ended up, and its value or failure. -/
structure Located (α : Type) where
  pos : Int
  result : Except Failure α

namespace Cursor

variable {α : Type}

/-- The signed 64-bit word that an integer wraps to. -/
def wrap (i : Int) : Int := Int.bmod i Leb128.wordCount

/-- The input at a signed position; before the bytes there is nothing to read. -/
def inputAt (b : Bytes) (pos : Int) : Input := if pos < 0 then ⟨0, []⟩ else Input.at b pos.toNat

/-- Reads with `r` at a signed position. After a failure the position is as far from the given one as the reader says. -/
def readAt (r : Reader α) (b : Bytes) (pos : Int) : Located α :=
  let i := inputAt b pos
  match (r .checked i).result with
  | .ok (a, j) => ⟨j.pos, .ok a⟩
  | .error s => ⟨pos + (s.pos - i.pos), .error s.failure⟩

/-- Out of bounds at a position. -/
def outside (pos : Int) : Located α := ⟨pos, .error (.error (.ofCause .outOfBounds))⟩

/-- What can be read at a position: a production, a number of any width, or a number of bytes. -/
inductive Item where
  | production (p : Production)
  | varuint (bits : Nat)
  | varint (bits : Nat)
  | bytes (length : Int)

/-- The type of what is read. -/
abbrev Item.Value : Item → Type
  | production p => p.Value
  | varuint _ => Nat
  | varint _ => Int
  | bytes _ => Bytes

/-- Reads an item. A number that may take no byte at all is still out of bounds before the bytes, and an empty string of bytes
also past their end. -/
def Item.readAt (b : Bytes) (pos : Int) : (item : Item) → Located item.Value
  | production p => Cursor.readAt p.read b pos
  | varuint bits => if pos < 0 then outside pos else Cursor.readAt (Grammar.varuint bits) b pos
  | varint bits => if pos < 0 then outside pos else Cursor.readAt (Grammar.varint bits) b pos
  | bytes length =>
    if pos < 0 ∨ length < 0 ∨ (length = 0 ∧ b.length < pos) then outside pos
    else Cursor.readAt (Grammar.bytes length.toNat) b pos

/-- An unsigned LEB128 number at a position and the number of bytes it takes. The position is not checked first: a byte before
the bytes is a fault. -/
def unsignedAt (bits : Nat) (b : Bytes) (pos : Int) : Except Failure (Nat × Nat) :=
  if pos < 0 then if Leb128.limit bits = 0 then .ok (0, 0) else .error (.fault .position)
  else match Leb128.readUnsigned bits (b.drop pos.toNat) with
    | some v => .ok v
    | none => .error (.error (.ofCause .outOfBounds))

/-- A signed LEB128 number at a position, under the same rule. -/
def signedAt (bits : Nat) (b : Bytes) (pos : Int) : Except Failure (Int × Nat) :=
  if pos < 0 then if Leb128.limit bits = 0 then .ok (0, 0) else .error (.fault .position)
  else match Leb128.readSigned bits (b.drop pos.toNat) with
    | some v => .ok v
    | none => .error (.error (.ofCause .outOfBounds))

/-- A move of a cursor that reads nothing. -/
inductive Move where
  | seek (pos : Int)
  | skip (distance : Int)

/-- Where a move leads from a position. -/
def Move.apply (pos : Int) : Move → Int
  | seek p => wrap p
  | skip d => wrap (pos + d)

end Cursor

end WasmInspect
