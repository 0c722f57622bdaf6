import WasmInspect.Wire

/-!
# Reading the wire form

An item of the compact binary is read from its head and from what the kind in the head asks for: nothing more for a number, so many bytes for a
text, so many items for an array, and one item for a tag. Whatever comes after the item is left.
-/

namespace WasmInspect.Wire

/-- An item with all that is in it. -/
inductive Item where
  | number (n : Nat)
  | text (s : String)
  | array (items : List Item)
  | tag (n : Nat) (item : Item)

/-- The kind of a code; the other codes are not used. -/
def Major.ofCode? : Nat → Option Major
  | 0 => some number
  | 3 => some text
  | 4 => some array
  | 6 => some tag
  | _ => none

/-- The number that some bytes stand for, the highest first. -/
def ofBigEndian (b : Bytes) : Nat := b.foldl (fun n x => 256 * n + x.toNat) 0

/-- The next `n` bytes and those after them, if there are so many. -/
def split? (n : Nat) (b : Bytes) : Option (Bytes × Bytes) := if b.hasAtLeast n then some (b.take n, b.drop n) else none

/-- The number of a head: its low bits if they are below 24; else they say whether it is in the next 1, 2, 4 or 8 bytes. -/
def readNumber (low : Nat) (b : Bytes) : Option (Nat × Bytes) :=
  if low < 24 then some (low, b)
  else if low < 28 then (split? (Nat.pow 2 (low - 24)) b).map fun (w, rest) => (ofBigEndian w, rest)
  else none

/-- The kind and the number of a head. -/
def readHead : Bytes → Option (Major × Nat × Bytes)
  | [] => none
  | x :: b => do
    let kind ← Major.ofCode? (x.toNat / 32)
    let (n, rest) ← readNumber (x.toNat % 32) b
    pure (kind, n, rest)

/-- So many items one after the other. -/
def readItems (item : Bytes → Option (Item × Bytes)) : Nat → Bytes → Option (List Item × Bytes)
  | 0, b => some ([], b)
  | n + 1, b => do
    let (x, rest) ← item b
    let (xs, rest) ← readItems item n rest
    pure (x :: xs, rest)

/-- What the head of an item asks for, with the reader for the items in it. -/
def readContent (item : Bytes → Option (Item × Bytes)) (n : Nat) (b : Bytes) : Major → Option (Item × Bytes)
  | .number => some (.number n, b)
  | .text => do
    let (w, rest) ← split? n b
    let s ← String.fromUTF8? w.toByteArray
    pure (.text s, rest)
  | .array => (readItems item n b).map fun (xs, rest) => (.array xs, rest)
  | .tag => (item b).map fun (x, rest) => (.tag n x, rest)

/-- An item with at most `depth` levels in it. -/
def readWithin : (depth : Nat) → Bytes → Option (Item × Bytes)
  | 0, _ => none
  | depth + 1, b => do
    let (kind, n, rest) ← readHead b
    readContent (readWithin depth) n rest kind

/-- The item that some bytes start with, and the bytes after it. Each level takes a byte, so there are no more levels than bytes. -/
def read (b : Bytes) : Option (Item × Bytes) := readWithin b.length b

end WasmInspect.Wire
