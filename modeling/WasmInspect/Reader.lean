import WasmInspect.Error
import WasmInspect.Event

/-!
# Readers

A reader takes a value off the front of its input. The input is the position reached so far and the bytes from there on, so a
value depends on the bytes that it is read from and only error positions and events depend on where these bytes stand. A reader
also leaves a trace of events, which a failure does not take back.

Taking bytes that are not there is a fault. So is cutting the input at a place outside of it; the readers that take bytes check first
that there are enough. A loop whose end depends on what it reads is given a number of rounds, and to go on after these is a fault too.

A failure comes with a position to go on from. That is where the step failed, unless a reader around it puts the position back to where
it began itself (`restoring`).

How many entries a list has is written in front of it. Under the policy `checked` a count that the rest of the input cannot
hold is refused before an entry is read; under `unchecked` the entries are read until one fails.
-/

namespace WasmInspect

/-- A place in a byte string: the position, and the bytes from there on. -/
structure Input where
  pos : Nat
  rest : Bytes
  deriving DecidableEq

/-- Positions are the numbers below this one; there is no position past a value that would end here or later. -/
def Grammar.positionBound : Nat := 0x8000000000000000

/-- The place at a position of a byte string; past its end there are no bytes. -/
def Input.at (b : Bytes) (pos : Nat) : Input := ⟨pos, b.drop pos⟩

/-- Whether the next `n` bytes are there and end at a position. -/
def Input.holds (i : Input) (n : Nat) : Bool := i.pos + n < Grammar.positionBound && i.rest.hasAtLeast n

/-- A failure, and the position that is given back with it. -/
structure Stop where
  failure : Failure
  pos : Nat

/-- The failure in a context, with the same position. -/
def Stop.within (c : Context) (s : Stop) : Stop := { s with failure := s.failure.within c }

/-- The bytes up to a position, and those from there on. A position before the input or past its end is a fault. -/
def Input.splitAt (i : Input) (pos : Nat) : Except Stop (Bytes × Bytes) :=
  if i.pos ≤ pos && i.rest.hasAtLeast (pos - i.pos) then .ok (i.rest.take (pos - i.pos), i.rest.drop (pos - i.pos))
  else .error ⟨.fault .position, i.pos⟩

/-- Whether the count of a list is compared with the bytes that are left before the list is read. -/
inductive CountPolicy where
  | checked
  | unchecked
  deriving DecidableEq

/-- What reading comes to: the events on the way, and a value with the place after it, or a failure with a position. -/
structure Outcome (α : Type) where
  events : List Event
  result : Except Stop (α × Input)

/-- The value, or the failure without its position. -/
def Outcome.value {α : Type} (o : Outcome α) : Except Failure α := (o.result.map Prod.fst).mapError Stop.failure

/-- A reader of values of type `α`. -/
def Reader (α : Type) : Type := CountPolicy → Input → Outcome α

namespace Reader

variable {α β : Type}

/-- Reads nothing and gives a value. -/
protected def pure (a : α) : Reader α := fun _ i => ⟨[], .ok (a, i)⟩

/-- Reads with `r`, then with what `f` makes of the value; the events of both are kept in order. -/
protected def bind (r : Reader α) (f : α → Reader β) : Reader β := fun p i =>
  let o := r p i
  match o.result with
  | .ok (a, j) =>
    let o' := f a p j
    ⟨o.events ++ o'.events, o'.result⟩
  | .error e => ⟨o.events, .error e⟩

instance : Monad Reader where
  pure := Reader.pure
  bind := Reader.bind

/-- Fails with an error. -/
def fail (e : Error) : Reader α := fun _ i => ⟨[], .error ⟨.error e, i.pos⟩⟩

/-- A loop goes on after all the rounds that it was given, which is a fault. -/
def outOfRounds : Reader α := fun _ i => ⟨[], .error ⟨.fault .rounds, i.pos⟩⟩

/-- Goes on if the condition holds, else fails with the error. -/
def ensure (ok : Bool) (e : Error) : Reader Unit := if ok then pure () else fail e

/-- The position. -/
def position : Reader Nat := fun _ i => ⟨[], .ok (i.pos, i)⟩

/-- The bytes that are left. -/
def remaining : Reader Bytes := fun _ i => ⟨[], .ok (i.rest, i)⟩

/-- Takes the next byte. Where there is none it is a fault. -/
def next : Reader UInt8 := fun _ i =>
  match i.rest with
  | [] => ⟨[], .error ⟨.fault .position, i.pos⟩⟩
  | x :: rest => ⟨[], .ok (x, ⟨i.pos + 1, rest⟩)⟩

/-- Takes the next `n` bytes. Where these are not all there, or end past all positions, it is a fault. -/
def slice (n : Nat) : Reader Bytes := fun _ i =>
  if i.holds n then ⟨[], .ok (i.rest.take n, ⟨i.pos + n, i.rest.drop n⟩)⟩
  else ⟨[], .error ⟨.fault .position, i.pos⟩⟩

/-- Whether at least `n` bytes are left. -/
def hasRoom (n : Nat) : Reader Bool := fun _ i => ⟨[], .ok (i.rest.hasAtLeast n, i)⟩

/-- Whether the position `n` bytes further on is one of the input. A sum past all positions wraps round to one before the input, so
it is not told from one inside. -/
def reaches (n : Nat) : Reader Bool := fun _ i =>
  ⟨[], .ok (Grammar.positionBound ≤ i.pos + n || i.rest.hasAtLeast n, i)⟩

/-- Whether a list that takes at least `n` bytes is worth reading: always, if counts are not checked. -/
def admits (n : Nat) : Reader Bool := fun p i => ⟨[], .ok (p = .unchecked || i.rest.hasAtLeast n, i)⟩

/-- Leaves an event. -/
def log (e : Event) : Reader Unit := fun _ i => ⟨[e], .ok ((), i)⟩

/-- Reads with `r`; a failure is wrapped in the context. -/
def within (c : Context) (r : Reader α) : Reader α := fun p i =>
  let o := r p i
  ⟨o.events, o.result.mapError (Stop.within c)⟩

/-- Reads with `r`; a failure gives the position back at which reading began. -/
def restoring (r : Reader α) : Reader α := fun p i =>
  let o := r p i
  ⟨o.events, o.result.mapError fun s => { s with pos := i.pos }⟩

/-- Reads with `r`; an error is wrapped in the position that is given back with it. -/
def located (r : Reader α) : Reader α := fun p i =>
  let o := r p i
  ⟨o.events, o.result.mapError fun s => s.within (.position s.pos)⟩

/-- Reads with `r`; an error of any cause becomes the given one. -/
def orElseFail (e : Error) (r : Reader α) : Reader α := fun p i =>
  let o := r p i
  ⟨o.events, o.result.mapError fun
    | ⟨.error _, pos⟩ => ⟨.error e, pos⟩
    | ⟨.fault f, pos⟩ => ⟨.fault f, pos⟩⟩

/-- Reads with `r` and gives also the number of bytes that it took. -/
def measured (r : Reader α) : Reader (α × Nat) := fun p i =>
  let o := r p i
  ⟨o.events, o.result.map fun (a, j) => ((a, j.pos - i.pos), j)⟩

/-- Reads with `r` and gives also the bytes that it took, which are cut off the input. -/
def captured (r : Reader α) : Reader (α × Bytes) := fun p i =>
  let o := r p i
  ⟨o.events, do
    let (a, j) ← o.result
    let (taken, _) ← i.splitAt j.pos
    pure ((a, taken), j)⟩

/-- Reads with `r` and takes also all the bytes after what it took, which are cut off the input. -/
def followed (r : Reader α) : Reader (α × Bytes) := fun p i =>
  let o := r p i
  ⟨o.events, do
    let (a, j) ← o.result
    let (_, left) ← i.splitAt j.pos
    pure ((a, left), ⟨i.pos + i.rest.length, []⟩)⟩

/-- Reads with `r` from the next `n` bytes alone and goes on after them, however many of them `r` took; gives also that
number. Where there are not so many bytes it is a fault. -/
def delimited (n : Nat) (r : Reader α) : Reader (α × Nat) := fun p i =>
  if i.holds n then
    let o := r p ⟨i.pos, i.rest.take n⟩
    ⟨o.events, o.result.map fun (a, j) => ((a, j.pos - i.pos), ⟨i.pos + n, i.rest.drop n⟩)⟩
  else ⟨[], .error ⟨.fault .position, i.pos⟩⟩

/-- Reads `n` entries one after the other; an error in an entry is wrapped in its name and number, which counts from `k`. -/
def entries (name : String) (r : Reader α) : (n k : Nat) → Reader (List α)
  | 0, _ => pure []
  | n + 1, k => do
    let x ← within (.item name k) r
    let xs ← entries name r n (k + 1)
    pure (x :: xs)

end Reader

end WasmInspect
