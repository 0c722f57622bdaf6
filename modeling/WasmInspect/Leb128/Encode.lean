import WasmInspect.Leb128

/-!
# Writing LEB128 integers

The shortest groups that stand for a number: each byte but the last has its high bit set, and the number ends as soon as the
groups written say all of it. For a signed number this takes a last group whose highest bit is the sign.
-/

namespace WasmInspect.Leb128

/-- The shortest groups of an unsigned number. -/
def encodeUnsigned (n : Nat) : Bytes :=
  if n < 128 then [.ofNat n] else .ofNat (n % 128 + 128) :: encodeUnsigned (n / 128)
termination_by n
decreasing_by omega

/-- Whether the low seven bits of a signed number say all of it: what is above them repeats the highest of them. -/
def fitsGroup (i : Int) : Bool := -64 ≤ i && i < 64

/-- The shortest groups of a signed number. -/
def encodeSigned (i : Int) : Bytes :=
  if h : fitsGroup i then [.ofNat (i % 128).toNat] else .ofNat ((i % 128).toNat + 128) :: encodeSigned (i / 128)
termination_by i.natAbs
decreasing_by
  simp only [fitsGroup, Bool.and_eq_true, decide_eq_true_eq] at h
  omega

end WasmInspect.Leb128
