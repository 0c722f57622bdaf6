import WasmInspect.Encode
import WasmInspect.Proofs.Leb128

/-!
# How long the written forms are

Numbers of one byte, the length of a number of 32 bits, and words, which stand for themselves.
-/

namespace WasmInspect.Encode

/-- A number below 128 is one byte. -/
theorem number_of_lt {n : Nat} (h : n < 128) : number n = [.ofNat n] := by
  unfold number
  rw [Leb128.encodeUnsigned, if_pos h]

/-- A number of 32 bits is five bytes at most. -/
theorem length_number_le {n : Nat} (h : n < UInt32.size) : (number n).length ≤ 5 :=
  Leb128.length_encodeUnsigned_le (Nat.lt_of_lt_of_le h (by decide))

theorem number_toNat {x : UInt8} (h : x < 128) : number x.toNat = [x] := by
  rw [number_of_lt (UInt8.lt_iff_toNat_lt.mp h), UInt8.ofNat_toNat]

theorem list_nil {α : Type} (entry : α → Bytes) : list entry [] = [0] := by
  rw [list, List.length_nil, number_of_lt (by decide)]
  rfl

theorem list_singleton {α : Type} (entry : α → Bytes) (x : α) : list entry [x] = 1 :: entry x := by
  rw [list, List.length_singleton, number_of_lt (by decide), List.flatMap_singleton]
  rfl

/-- The bytes of a word stand for it. -/
theorem littleEndian_littleEndian {n v : Nat} (h : v < 256 ^ n) : (littleEndian n v).littleEndian = v := by
  induction n generalizing v with
  | zero =>
    rw [pow_zero] at h
    exact (Nat.lt_one_iff.mp h).symm
  | succ n ih =>
    have hlow : (UInt8.ofNat (v % 256)).toNat = v % 256 := UInt8.toNat_ofNat_of_lt' (Nat.mod_lt v (by decide))
    have hhigh : v / 256 < 256 ^ n := by
      rw [pow_succ] at h
      exact Nat.div_lt_of_lt_mul (by omega)
    simp only [littleEndian, Bytes.littleEndian, hlow, ih hhigh]
    omega

theorem length_littleEndian (n v : Nat) : (littleEndian n v).length = n := by
  induction n generalizing v with
  | zero => rfl
  | succ n ih => simp only [littleEndian, List.length_cons, ih]

/-- Entries of a byte at least take as many bytes as there are entries, or more. -/
theorem length_le_flatMap {α : Type} {entry : α → Bytes} (h : ∀ x, 0 < (entry x).length) (xs : List α) :
    xs.length ≤ (xs.flatMap entry).length := by
  induction xs with
  | nil => exact Nat.zero_le _
  | cons x xs ih =>
    have hx := h x
    rw [List.flatMap_cons, List.length_append, List.length_cons]
    omega

/-- An instruction is a byte at least. -/
theorem length_le_code (c : Code) : c.length ≤ (code c).length := by
  apply length_le_flatMap
  intro x
  rw [instruction, List.length_cons]
  exact Nat.succ_pos _

end WasmInspect.Encode
