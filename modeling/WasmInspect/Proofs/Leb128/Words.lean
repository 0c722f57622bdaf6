import Mathlib.Data.Nat.Bitwise
import WasmInspect.Proofs.Leb128

/-!
# Numbers in 64-bit words

The values of LEB128 numbers are sums, and those that are written are quotients. A machine has neither: it moves bits in a 64-bit word. Here
are both directions as loops over such a word, and they come to the same.

To read, the low seven bits of each byte are put into the word, seven places above those of the byte before (`join`); bits that are moved out of
the word are lost. For a signed number the places above the last group are filled with its highest bit (`extend`). To write, the low
seven bits are taken off the word until nothing is left of it but the sign (`writeUnsigned`, `writeSigned`).
-/

namespace WasmInspect.Leb128

/-- A word of 64 bits. -/
abbrev Word : Type := BitVec 64

/-! ## Bits of a byte -/

/-- The seven low bits of a byte. -/
theorem toNat_and_low (x : UInt8) : (x &&& 0x7f).toNat = x.toNat % 128 := by
  rw [UInt8.toNat_and]
  exact Nat.and_two_pow_sub_one_eq_mod x.toNat 7

/-- The bit that is the sign of a last group. -/
theorem and_sign_eq_zero_iff {x : UInt8} : x &&& 0x40 = 0 ↔ x.toNat % 128 < 64 := by
  rw [← UInt8.toNat_inj, UInt8.toNat_and]
  show x.toNat &&& 2 ^ 6 = 0 ↔ _
  rw [Nat.and_two_pow, Nat.testBit_eq_decide_div_mod_eq]
  by_cases h : x.toNat / 2 ^ 6 % 2 = 1
  · simp only [h, decide_true, Bool.toNat_true]
    omega
  · simp only [h, decide_false, Bool.toNat_false]
    omega

/-- The bit that says that another group follows. -/
theorem and_high_eq_zero_iff {x : UInt8} : x &&& 0x80 = 0 ↔ x < 0x80 := by
  have hx := x.toNat_lt
  rw [← UInt8.toNat_inj, UInt8.toNat_and, UInt8.lt_iff_toNat_lt]
  show x.toNat &&& 2 ^ 7 = 0 ↔ x.toNat < 128
  rw [Nat.and_two_pow, Nat.testBit_eq_decide_div_mod_eq]
  by_cases h : x.toNat / 2 ^ 7 % 2 = 1
  · simp only [h, decide_true, Bool.toNat_true]
    omega
  · simp only [h, decide_false, Bool.toNat_false]
    omega

theorem toNat_or_high {x : UInt8} (h : x.toNat < 128) : (x ||| 0x80).toNat = x.toNat + 128 := by
  rw [UInt8.toNat_or, Nat.or_comm]
  show 2 ^ 7 * 1 ||| x.toNat = _
  rw [← Nat.two_pow_add_eq_or_of_lt h]
  omega

/-! ## Reading into a word -/

/-- The word after the groups are put into it, when `n` groups are there already. -/
def join : (n : Nat) → Word → Bytes → Word
  | _, v, [] => v
  | n, v, x :: g => join (n + 1) (v ||| (x &&& 0x7f).toBitVec.setWidth 64 <<< (7 * n)) g

/-- A signed word of `n` groups, by the last byte read: a set sign bit fills the places above the groups. -/
def extend (n : Nat) (last : UInt8) (v : Word) : Word :=
  if last &&& 0x40 ≠ 0 ∧ 7 * n < 64 then v ||| BitVec.allOnes 64 <<< (7 * n) else v

/-- The groups in a word. -/
def unsignedWord (g : Bytes) : Word := join 0 0 g

/-- The groups in a word that is signed. Before a byte is read, the last one counts as one that another follows. -/
def signedWord (g : Bytes) : Word := extend g.length (g.getLastD 0x80) (unsignedWord g)

/-- One group more in a word: its bits are above all those that are there, so they are added. -/
theorem toNat_or_group {n w : Nat} {v : Word} (x : UInt8) (hv : v.toNat = w % wordCount) (hw : w < 128 ^ n) :
    (v ||| (x &&& 0x7f).toBitVec.setWidth 64 <<< (7 * n)).toNat = (w + 128 ^ n * (x.toNat % 128)) % wordCount := by
  have hbits : (BitVec.setWidth 64 (x &&& 0x7f).toBitVec).toNat = x.toNat % 128 := by
    rw [BitVec.toNat_setWidth, UInt8.toNat_toBitVec, toNat_and_low]
    omega
  rw [← two_pow_mul_seven] at hw ⊢
  rw [BitVec.toNat_or, BitVec.toNat_shiftLeft, hbits, hv, Nat.shiftLeft_eq]
  show w % 2 ^ 64 ||| _ = _ % 2 ^ 64
  rw [← Nat.or_mod_two_pow, Nat.or_comm, Nat.mul_comm, ← Nat.two_pow_add_eq_or_of_lt hw, Nat.add_comm]

theorem toNat_join {n w : Nat} {v : Word} (g : Bytes) (hv : v.toNat = w % wordCount) (hw : w < 128 ^ n) :
    (join n v g).toNat = (w + 128 ^ n * weight g) % wordCount := by
  induction g generalizing n v w with
  | nil => simpa [join, weight] using hv
  | cons x g ih =>
    have hx : x.toNat % 128 ≤ 127 := Nat.le_of_lt_succ (Nat.mod_lt _ (by decide))
    have hlt : w + 128 ^ n * (x.toNat % 128) < 128 ^ (n + 1) := by
      have hmul := Nat.mul_le_mul_left (128 ^ n) hx
      rw [pow_succ]
      omega
    rw [join, ih (toNat_or_group x hv hw) hlt, weight, pow_succ]
    congr 1
    ring

/-- The word holds the unsigned value. -/
theorem toNat_unsignedWord (g : Bytes) : (unsignedWord g).toNat = unsigned g := by
  have h := toNat_join (n := 0) (w := 0) (v := 0) g rfl (by decide)
  simpa [unsignedWord, unsigned] using h

theorem weight_append (g h : Bytes) : weight (g ++ h) = weight g + 128 ^ g.length * weight h := by
  induction g with
  | nil => simp [weight]
  | cons x g ih =>
    simp only [List.cons_append, weight, ih, List.length_cons, pow_succ]
    ring

/-- The places above `k` bits of a word, filled: the bits that are moved out of the word are as many as those that are filled below. -/
theorem toNat_or_fill {k : Nat} {v : Word} (hk : k ≤ 64) (hv : v.toNat < 2 ^ k) :
    (v ||| BitVec.allOnes 64 <<< k).toNat = v.toNat + (2 ^ 64 - 2 ^ k) := by
  have hfill : (2 ^ 64 - 1) * 2 ^ k % 2 ^ 64 = 2 ^ 64 - 2 ^ k := by
    have hpos : 0 < 2 ^ k := Nat.two_pow_pos k
    have hle : 2 ^ k ≤ 2 ^ 64 := Nat.pow_le_pow_right (by decide) hk
    generalize 2 ^ k = m at *
    omega
  have hhigh : 2 ^ 64 - 2 ^ k = 2 ^ k * (2 ^ (64 - k) - 1) := by
    rw [Nat.mul_sub, ← pow_add, Nat.add_sub_cancel' hk, mul_one]
  rw [BitVec.toNat_or, BitVec.toNat_shiftLeft, BitVec.toNat_allOnes, Nat.shiftLeft_eq, hfill, hhigh, Nat.or_comm,
    ← Nat.two_pow_add_eq_or_of_lt hv, Nat.add_comm]

/-- The sign bit of the last group says whether the value is in the upper half of those of the groups. -/
theorem and_sign_ne_zero_iff_weight (h : Bytes) (x : UInt8) :
    x &&& 0x40 ≠ 0 ↔ 128 ^ (h.length + 1) ≤ 2 * weight (h ++ [x]) := by
  have hlt := weight_lt h
  have hx : weight [x] = x.toNat % 128 := by simp [weight]
  rw [Ne, and_sign_eq_zero_iff, weight_append, hx, pow_succ]
  generalize x.toNat % 128 = y
  generalize 128 ^ h.length = m at *
  constructor
  · intro hy
    have hmul : m * 64 ≤ m * y := Nat.mul_le_mul_left m (by omega)
    omega
  · intro hm hy
    have hmul : m * (y + 1) ≤ m * 64 := Nat.mul_le_mul_left m (by omega)
    rw [Nat.mul_add] at hmul
    omega

/-- A number in the upper half stands for a negative one. -/
theorem bmod_eq_sub_of_le {w m : Nat} (hhalf : m ≤ 2 * w) (hlt : w < m) : Int.bmod w m = w - m := by
  rw [Int.bmod_eq_iff (by omega)]
  refine ⟨by omega, by omega, -1, by omega⟩

/-- The signed word holds the signed value. -/
theorem toInt_signedWord (g : Bytes) : (signedWord g).toInt = signed g := by
  have hword := toNat_unsignedWord g
  rw [signedWord, signed]
  show (extend _ _ _).toInt = Int.bmod _ (2 ^ _)
  rcases g.eq_nil_or_concat with rfl | ⟨h, x, rfl⟩
  · rfl
  · rw [List.concat_eq_append] at *
    have hlast : (h ++ [x]).getLastD 0x80 = x := by simp
    rw [hlast, extend, BitVec.toInt_eq_toNat_bmod]
    have hlen : (h ++ [x]).length = h.length + 1 := by simp
    by_cases hle : 7 * (h ++ [x]).length < 64
    · -- all groups are inside of the word, and the sign decides what stands above them
      have hlt := weight_lt (h ++ [x])
      have htop : 2 ^ (7 * (h ++ [x]).length) ≤ 2 ^ 63 := Nat.pow_le_pow_right (by decide) (by omega)
      rw [← two_pow_mul_seven] at hlt
      have hvalue : (unsignedWord (h ++ [x])).toNat = weight (h ++ [x]) := by
        rw [hword, unsigned, Nat.mod_eq_of_lt (Nat.lt_of_lt_of_le hlt (Nat.le_trans htop (by decide)))]
      have hsign := and_sign_ne_zero_iff_weight h x
      rw [← hlen, ← two_pow_mul_seven] at hsign
      rw [Nat.min_eq_left (by omega)]
      by_cases hx : x &&& 0x40 ≠ 0
      · have hhalf := hsign.mp hx
        rw [if_pos ⟨hx, hle⟩, toNat_or_fill (by omega) (by rwa [hvalue]), hvalue]
        generalize 2 ^ (7 * (h ++ [x]).length) = m at *
        rw [bmod_eq_sub_of_le hhalf hlt]
        rw [Int.bmod_eq_iff (by decide)]
        omega
      · have hhalf : ¬2 ^ (7 * (h ++ [x]).length) ≤ 2 * weight (h ++ [x]) := fun hle => hx (hsign.mpr hle)
        rw [if_neg fun hx' => hx hx'.1, hvalue, Int.bmod_eq_of_le (by omega) (by omega), Int.bmod_eq_of_le (by omega) (by omega)]
    · -- the word is full
      have hfull : ¬(x &&& 0x40 ≠ 0 ∧ 7 * (h ++ [x]).length < 64) := fun hx => hle hx.2
      rw [if_neg hfull, hword, unsigned, Nat.min_eq_right (by omega)]
      rw [Int.natCast_mod]
      exact Int.emod_bmod _ _

/-! ## Writing out of a word -/

/-- The low byte of a word. -/
def lowByte (v : Word) : UInt8 := ⟨v.setWidth 8⟩

theorem toNat_lowByte (v : Word) : (lowByte v).toNat = v.toNat % 256 := by
  rw [lowByte]
  exact BitVec.toNat_setWidth 8 v

theorem toNat_ushiftRight (v : Word) : (v >>> 7).toNat = v.toNat / 128 := by
  rw [BitVec.toNat_ushiftRight, Nat.shiftRight_eq_div_pow]

/-- The shift of a signed word keeps its sign. -/
theorem toInt_sshiftRight (v : Word) : (v.sshiftRight 7).toInt = v.toInt / 128 := by
  rw [BitVec.toInt_sshiftRight, Int.shiftRight_eq_div_pow]
  rfl

theorem ushiftRight_eq_zero_iff {v : Word} : v >>> 7 = 0 ↔ v.toNat < 128 := by
  rw [← BitVec.toNat_inj, toNat_ushiftRight]
  show v.toNat / 128 = 0 ↔ _
  omega

/-- The low seven bits of a word are written until nothing is left of it. A byte is marked if another one follows. -/
def writeUnsigned (v : Word) : Bytes :=
  if v >>> 7 = 0 then [lowByte v &&& 0x7f] else (lowByte v &&& 0x7f ||| 0x80) :: writeUnsigned (v >>> 7)
termination_by v.toNat
decreasing_by
  rename_i h
  rw [ushiftRight_eq_zero_iff] at h
  rw [toNat_ushiftRight]
  omega

/-- Whether something is left of a signed word after its low seven bits: more than the sign, which is the highest of these. -/
def hasMore (v : Word) : Bool :=
  lowByte v &&& 0x40 = 0 && v.sshiftRight 7 ≠ 0 || lowByte v &&& 0x40 ≠ 0 && v.sshiftRight 7 ≠ -1

/-- Something is left exactly when the number does not fit into one group. -/
theorem hasMore_iff {v : Word} : hasMore v = true ↔ fitsGroup v.toInt = false := by
  have hzero : v.sshiftRight 7 = 0 ↔ v.toInt / 128 = 0 := by
    rw [← BitVec.toInt_inj, toInt_sshiftRight]
    rfl
  have hones : v.sshiftRight 7 = -1 ↔ v.toInt / 128 = -1 := by
    rw [← BitVec.toInt_inj, toInt_sshiftRight]
    rfl
  have hsign : lowByte v &&& 0x40 = 0 ↔ v.toInt % 128 < 64 := by
    have hmod := BitVec.toInt_eq_toNat_cond v
    rw [and_sign_eq_zero_iff, toNat_lowByte]
    omega
  rw [hasMore, ← Bool.not_eq_true, fitsGroup_iff]
  simp only [Bool.or_eq_true, Bool.and_eq_true, decide_eq_true_eq, hzero, hones, hsign, Ne]
  omega

/-- The low seven bits of a signed word are written until nothing is left of it but the sign. -/
def writeSigned (v : Word) : Bytes :=
  if hasMore v then (lowByte v &&& 0x7f ||| 0x80) :: writeSigned (v.sshiftRight 7) else [lowByte v &&& 0x7f]
termination_by v.toInt.natAbs
decreasing_by
  rename_i h
  rw [hasMore_iff, ← Bool.not_eq_true, fitsGroup_iff] at h
  rw [toInt_sshiftRight]
  omega

/-- The byte that is written for a group which is not the last, and for one that is. -/
theorem lowByte_eq {v : Word} {n : Nat} (hn : n = v.toNat % 128) :
    lowByte v &&& 0x7f = .ofNat n ∧ lowByte v &&& 0x7f ||| 0x80 = .ofNat (n + 128) := by
  subst hn
  have hlow : (lowByte v &&& 0x7f).toNat = v.toNat % 128 := by
    rw [toNat_and_low, toNat_lowByte]
    omega
  have hm : v.toNat % 128 < 128 := Nat.mod_lt _ (by decide)
  constructor
  · rw [← UInt8.toNat_inj, hlow, (toNat_ofNat_low hm).1]
  · rw [← UInt8.toNat_inj, toNat_or_high (by omega), hlow, (toNat_ofNat_high hm).1]

/-- The loop writes the shortest groups of the number in the word. -/
theorem writeUnsigned_eq (v : Word) : writeUnsigned v = encodeUnsigned v.toNat := by
  fun_induction writeUnsigned v with
  | case1 v hv =>
    rw [ushiftRight_eq_zero_iff] at hv
    rw [encodeUnsigned, if_pos hv, (lowByte_eq (Nat.mod_eq_of_lt hv).symm).1]
  | case2 v hv ih =>
    rw [ushiftRight_eq_zero_iff] at hv
    rw [encodeUnsigned, if_neg hv, (lowByte_eq rfl).2, ih, toNat_ushiftRight]

theorem writeSigned_eq (v : Word) : writeSigned v = encodeSigned v.toInt := by
  have hlow : ∀ v : Word, (v.toInt % 128).toNat = v.toNat % 128 := by
    intro v
    have hmod := BitVec.toInt_eq_toNat_cond v
    omega
  fun_induction writeSigned v with
  | case1 v hv ih =>
    rw [hasMore_iff, ← Bool.not_eq_true] at hv
    rw [encodeSigned, dif_neg hv, (lowByte_eq (hlow v)).2, ih, toInt_sshiftRight]
  | case2 v hv =>
    rw [hasMore_iff, Bool.not_eq_false] at hv
    rw [encodeSigned, dif_pos hv, (lowByte_eq (hlow v)).1]

end WasmInspect.Leb128
