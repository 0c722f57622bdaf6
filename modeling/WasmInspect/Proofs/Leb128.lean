import Mathlib.Tactic.Ring
import WasmInspect.Leb128.Encode

/-!
# The groups of a number

`IsNumber n g` says that the bytes `g` are those of one number of at most `n` groups; `groups` finds exactly these bytes. The
shortest groups that the encoders write are such bytes, their value is the number that was written, and no groups of the same
value are fewer.
-/

namespace WasmInspect.Leb128

/-! ## Where a number ends -/

/-- The bytes of one number of at most `n` groups: every byte but the last has its high bit set, and so may the last of `n`. -/
def IsNumber : Nat → Bytes → Prop
  | 0, g => g = []
  | _ + 1, [] => False
  | n + 1, x :: g => if x < 0x80 then g = [] else IsNumber n g

/-- The bytes that `groups` finds are those of a number at the start of the input. -/
theorem groups_eq_some_iff {n : Nat} {b g rest : Bytes} : groups n b = some (g, rest) ↔ IsNumber n g ∧ b = g ++ rest := by
  induction n generalizing b g with
  | zero =>
    simp only [groups, IsNumber, Option.some.injEq, Prod.mk.injEq]
    constructor
    · rintro ⟨rfl, rfl⟩
      exact ⟨rfl, rfl⟩
    · rintro ⟨rfl, rfl⟩
      exact ⟨rfl, rfl⟩
  | succ n ih =>
    cases b with
    | nil => cases g <;> simp [groups, IsNumber]
    | cons x b =>
      by_cases hx : x < 0x80
      · cases g with
        | nil => simp [groups, IsNumber, hx]
        | cons y g =>
          simp only [groups, hx, if_true, Option.some.injEq, Prod.mk.injEq, List.cons_append, List.cons.injEq]
          constructor
          · rintro ⟨⟨rfl, rfl⟩, rfl⟩
            exact ⟨by simp [IsNumber, hx], rfl, rfl⟩
          · rintro ⟨hg, rfl, rfl⟩
            have hnil : g = [] := by simpa [IsNumber, hx] using hg
            subst hnil
            exact ⟨⟨rfl, rfl⟩, rfl⟩
      · simp only [groups, hx, if_false, Option.map_eq_some_iff, Prod.exists, Prod.mk.injEq]
        constructor
        · rintro ⟨g', rest', hg, rfl, rfl⟩
          obtain ⟨hn, rfl⟩ := ih.mp hg
          exact ⟨by simpa [IsNumber, hx] using hn, rfl⟩
        · rintro ⟨hn, hb⟩
          cases g with
          | nil => simp [IsNumber] at hn
          | cons y g =>
            obtain ⟨rfl, rfl⟩ := List.cons.inj hb
            exact ⟨g, rest, ih.mpr ⟨by simpa [IsNumber, hx] using hn, rfl⟩, rfl, rfl⟩

theorem IsNumber.length_le {n : Nat} {g : Bytes} (h : IsNumber n g) : g.length ≤ n := by
  induction n generalizing g with
  | zero => simp [IsNumber] at h; simp [h]
  | succ n ih =>
    cases g with
    | nil => simp
    | cons x g =>
      rw [IsNumber] at h
      by_cases hx : x < 0x80
      · rw [if_pos hx] at h
        simp [h]
      · rw [if_neg hx] at h
        have := ih h
        simp only [List.length_cons]
        omega

/-- A number takes a byte, if it may take any. -/
theorem IsNumber.length_pos {n : Nat} {g : Bytes} (h : IsNumber n g) (hn : 0 < n) : 0 < g.length := by
  cases g with
  | nil =>
    cases n with
    | zero => omega
    | succ n => simp [IsNumber] at h
  | cons x g => simp

/-! ## The weight of groups -/

theorem weight_lt (g : Bytes) : weight g < 128 ^ g.length := by
  induction g with
  | nil => simp [weight]
  | cons x g ih =>
    simp only [weight, List.length_cons]
    rw [pow_succ]
    omega

/-- A byte with its high bit clear, or set, has the seven bits that it was made of. -/
theorem toNat_ofNat_low {n : Nat} (h : n < 128) : (UInt8.ofNat n).toNat = n ∧ UInt8.ofNat n < 0x80 := by
  have hn : (UInt8.ofNat n).toNat = n := by
    rw [UInt8.toNat_ofNat']
    omega
  refine ⟨hn, ?_⟩
  rw [UInt8.lt_iff_toNat_lt, hn]
  exact h

theorem toNat_ofNat_high {n : Nat} (h : n < 128) :
    (UInt8.ofNat (n + 128)).toNat = n + 128 ∧ ¬UInt8.ofNat (n + 128) < 0x80 := by
  have hn : (UInt8.ofNat (n + 128)).toNat = n + 128 := by
    rw [UInt8.toNat_ofNat']
    omega
  refine ⟨hn, ?_⟩
  rw [UInt8.lt_iff_toNat_lt, hn]
  show ¬n + 128 < 128
  omega

/-! ## Unsigned numbers -/

theorem length_encodeUnsigned_pos (v : Nat) : 0 < (encodeUnsigned v).length := by
  rw [encodeUnsigned]
  split <;> simp

/-- A number below the values of `k + 1` groups is written in no more than these. -/
theorem length_encodeUnsigned_le {v k : Nat} (h : v < 128 ^ (k + 1)) : (encodeUnsigned v).length ≤ k + 1 := by
  induction k generalizing v with
  | zero =>
    rw [encodeUnsigned, if_pos (by simpa using h)]
    simp
  | succ k ih =>
    rw [encodeUnsigned]
    by_cases hv : v < 128
    · rw [if_pos hv]
      simp
    · rw [if_neg hv, List.length_cons]
      have hdiv : v / 128 < 128 ^ (k + 1) := by
        rw [Nat.div_lt_iff_lt_mul (by decide), ← pow_succ]
        exact h
      have := ih hdiv
      omega

theorem weight_encodeUnsigned (v : Nat) : weight (encodeUnsigned v) = v := by
  fun_induction encodeUnsigned v with
  | case1 v hv =>
    simp only [weight, (toNat_ofNat_low hv).1]
    omega
  | case2 v hv ih =>
    have hm : v % 128 < 128 := Nat.mod_lt _ (by decide)
    simp only [weight, (toNat_ofNat_high hm).1, ih]
    omega

/-- What is written is read as one number by every reader that allows so many groups. -/
theorem isNumber_encodeUnsigned {v n : Nat} (h : (encodeUnsigned v).length ≤ n) : IsNumber n (encodeUnsigned v) := by
  induction n generalizing v with
  | zero =>
    have := length_encodeUnsigned_pos v
    omega
  | succ n ih =>
    rw [encodeUnsigned] at h ⊢
    by_cases hv : v < 128
    · rw [if_pos hv]
      simp [IsNumber, (toNat_ofNat_low hv).2]
    · rw [if_neg hv] at h ⊢
      have hm : v % 128 < 128 := Nat.mod_lt _ (by decide)
      rw [IsNumber, if_neg (toNat_ofNat_high hm).2]
      apply ih
      simpa using h

/-- The groups of a number are at least as many as those written for a part of its weight. -/
theorem length_encodeUnsigned_le_of_le_weight {v : Nat} {g : Bytes} (hg : 0 < g.length) (h : v ≤ weight g) :
    (encodeUnsigned v).length ≤ g.length := by
  obtain ⟨k, hk⟩ : ∃ k, g.length = k + 1 := ⟨g.length - 1, by omega⟩
  rw [hk]
  apply length_encodeUnsigned_le
  rw [← hk]
  exact Nat.lt_of_le_of_lt h (weight_lt g)

/-! ## Signed numbers -/

theorem fitsGroup_iff {v : Int} : fitsGroup v = true ↔ -64 ≤ v ∧ v < 64 := by
  simp [fitsGroup]

/-- The seven low bits of a signed number, as a byte. -/
theorem toNat_emod_lt (v : Int) : (v % 128).toNat < 128 := by
  omega

theorem length_encodeSigned_pos (v : Int) : 0 < (encodeSigned v).length := by
  rw [encodeSigned]
  split <;> simp

/-- A number among the values of `k + 1` groups is written in no more than these. -/
theorem length_encodeSigned_le {v : Int} {k : Nat} (lo : -(64 * 128 ^ k : Nat) ≤ v) (hi : v < (64 * 128 ^ k : Nat)) :
    (encodeSigned v).length ≤ k + 1 := by
  induction k generalizing v with
  | zero =>
    have hv : fitsGroup v = true := fitsGroup_iff.mpr ⟨by simpa using lo, by simpa using hi⟩
    rw [encodeSigned, dif_pos hv]
    simp
  | succ k ih =>
    rw [encodeSigned]
    by_cases hv : fitsGroup v = true
    · rw [dif_pos hv]
      simp
    · rw [dif_neg hv, List.length_cons]
      rw [pow_succ] at lo hi
      have := ih (v := v / 128) (by omega) (by omega)
      omega

/-- A number lies among the values of the groups that are written for it. -/
theorem encodeSigned_range (v : Int) :
    ∃ k, (encodeSigned v).length = k + 1 ∧ -(64 * 128 ^ k : Nat) ≤ v ∧ v < (64 * 128 ^ k : Nat) := by
  fun_induction encodeSigned v with
  | case1 v hv =>
    obtain ⟨lo, hi⟩ := fitsGroup_iff.mp hv
    exact ⟨0, rfl, by simpa using lo, by simpa using hi⟩
  | case2 v hv ih =>
    obtain ⟨k, hk, lo, hi⟩ := ih
    refine ⟨k + 1, by rw [List.length_cons, hk], ?_, ?_⟩
    · rw [pow_succ]
      omega
    · rw [pow_succ]
      omega

/-- The weight of what is written is the number, or that of the groups' values which a negative number stands for. -/
theorem weight_encodeSigned (v : Int) :
    (weight (encodeSigned v) : Int) = v + if v < 0 then ((128 ^ (encodeSigned v).length : Nat) : Int) else 0 := by
  fun_induction encodeSigned v with
  | case1 v hv =>
    obtain ⟨lo, hi⟩ := fitsGroup_iff.mp hv
    simp only [weight, (toNat_ofNat_low (toNat_emod_lt v)).1, List.length_singleton]
    omega
  | case2 v hv ih =>
    simp only [weight, (toNat_ofNat_high (toNat_emod_lt v)).1, List.length_cons]
    rw [pow_succ]
    push_cast at ih ⊢
    rw [ih]
    -- what is left has the same sign
    have hneg : v / 128 < 0 ↔ v < 0 := by omega
    by_cases hv0 : v < 0
    · rw [if_pos (hneg.mpr hv0), if_pos hv0]
      omega
    · rw [if_neg fun h => hv0 (hneg.mp h), if_neg hv0]
      omega

theorem isNumber_encodeSigned {v : Int} {n : Nat} (h : (encodeSigned v).length ≤ n) : IsNumber n (encodeSigned v) := by
  induction n generalizing v with
  | zero =>
    have := length_encodeSigned_pos v
    omega
  | succ n ih =>
    rw [encodeSigned] at h ⊢
    by_cases hv : fitsGroup v = true
    · rw [dif_pos hv]
      simp [IsNumber, (toNat_ofNat_low (toNat_emod_lt v)).2]
    · rw [dif_neg hv] at h ⊢
      rw [IsNumber, if_neg (toNat_ofNat_high (toNat_emod_lt v)).2]
      apply ih
      simpa using h

/-- The number of values of `k` groups is a power of two. -/
theorem two_pow_mul_seven (k : Nat) : 2 ^ (7 * k) = 128 ^ k := by
  rw [pow_mul]
  rfl

/-- Groups that weigh what a number of their range weighs have it as their value, if it is a number of 64 bits. -/
theorem signed_eq_of_weight {g : Bytes} {k : Nat} {v : Int} (hk : g.length = k + 1)
    (hw : (weight g : Int) = v + if v < 0 then ((128 ^ g.length : Nat) : Int) else 0) (hlo : -(64 * 128 ^ k : Nat) ≤ v)
    (hhi : v < (64 * 128 ^ k : Nat)) (lo : -0x8000000000000000 ≤ v) (hi : v < 0x8000000000000000) : signed g = v := by
  unfold signed
  show Int.bmod _ (2 ^ min (7 * g.length) 64) = v
  rw [Int.bmod_eq_iff (Nat.two_pow_pos _)]
  have hdvd : ((2 ^ min (7 * g.length) 64 : Nat) : Int) ∣ (128 ^ g.length : Nat) := by
    rw [← two_pow_mul_seven]
    exact Int.natCast_dvd_natCast.mpr (Nat.pow_dvd_pow 2 (Nat.min_le_left _ _))
  have hcong : ((2 ^ min (7 * g.length) 64 : Nat) : Int) ∣ v - weight g := by
    rw [hw, sub_add_cancel_left, Int.dvd_neg]
    by_cases hv : v < 0
    · rwa [if_pos hv]
    · rw [if_neg hv]
      exact Int.dvd_zero _
  refine ⟨?_, ?_, hcong⟩
  all_goals
    rcases Nat.le_total (7 * g.length) 64 with hle | hle
    · rw [Nat.min_eq_left hle, two_pow_mul_seven, hk, pow_succ]
      omega
    · rw [Nat.min_eq_right hle]
      omega

/-- What is written for a signed 64-bit number has its value. -/
theorem signed_encodeSigned {v : Int} (lo : -0x8000000000000000 ≤ v) (hi : v < 0x8000000000000000) :
    signed (encodeSigned v) = v := by
  obtain ⟨k, hk, hlo, hhi⟩ := encodeSigned_range v
  exact signed_eq_of_weight hk (weight_encodeSigned v) hlo hhi lo hi

/-- The value of groups lies among the values of so many groups. -/
theorem signed_range {g : Bytes} {k : Nat} (hk : g.length = k + 1) :
    -(64 * 128 ^ k : Nat) ≤ signed g ∧ signed g < (64 * 128 ^ k : Nat) := by
  have hpos : 0 < 2 ^ min (7 * g.length) 64 := Nat.two_pow_pos _
  have hle := Int.le_bmod (x := weight g) hpos
  have hlt := Int.bmod_lt (x := weight g) hpos
  have htop : 2 ^ min (7 * g.length) 64 ≤ 128 * 128 ^ k := by
    rw [← pow_succ', ← hk, ← two_pow_mul_seven]
    exact Nat.pow_le_pow_right (by decide) (Nat.min_le_left _ _)
  have heven : 2 ^ min (7 * g.length) 64 % 2 = 0 := by
    obtain ⟨e, he⟩ : ∃ e, min (7 * g.length) 64 = e + 1 := ⟨min (7 * g.length) 64 - 1, by omega⟩
    rw [he, pow_succ]
    omega
  show _ ≤ Int.bmod _ (2 ^ min (7 * g.length) 64) ∧ Int.bmod _ (2 ^ min (7 * g.length) 64) < _
  generalize 2 ^ min (7 * g.length) 64 = m at *
  constructor
  · omega
  · omega

end WasmInspect.Leb128
