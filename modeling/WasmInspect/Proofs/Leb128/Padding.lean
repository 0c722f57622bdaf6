import WasmInspect.Proofs.Leb128.Reading

/-!
# Reading back what was written, with or without padding

The shortest groups of a number are read back as this number in every width that it fits into, wherever they stand. More groups may follow
that say nothing new: groups of zeros, or of ones if the number is negative. Then the last group that was written says that another follows,
and the value is the same.
-/

namespace WasmInspect

namespace Leb128

/-- The groups, the last of which says that another follows. -/
def continued (g : Bytes) : Bytes := g.dropLast ++ (g.getLast?.map (· ||| 0x80)).toList

/-- The groups and `k` more, each with the seven bits `fill`. -/
def pad (fill : UInt8) : (k : Nat) → Bytes → Bytes
  | 0, g => g
  | k + 1, g => continued g ++ List.replicate k (fill ||| 0x80) ++ [fill]

/-- The seven bits that stand above all others of a signed number. -/
def signFill (s : Int) : UInt8 := if s < 0 then 0x7f else 0x00

/-! ## The form of padded groups -/

/-- Groups that end by themselves: all but the last say that another follows, and the last does not. -/
def Ended (g : Bytes) : Prop := ∃ h x, g = h ++ [x] ∧ (∀ y ∈ h, ¬y < 0x80) ∧ x < 0x80

/-- Such groups are a number for every reader that allows so many. -/
theorem Ended.isNumber {g : Bytes} (h : Ended g) {n : Nat} (hn : g.length ≤ n) : IsNumber n g := by
  obtain ⟨h, x, rfl, hall, hx⟩ := h
  refine isNumber_iff.mpr (Or.inr ⟨h, x, rfl, hall, hx, ?_⟩)
  rw [List.length_append, List.length_singleton] at hn
  exact hn

/-- A number of fewer groups than it may have ends by itself. -/
theorem Ended.of_isNumber {g : Bytes} {n : Nat} (h : IsNumber n g) (hn : g.length < n) : Ended g := by
  rcases isNumber_iff.mp h with ⟨_, hlen⟩ | ⟨h, x, hg, hall, hx, _⟩
  · omega
  · exact ⟨h, x, hg, hall, hx⟩

theorem ended_encodeUnsigned (v : Nat) : Ended (encodeUnsigned v) :=
  Ended.of_isNumber (isNumber_encodeUnsigned (Nat.le_succ _)) (Nat.lt_succ_self _)

theorem ended_encodeSigned (v : Int) : Ended (encodeSigned v) :=
  Ended.of_isNumber (isNumber_encodeSigned (Nat.le_succ _)) (Nat.lt_succ_self _)

theorem continued_append (h : Bytes) (x : UInt8) : continued (h ++ [x]) = h ++ [x ||| 0x80] := by
  simp [continued]

/-- A byte with its high bit set says that another group follows. -/
theorem not_or_high_lt {x : UInt8} (h : x < 0x80) : ¬x ||| 0x80 < 0x80 := by
  rw [UInt8.lt_iff_toNat_lt, toNat_or_high (UInt8.lt_iff_toNat_lt.mp h)]
  show ¬x.toNat + 128 < 128
  omega

theorem weight_or_high {x : UInt8} (h : x < 0x80) : weight [x ||| 0x80] = weight [x] := by
  simp only [weight, toNat_or_high (UInt8.lt_iff_toNat_lt.mp h)]
  omega

theorem length_pad (fill : UInt8) {g : Bytes} (hg : Ended g) (k : Nat) : (pad fill k g).length = g.length + k := by
  obtain ⟨h, x, rfl, _, _⟩ := hg
  cases k with
  | zero => rfl
  | succ k =>
    simp only [pad, continued_append, List.length_append, List.length_singleton, List.length_replicate]
    omega

/-- Padded groups end where the last one was added. -/
theorem Ended.pad {fill : UInt8} {g : Bytes} (hg : Ended g) (hfill : fill < 0x80) (k : Nat) : Ended (pad fill k g) := by
  cases k with
  | zero => exact hg
  | succ k =>
    obtain ⟨h, x, rfl, hall, hx⟩ := hg
    refine ⟨continued (h ++ [x]) ++ List.replicate k (fill ||| 0x80), fill, rfl, ?_, hfill⟩
    intro y hy
    rw [continued_append] at hy
    simp only [List.mem_append, List.mem_singleton, List.mem_replicate] at hy
    rcases hy with (hy | rfl) | ⟨_, rfl⟩
    · exact hall y hy
    · exact not_or_high_lt hx
    · exact not_or_high_lt hfill

/-! ## The value of padded groups -/

/-- The groups that are added count above all others. -/
theorem weight_pad {fill : UInt8} {g : Bytes} (hg : Ended g) (k : Nat) :
    weight (pad fill (k + 1) g) = weight g + 128 ^ g.length * weight (List.replicate k (fill ||| 0x80) ++ [fill]) := by
  obtain ⟨h, x, rfl, _, hx⟩ := hg
  rw [pad, continued_append, List.append_assoc, weight_append, weight_append, weight_or_high hx, ← weight_append, List.length_append,
    List.length_append]
  rfl

theorem weight_zeros (k : Nat) : weight (List.replicate k (0x00 ||| 0x80) ++ [0x00]) = 0 := by
  induction k with
  | zero => rfl
  | succ k ih =>
    rw [List.replicate_succ, List.cons_append, weight, ih]
    rfl

theorem weight_ones (k : Nat) : weight (List.replicate k (0x7f ||| 0x80) ++ [0x7f]) + 1 = 128 ^ (k + 1) := by
  induction k with
  | zero => rfl
  | succ k ih =>
    rw [List.replicate_succ, List.cons_append, weight, pow_succ, ← ih]
    have hlow : (0x7f ||| 0x80 : UInt8).toNat % 128 = 127 := by decide
    omega

theorem weight_pad_zero {g : Bytes} (hg : Ended g) (k : Nat) : weight (pad 0x00 k g) = weight g := by
  cases k with
  | zero => rfl
  | succ k => rw [weight_pad hg, weight_zeros, Nat.mul_zero, Nat.add_zero]

theorem signFill_lt (s : Int) : signFill s < 0x80 := by
  unfold signFill
  split <;> decide

/-- The sign of a number goes on in the groups that are added. -/
theorem weight_pad_sign (s : Int) (k : Nat) :
    (weight (pad (signFill s) k (encodeSigned s)) : Int) =
      s + if s < 0 then ((128 ^ (pad (signFill s) k (encodeSigned s)).length : Nat) : Int) else 0 := by
  have hwritten := weight_encodeSigned s
  have hended := ended_encodeSigned s
  rw [length_pad _ hended]
  cases k with
  | zero => exact hwritten
  | succ k =>
    rw [weight_pad hended]
    by_cases hs : s < 0
    · have hones := weight_ones k
      rw [if_pos hs] at hwritten ⊢
      rw [signFill, if_pos hs, pow_add, ← hones]
      push_cast at hwritten ⊢
      rw [hwritten]
      ring
    · rw [if_neg hs] at hwritten ⊢
      rw [signFill, if_neg hs, weight_zeros, Nat.mul_zero, Nat.add_zero]
      exact hwritten

/-- Padding does not change a signed number. -/
theorem signed_pad {s : Int} (lo : -0x8000000000000000 ≤ s) (hi : s < 0x8000000000000000) (k : Nat) :
    signed (pad (signFill s) k (encodeSigned s)) = s := by
  obtain ⟨n, hn, hlo, hhi⟩ := encodeSigned_range s
  have hlen : (pad (signFill s) k (encodeSigned s)).length = n + k + 1 := by
    rw [length_pad _ (ended_encodeSigned s)]
    omega
  have hle : 128 ^ n ≤ 128 ^ (n + k) := Nat.pow_le_pow_right (by decide) (Nat.le_add_right n k)
  exact signed_eq_of_weight hlen (weight_pad_sign s k) (by omega) (by omega) lo hi

theorem unsigned_pad {v : Nat} (hv : v < 2 ^ 64) (k : Nat) : unsigned (pad 0x00 k (encodeUnsigned v)) = v := by
  rw [unsigned, weight_pad_zero (ended_encodeUnsigned v), weight_encodeUnsigned]
  exact Nat.mod_eq_of_lt hv

/-! ## Widths -/

/-- The groups of a width hold all its bits. -/
theorem exists_limit_eq {bits : Nat} (hpos : 1 ≤ bits) (hbits : bits ≤ 64) :
    ∃ k, limit bits = k + 1 ∧ (bits + 6) / 7 = k + 1 ∧ bits ≤ 7 * (k + 1) := by
  have hlimit : limit bits = (bits + 6) / 7 := limit_eq (Nat.lt_of_le_of_lt hbits (by decide))
  exact ⟨(bits + 6) / 7 - 1, by omega, by omega, by omega⟩

/-- A number of some bits is written in no more groups than its width takes. -/
theorem length_encodeUnsigned_le_of_lt {bits v k : Nat} (hk : bits ≤ 7 * (k + 1)) (hv : v < 2 ^ bits) :
    (encodeUnsigned v).length ≤ k + 1 := by
  apply length_encodeUnsigned_le
  rw [← two_pow_mul_seven]
  exact Nat.lt_of_lt_of_le hv (Nat.pow_le_pow_right (by decide) hk)

theorem length_encodeSigned_le_of_lt {bits k : Nat} {s : Int} (hk : bits ≤ 7 * (k + 1)) (lo : -2 ^ (bits - 1) ≤ s) (hi : s < 2 ^ (bits - 1)) :
    (encodeSigned s).length ≤ k + 1 := by
  have hpow : 2 ^ (bits - 1) ≤ 64 * 128 ^ k := by
    have hsplit : 64 * 128 ^ k = 2 ^ (6 + 7 * k) := by
      rw [pow_add, two_pow_mul_seven]
      rfl
    rw [hsplit]
    exact Nat.pow_le_pow_right (by decide) (by omega)
  have hpow' : (2 ^ (bits - 1) : Int) ≤ (64 * 128 ^ k : Nat) := by exact_mod_cast hpow
  exact length_encodeSigned_le (by omega) (by omega)

end Leb128

/-! ## Reading back -/

namespace Cursor

open Leb128

/-- The groups of a number are found wherever they stand. -/
theorem groups_between {n : Nat} {g : Bytes} (hg : IsNumber n g) (pre suf : Bytes) :
    groups n ((pre ++ g ++ suf).drop pre.length) = some (g, suf) := by
  rw [List.append_assoc, List.drop_left]
  exact groups_eq_some_iff.mpr ⟨hg, rfl⟩

theorem unsignedAt_between {bits : Nat} {g : Bytes} (hg : IsNumber (limit bits) g) (pre suf : Bytes) :
    unsignedAt bits (pre ++ g ++ suf) pre.length = .ok (unsigned g, g.length) := by
  rw [unsignedAt_natCast, groups_between hg]

theorem signedAt_between {bits : Nat} {g : Bytes} (hg : IsNumber (limit bits) g) (pre suf : Bytes) :
    signedAt bits (pre ++ g ++ suf) pre.length = .ok (signed g, g.length) := by
  rw [signedAt_natCast, groups_between hg]

/-- Padded groups are read as the number that they were written for, as long as the width takes so many. -/
theorem unsignedAt_pad {bits v k : Nat} (hv : v < 2 ^ 64) (hk : (encodeUnsigned v).length + k ≤ limit bits) (pre suf : Bytes) :
    unsignedAt bits (pre ++ pad 0x00 k (encodeUnsigned v) ++ suf) pre.length = .ok (v, (encodeUnsigned v).length + k) := by
  have hended := ended_encodeUnsigned v
  have hlen := length_pad 0x00 hended k
  rw [unsignedAt_between ((hended.pad (by decide) k).isNumber (by omega)), unsigned_pad hv, hlen]

theorem signedAt_pad {bits k : Nat} {s : Int} (lo : -0x8000000000000000 ≤ s) (hi : s < 0x8000000000000000)
    (hk : (encodeSigned s).length + k ≤ limit bits) (pre suf : Bytes) :
    signedAt bits (pre ++ pad (signFill s) k (encodeSigned s) ++ suf) pre.length = .ok (s, (encodeSigned s).length + k) := by
  have hended := ended_encodeSigned s
  have hlen := length_pad (signFill s) hended k
  rw [signedAt_between ((hended.pad (signFill_lt s) k).isNumber (by omega)), signed_pad lo hi, hlen]

/-- In every width up to 64 bits and at every position, reading undoes writing, for all unsigned and all signed numbers of the width. The
loops over a 64-bit word write the shortest groups and no more of them than the width takes. As many groups as that may be filled up with
groups that repeat the sign. -/
theorem read_written_number (bits : Nat) (hpos : 1 ≤ bits) (hbits : bits ≤ 64) (pre suf : Bytes) (v : Nat) (hv : v < 2 ^ bits) (s : Int)
    (hlo : -2 ^ (bits - 1) ≤ s) (hhi : s < 2 ^ (bits - 1)) :
    let e := writeUnsigned (.ofNat 64 v)
    let e' := writeSigned (.ofInt 64 s)
    (e = encodeUnsigned v ∧ e' = encodeSigned s) ∧ e.length ≤ (bits + 6) / 7 ∧ e'.length ≤ (bits + 6) / 7 ∧
    unsignedAt bits (pre ++ e ++ suf) pre.length = .ok (v, e.length) ∧
    signedAt bits (pre ++ e' ++ suf) pre.length = .ok (s, e'.length) ∧
    (∀ k, e.length + k ≤ (bits + 6) / 7 → unsignedAt bits (pre ++ pad 0x00 k e ++ suf) pre.length = .ok (v, e.length + k)) ∧
    (∀ k, e'.length + k ≤ (bits + 6) / 7 → signedAt bits (pre ++ pad (signFill s) k e' ++ suf) pre.length = .ok (s, e'.length + k)) := by
  obtain ⟨k, hlimit, hceil, hk⟩ := exists_limit_eq hpos hbits
  have hv64 : v < 2 ^ 64 := Nat.lt_of_lt_of_le hv (Nat.pow_le_pow_right (by decide) hbits)
  have htop : (2 ^ (bits - 1) : Int) ≤ 2 ^ 63 := by
    have hpow : 2 ^ (bits - 1) ≤ 2 ^ 63 := Nat.pow_le_pow_right (by decide) (by omega)
    exact_mod_cast hpow
  have lo : -0x8000000000000000 ≤ s := by omega
  have hi : s < 0x8000000000000000 := by omega
  have he : writeUnsigned (.ofNat 64 v) = encodeUnsigned v := by
    rw [writeUnsigned_eq, BitVec.toNat_ofNat, Nat.mod_eq_of_lt hv64]
  have he' : writeSigned (.ofInt 64 s) = encodeSigned s := by
    rw [writeSigned_eq, BitVec.toInt_ofInt, Int.bmod_eq_of_le (by omega) (by omega)]
  have hlen := length_encodeUnsigned_le_of_lt hk hv
  have hlen' := length_encodeSigned_le_of_lt hk hlo hhi
  simp only [he, he', hceil, ← hlimit] at hlen hlen' ⊢
  refine ⟨⟨trivial, trivial⟩, hlen, hlen', ?_, ?_, fun n hn => unsignedAt_pad hv64 hn pre suf, fun n hn => signedAt_pad lo hi hn pre suf⟩
  · exact unsignedAt_pad (k := 0) hv64 hlen pre suf
  · exact signedAt_pad (k := 0) lo hi hlen' pre suf

/-- In 16 bits, with other groups around them: the largest unsigned number in as many groups as there may be, and a negative one in a single
group, to which two are added. -/
theorem read_written_number_sixteen_bits :
    let e := writeUnsigned (.ofNat 64 0xffff)
    let e' := writeSigned (.ofInt 64 (-64))
    e.length ≤ 3 ∧ unsignedAt 16 ([0x80] ++ e ++ [0x01]) 1 = .ok (0xffff, e.length) ∧
      signedAt 16 ([0x80] ++ pad 0x7f 2 e' ++ [0x01]) 1 = .ok (-64, e'.length + 2) := by
  intro e e'
  obtain ⟨⟨_, hwritten⟩, hlen, _, hread, _, _, hpadded⟩ :=
    read_written_number 16 (by decide) (by decide) [0x80] [0x01] 0xffff (by decide) (-64) (by decide) (by decide)
  have hone : (encodeSigned (-64)).length ≤ 1 := length_encodeSigned_le (k := 0) (by decide) (by decide)
  refine ⟨hlen, hread, hpadded 2 ?_⟩
  rw [hwritten]
  omega

end Cursor

end WasmInspect
