import Mathlib.Algebra.BigOperators.Ring.Finset
import Mathlib.Data.Int.ModEq
import Mathlib.Order.Bounds.Basic
import WasmInspect.Proofs.Leb128.Words
import WasmInspect.Proofs.Locality

/-!
# Which number stands at a position

A LEB128 number at a position is told from the bytes alone: when there is none because the bytes end first, how many bytes it takes, and its
value, as a sum over these bytes. The readers of numbers of fixed widths cut this value to their width.
-/

namespace WasmInspect

namespace Leb128

/-! ## Where a number ends -/

/-- The byte at a position is there and says that another group follows. -/
def ContinuesAt (b : Bytes) (pos : Nat) : Prop := ∃ x, b[pos]? = some x ∧ x &&& 0x80 ≠ 0

/-- The byte at a position is there and ends a number. -/
def EndsAt (b : Bytes) (pos : Nat) : Prop := ∃ x, b[pos]? = some x ∧ x < 0x80

/-- The bytes end inside of the number at a position, which may take `lim` bytes: there is no byte after `j` of them, and each of these says that
another one follows. -/
def CutShort (b : Bytes) (st lim : Nat) : Prop := ∃ j < lim, b.length ≤ st + j ∧ ∀ k < j, ContinuesAt b (st + k)

/-- The number at a position takes `n` bytes of `lim`: up to the first one that ends it, or all. -/
def TakesBytes (b : Bytes) (st lim n : Nat) : Prop :=
  IsLeast {k | 1 ≤ k ∧ k ≤ lim ∧ EndsAt b (st + k - 1)} n ∨ (∀ k, 1 ≤ k → k ≤ lim → ¬EndsAt b (st + k - 1)) ∧ n = lim

/-- A number is made of bytes that others follow, as many as it may take, or of fewer such bytes and one that ends it. -/
theorem isNumber_iff {n : Nat} {g : Bytes} :
    IsNumber n g ↔ ((∀ x ∈ g, ¬x < 0x80) ∧ g.length = n) ∨
      ∃ h x, g = h ++ [x] ∧ (∀ y ∈ h, ¬y < 0x80) ∧ x < 0x80 ∧ h.length < n := by
  induction n generalizing g with
  | zero =>
    rw [IsNumber]
    constructor
    · rintro rfl
      exact Or.inl ⟨by simp, rfl⟩
    · rintro (⟨_, hlen⟩ | ⟨_, _, _, _, _, hlt⟩)
      · exact List.eq_nil_of_length_eq_zero hlen
      · exact absurd hlt (Nat.not_lt_zero _)
  | succ n ih =>
    cases g with
    | nil => simp [IsNumber]
    | cons x g =>
      rw [IsNumber]
      by_cases hx : x < 0x80
      · rw [if_pos hx]
        constructor
        · rintro rfl
          exact Or.inr ⟨[], x, rfl, by simp, hx, Nat.succ_pos n⟩
        · rintro (⟨hall, _⟩ | ⟨h, y, heq, hall, _, _⟩)
          · exact absurd hx (hall x List.mem_cons_self)
          · cases h with
            | nil => simpa using (List.cons.inj heq).2
            | cons z h =>
              obtain ⟨rfl, _⟩ := List.cons.inj heq
              exact absurd hx (hall x List.mem_cons_self)
      · rw [if_neg hx, ih]
        constructor
        · rintro (⟨hall, hlen⟩ | ⟨h, y, rfl, hall, hy, hlt⟩)
          · exact Or.inl ⟨List.forall_mem_cons.mpr ⟨hx, hall⟩, by simp [hlen]⟩
          · exact Or.inr ⟨x :: h, y, rfl, List.forall_mem_cons.mpr ⟨hx, hall⟩, hy, Nat.succ_lt_succ hlt⟩
        · rintro (⟨hall, hlen⟩ | ⟨h, y, heq, hall, hy, hlt⟩)
          · exact Or.inl ⟨(List.forall_mem_cons.mp hall).2, Nat.succ.inj hlen⟩
          · cases h with
            | nil =>
              obtain ⟨rfl, _⟩ := List.cons.inj heq
              exact absurd hy hx
            | cons z h =>
              obtain ⟨rfl, rfl⟩ := List.cons.inj heq
              exact Or.inr ⟨h, y, rfl, (List.forall_mem_cons.mp hall).2, hy, Nat.lt_of_succ_lt_succ hlt⟩

theorem continuesAt_iff {b : Bytes} {pos : Nat} : ContinuesAt b pos ↔ ∃ x, b[pos]? = some x ∧ ¬x < 0x80 := by
  simp only [ContinuesAt, Ne, and_high_eq_zero_iff]

/-- There is no number exactly if the bytes end inside of it. -/
theorem groups_eq_none_iff {n : Nat} {b : Bytes} : groups n b = none ↔ CutShort b 0 n := by
  induction n generalizing b with
  | zero => simp [groups, CutShort]
  | succ n ih =>
    cases b with
    | nil =>
      simp only [groups, CutShort, true_iff]
      exact ⟨0, Nat.succ_pos n, by simp, by simp⟩
    | cons x b =>
      by_cases hx : x < 0x80
      · simp only [groups, hx, if_true, reduceCtorEq, false_iff]
        rintro ⟨j, _, hlen, hall⟩
        cases j with
        | zero => simp at hlen
        | succ j =>
          obtain ⟨y, hy, hhigh⟩ := continuesAt_iff.mp (hall 0 (Nat.succ_pos j))
          simp only [Nat.zero_add, List.getElem?_cons_zero, Option.some.injEq] at hy
          exact hhigh (hy ▸ hx)
      · simp only [groups, hx, if_false, Option.map_eq_none_iff, ih, CutShort, continuesAt_iff, Nat.zero_add]
        constructor
        · rintro ⟨j, hj, hlen, hall⟩
          refine ⟨j + 1, Nat.succ_lt_succ hj, by simpa using hlen, fun k hk => ?_⟩
          cases k with
          | zero => exact ⟨x, rfl, hx⟩
          | succ k => exact hall k (Nat.lt_of_succ_lt_succ hk)
        · rintro ⟨j, hj, hlen, hall⟩
          cases j with
          | zero => simp at hlen
          | succ j =>
            refine ⟨j, Nat.lt_of_succ_lt_succ hj, by simpa using hlen, fun k hk => ?_⟩
            exact hall (k + 1) (Nat.succ_lt_succ hk)

theorem cutShort_drop {b : Bytes} {st n : Nat} : CutShort (b.drop st) 0 n ↔ CutShort b st n := by
  simp only [CutShort, ContinuesAt, List.length_drop, List.getElem?_drop, Nat.zero_add, Nat.sub_le_iff_le_add, Nat.add_comm st]

/-- The bytes of a number are those at its position. -/
theorem getElem?_of_drop {b g rest : Bytes} {st k : Nat} (hb : b.drop st = g ++ rest) (hk : k < g.length) : b[st + k]? = g[k]? := by
  rw [← List.getElem?_drop, hb, List.getElem?_append_left hk]

/-- The bytes of a number are as many as those up to the first one that ends it, or as many as it may take. -/
theorem takesBytes_of_isNumber {n : Nat} {b g rest : Bytes} {st : Nat} (hg : IsNumber n g) (hb : b.drop st = g ++ rest) :
    TakesBytes b st n g.length := by
  rcases isNumber_iff.mp hg with ⟨hall, hlen⟩ | ⟨h, x, rfl, hall, hx, hlt⟩
  · refine Or.inr ⟨fun k hk hkn => ?_, hlen⟩
    obtain ⟨k, rfl⟩ : ∃ j, k = j + 1 := ⟨k - 1, by omega⟩
    rintro ⟨x, hget, hx⟩
    rw [← Nat.add_assoc, Nat.add_sub_cancel, getElem?_of_drop hb (by omega)] at hget
    exact hall x (List.mem_of_getElem? hget) hx
  · have hlast : b[st + h.length]? = some x := by
      rw [getElem?_of_drop hb (by simp)]
      simp
    refine Or.inl ⟨⟨by simp, by simpa using Nat.succ_le_of_lt hlt, x, ?_, hx⟩, ?_⟩
    · simpa [← Nat.add_assoc] using hlast
    · -- a byte before the last one does not end the number
      rintro k ⟨hk, _, y, hget, hy⟩
      obtain ⟨k, rfl⟩ : ∃ j, k = j + 1 := ⟨k - 1, by omega⟩
      rw [← Nat.add_assoc, Nat.add_sub_cancel] at hget
      by_contra hbefore
      have hlt' : k < h.length := by
        simp only [List.length_append, List.length_singleton] at hbefore
        omega
      rw [getElem?_of_drop hb (by simp; omega), List.getElem?_append_left hlt'] at hget
      exact hall y (List.mem_of_getElem? hget) hy

/-! ## The value of a number -/

theorem weight_eq_sum (g : Bytes) : weight g = ∑ j ∈ Finset.range g.length, (g.getD j 0).toNat % 128 * 128 ^ j := by
  induction g with
  | nil => rfl
  | cons x g ih =>
    rw [weight, ih, List.length_cons, Finset.sum_range_succ', Finset.mul_sum, Nat.add_comm]
    congr 1
    · refine Finset.sum_congr rfl fun j _ => ?_
      simp only [List.getD_cons_succ, pow_succ]
      ring
    · simp

/-- The value of a number is a sum over the bytes at its position. -/
theorem weight_eq_sum_of_drop {b g rest : Bytes} {st : Nat} (hb : b.drop st = g ++ rest) :
    weight g = ∑ j ∈ Finset.range g.length, (b.getD (st + j) 0).toNat % 128 * 128 ^ j := by
  rw [weight_eq_sum]
  refine Finset.sum_congr rfl fun j hj => ?_
  rw [List.getD_eq_getElem?_getD, List.getD_eq_getElem?_getD, getElem?_of_drop hb (Finset.mem_range.mp hj)]

/-- The signed value is the one number among those of its width that agrees with the unsigned one. -/
theorem eq_signed_iff {g : Bytes} (hg : 0 < g.length) (t : Int) :
    t = signed g ↔ -2 ^ (min (7 * g.length) 64 - 1) ≤ t ∧ t < 2 ^ (min (7 * g.length) 64 - 1) ∧
      t ≡ unsigned g [ZMOD 2 ^ min (7 * g.length) 64] := by
  obtain ⟨e, he⟩ : ∃ e, min (7 * g.length) 64 = e + 1 := ⟨min (7 * g.length) 64 - 1, by omega⟩
  have hdvd : (2 ^ (e + 1) : Int) ∣ wordCount := by
    have hpow : 2 ^ (e + 1) ∣ 2 ^ 64 := Nat.pow_dvd_pow 2 (by omega)
    exact_mod_cast hpow
  -- what the unsigned value lost is no part of the width
  have hmod : (unsigned g : Int) ≡ weight g [ZMOD 2 ^ (e + 1)] := by
    refine Int.ModEq.of_dvd hdvd ?_
    rw [unsigned, Int.natCast_mod]
    exact Int.mod_modEq _ _
  have hbmod : signed g = Int.bmod (weight g) (2 ^ (e + 1)) := by
    rw [signed, he]
    rfl
  rw [he, Nat.add_sub_cancel, eq_comm, hbmod, Int.bmod_eq_iff (Nat.two_pow_pos _)]
  have hhalf : ((2 ^ (e + 1) : Nat) : Int) / 2 = 2 ^ e ∧ (((2 ^ (e + 1) : Nat) : Int) + 1) / 2 = 2 ^ e := by
    push_cast
    rw [pow_succ]
    omega
  rw [hhalf.1, hhalf.2]
  refine and_congr_right fun _ => and_congr_right fun _ => ?_
  constructor
  · intro h
    have hcong : (weight g : Int) ≡ t [ZMOD 2 ^ (e + 1)] := by
      refine Int.modEq_iff_dvd.mpr ?_
      exact_mod_cast h
    exact (hmod.trans hcong).symm
  · intro h
    have hcong := Int.modEq_iff_dvd.mp (h.trans hmod).symm
    exact_mod_cast hcong

/-- The signed value is a number of 64 bits. -/
theorem bmod_signed (g : Bytes) : (signed g).bmod (2 ^ 64) = signed g := by
  have hpos : 0 < 2 ^ min (7 * g.length) 64 := Nat.two_pow_pos _
  have hle := Int.le_bmod (x := weight g) hpos
  have hlt := Int.bmod_lt (x := weight g) hpos
  have htop : 2 ^ min (7 * g.length) 64 ≤ 2 ^ 64 := Nat.pow_le_pow_right (by decide) (Nat.min_le_right _ _)
  show Int.bmod (Int.bmod _ (2 ^ min (7 * g.length) 64)) (2 ^ 64) = Int.bmod _ (2 ^ min (7 * g.length) 64)
  generalize 2 ^ min (7 * g.length) 64 = m at *
  exact Int.bmod_eq_of_le (by omega) (by omega)

/-- The most bytes of a number are its bits in groups of seven, rounded up, as long as that does not wrap. -/
theorem limit_eq {bits : Nat} (h : bits < lengthBound) : limit bits = (bits + 6) / 7 := by
  rw [limit, Nat.mod_eq_of_lt (Nat.lt_trans (Nat.add_lt_add_right h 6) (by decide))]
  exact if_pos (by simp only [lengthBound, wordCount] at *; omega)

/-- The number that stands at a position and may take `lim` bytes: how many it takes, its unsigned and its signed value. -/
structure NumberAt (b : Bytes) (st lim n u : Nat) (s : Int) : Prop where
  takes : TakesBytes b st lim n
  unsigned_eq : u = (∑ j ∈ Finset.range n, (b.getD (st + j) 0).toNat % 128 * 128 ^ j) % 2 ^ 64
  signed_zero : n = 0 → s = 0
  /-- The signed value is the only number of so many bits that agrees with the unsigned one in these. -/
  signed_unique : 0 < n → ∀ t : Int, t = s ↔ -2 ^ (min (7 * n) 64 - 1) ≤ t ∧ t < 2 ^ (min (7 * n) 64 - 1) ∧ t ≡ u [ZMOD 2 ^ min (7 * n) 64]
  /-- Both are what the bits come to that are moved into a 64-bit word. -/
  words : (unsignedWord ((b.drop st).take n)).toNat = u ∧ (signedWord ((b.drop st).take n)).toInt = s

theorem numberAt_of_isNumber {n : Nat} {b g rest : Bytes} {st : Nat} (hg : IsNumber n g) (hb : b.drop st = g ++ rest) :
    NumberAt b st n g.length (unsigned g) (signed g) where
  takes := takesBytes_of_isNumber hg hb
  unsigned_eq := by
    rw [unsigned, weight_eq_sum_of_drop hb]
    rfl
  signed_zero h := by
    rw [List.eq_nil_of_length_eq_zero h]
    rfl
  signed_unique := eq_signed_iff
  words := by
    rw [hb, List.take_left]
    exact ⟨toNat_unsignedWord g, toInt_signedWord g⟩

end Leb128

/-! ## Reading at a position -/

namespace Cursor

open Reader Grammar

variable {α β γ : Type} {b : Bytes} {st bits : Nat}

/-- A read at `st` comes to what is found there: the value found and the value read agree, and the read ends after the bytes that were taken; or
both fail alike, and the position stays. -/
def Follows (st : Nat) (found : Except Failure (α × Nat)) (read : Located β) (Agree : α → β → Prop) : Prop :=
  match found with
  | .ok (v, n) => ∃ w, read = ⟨(st + n : Nat), .ok w⟩ ∧ Agree v w
  | .error f => read = ⟨st, .error f⟩

/-- The groups of a number are read where they stand. -/
theorem readAt_leb128 (bits : Nat) (b : Bytes) (st : Nat) (f : Bytes → α) :
    readAt (restoring (leb128 bits >>= fun g => pure (f g))) b st = match Leb128.groups (Leb128.limit bits) (b.drop st) with
      | some (g, _) => ⟨(st + g.length : Nat), .ok (f g)⟩
      | none => ⟨st, .error (.error (.ofCause .outOfBounds))⟩ := by
  have hgroups := groups_eq (Leb128.limit bits) .checked ⟨st, b.drop st⟩
  rw [readAt, inputAt_natCast]
  simp only [restoring, result_bind_pure, leb128, Input.at, hgroups]
  cases Leb128.groups (Leb128.limit bits) (b.drop st) with
  | none => simp [Except.map, mapError_error]
  | some v => rfl

/-- A read whose value is only changed ends where it did before. -/
theorem readAt_bind_pure (r : Reader α) (f : α → β) (b : Bytes) (st : Int) :
    readAt (r >>= fun a => pure (f a)) b st = ⟨(readAt r b st).pos, (readAt r b st).result.map f⟩ := by
  simp only [readAt, result_bind_pure]
  cases (r .checked (inputAt b st)).result <;> rfl

theorem Follows.bind_pure {found : Except Failure (α × Nat)} {r : Reader β} {f : β → γ} {Agree : α → β → Prop} {Agree' : α → γ → Prop}
    (h : Follows st found (readAt r b st) Agree) (hf : ∀ v w, Agree v w → Agree' v (f w)) :
    Follows st found (readAt (r >>= fun w => pure (f w)) b st) Agree' := by
  rw [readAt_bind_pure]
  cases found with
  | error e =>
    rw [show readAt r b st = _ from h]
    rfl
  | ok v =>
    obtain ⟨w, hread, hagree⟩ := h
    rw [hread]
    exact ⟨f w, rfl, hf _ _ hagree⟩

theorem Follows.mono {found : Except Failure (α × Nat)} {read : Located β} {Agree Agree' : α → β → Prop} (h : Follows st found read Agree)
    (hf : ∀ v w, Agree v w → Agree' v w) : Follows st found read Agree' := by
  cases found with
  | error e => exact h
  | ok v =>
    obtain ⟨w, hread, hagree⟩ := h
    exact ⟨w, hread, hf _ _ hagree⟩

theorem unsignedAt_natCast (bits : Nat) (b : Bytes) (st : Nat) :
    unsignedAt bits b st = match Leb128.groups (Leb128.limit bits) (b.drop st) with
      | some (g, _) => .ok (Leb128.unsigned g, g.length)
      | none => .error (.error (.ofCause .outOfBounds)) := by
  rw [unsignedAt, if_neg (by omega), Int.toNat_natCast, Leb128.readUnsigned]
  cases Leb128.groups (Leb128.limit bits) (b.drop st) <;> rfl

theorem signedAt_natCast (bits : Nat) (b : Bytes) (st : Nat) :
    signedAt bits b st = match Leb128.groups (Leb128.limit bits) (b.drop st) with
      | some (g, _) => .ok (Leb128.signed g, g.length)
      | none => .error (.error (.ofCause .outOfBounds)) := by
  rw [signedAt, if_neg (by omega), Int.toNat_natCast, Leb128.readSigned]
  cases Leb128.groups (Leb128.limit bits) (b.drop st) <;> rfl

/-- A number of any width is read as it is found, and fits into 64 bits. -/
theorem follows_varuint (bits : Nat) (b : Bytes) (st : Nat) :
    Follows st (unsignedAt bits b st) (readAt (varuint bits) b st) fun v w => w = v ∧ v % 2 ^ 64 = v := by
  rw [unsignedAt_natCast, varuint, readAt_leb128]
  cases Leb128.groups (Leb128.limit bits) (b.drop st) with
  | none => rfl
  | some v => exact ⟨_, rfl, rfl, Nat.mod_mod _ _⟩

theorem follows_varint (bits : Nat) (b : Bytes) (st : Nat) :
    Follows st (signedAt bits b st) (readAt (varint bits) b st) fun v w => w = v ∧ v.bmod (2 ^ 64) = v := by
  rw [signedAt_natCast, varint, readAt_leb128]
  cases Leb128.groups (Leb128.limit bits) (b.drop st) with
  | none => rfl
  | some v => exact ⟨_, rfl, rfl, Leb128.bmod_signed _⟩

theorem follows_varuint32 (b : Bytes) (st : Nat) :
    Follows st (unsignedAt 32 b st) (readAt varuint32 b st) fun v w => w.toNat = v % 2 ^ 32 :=
  (follows_varuint 32 b st).bind_pure fun v w h => by rw [h.1, UInt32.toNat_ofNat']

/-- What stands at a position, read in each of the widths that have a production: the value is cut to the width. -/
structure ReadsInWidths (b : Bytes) (st : Nat) : Prop where
  varuint1 : Follows st (unsignedAt 1 b st) (readAt Production.varuint1.read b st) fun v w => w.toNat = v % 2 ^ 8
  varuint7 : Follows st (unsignedAt 7 b st) (readAt Production.varuint7.read b st) fun v w => w.toNat = v % 2 ^ 8
  varuint32 : Follows st (unsignedAt 32 b st) (readAt Production.varuint32.read b st) fun v w => w.toNat = v % 2 ^ 32
  varuint64 : Follows st (unsignedAt 64 b st) (readAt Production.varuint64.read b st) fun v w => w.toNat = v
  count : Follows st (unsignedAt 32 b st) (readAt Production.count.read b st) fun v w => w = v % 2 ^ 32
  varint7 : Follows st (signedAt 7 b st) (readAt Production.varint7.read b st) fun v w => w.toInt = v.bmod (2 ^ 8)
  varint16 : Follows st (signedAt 16 b st) (readAt Production.varint16.read b st) fun v w => w.toInt = v.bmod (2 ^ 16)
  varint32 : Follows st (signedAt 32 b st) (readAt Production.varint32.read b st) fun v w => w.toInt = v.bmod (2 ^ 32)
  varint64 : Follows st (signedAt 64 b st) (readAt Production.varint64.read b st) fun v w => w.toInt = v

/-- The readers of fixed widths read what stands there and cut it. -/
theorem readsInWidths (b : Bytes) (st : Nat) : ReadsInWidths b st where
  varuint1 := (follows_varuint 1 b st).bind_pure fun v w h => by rw [h.1, UInt8.toNat_ofNat']
  varuint7 := (follows_varuint 7 b st).bind_pure fun v w h => by rw [h.1, UInt8.toNat_ofNat']
  varuint32 := follows_varuint32 b st
  varuint64 := (follows_varuint 64 b st).bind_pure fun v w h => by rw [h.1, UInt64.toNat_ofNat', h.2]
  count := (follows_varuint32 b st).bind_pure fun v w h => h
  varint7 := (follows_varint 7 b st).bind_pure fun v w h => by rw [h.1]; exact Int8.toInt_ofInt
  varint16 := (follows_varint 16 b st).bind_pure fun v w h => by rw [h.1]; exact Int16.toInt_ofInt
  varint32 := (follows_varint 32 b st).bind_pure fun v w h => by rw [h.1]; exact Int32.toInt_ofInt
  varint64 := (follows_varint 64 b st).bind_pure fun v w h => by rw [h.1]; exact Int64.toInt_ofInt.trans h.2

/-- A number of any width at any position. If the bytes end inside of it, it is out of bounds. Otherwise it is the number that stands there: its
bytes up to the first below `0x80`, or as many as the width takes, their sum in 64 bits, and the number that these bits stand for with a
sign. The readers of productions give the same number, cut to their width, and end after it. -/
theorem number_at_any_position (b : Bytes) (st bits : Nat) (hbits : bits < lengthBound) :
    (Leb128.CutShort b st ((bits + 6) / 7) →
      unsignedAt bits b st = .error (.error (.ofCause .outOfBounds)) ∧
        signedAt bits b st = .error (.error (.ofCause .outOfBounds))) ∧
    (¬Leb128.CutShort b st ((bits + 6) / 7) →
      ∃ n u s, Leb128.NumberAt b st ((bits + 6) / 7) n u s ∧ unsignedAt bits b st = .ok (u, n) ∧ signedAt bits b st = .ok (s, n)) ∧
    Follows st (unsignedAt bits b st) (Item.readAt b st (.varuint bits)) (fun v w => w = v) ∧
    Follows st (signedAt bits b st) (Item.readAt b st (.varint bits)) (fun v w => w = v) ∧
    ReadsInWidths b st := by
  have hst : ¬(st : Int) < 0 := by omega
  rw [← Leb128.limit_eq hbits]
  refine ⟨fun hcut => ?_, fun hcut => ?_, ?_, ?_, readsInWidths b st⟩
  · rw [← Leb128.cutShort_drop, ← Leb128.groups_eq_none_iff] at hcut
    rw [unsignedAt_natCast, signedAt_natCast, hcut]
    exact ⟨rfl, rfl⟩
  · rw [← Leb128.cutShort_drop, ← Leb128.groups_eq_none_iff] at hcut
    obtain ⟨⟨g, rest⟩, hg⟩ := Option.ne_none_iff_exists'.mp hcut
    obtain ⟨hn, hb⟩ := Leb128.groups_eq_some_iff.mp hg
    refine ⟨_, _, _, Leb128.numberAt_of_isNumber hn hb, ?_, ?_⟩
    · rw [unsignedAt_natCast, hg]
    · rw [signedAt_natCast, hg]
  · rw [Item.readAt, if_neg hst]
    exact (follows_varuint bits b st).mono fun _ _ h => h.1
  · rw [Item.readAt, if_neg hst]
    exact (follows_varint bits b st).mono fun _ _ h => h.1

/-- Ten bytes that fill a 64-bit word: all but one bit of the last are lost. The same bytes without the last one are no number. -/
theorem number_at_any_position_full_word :
    let b : Bytes := [0x55, 0xff, 0xff, 0xff, 0xff, 0xff, 0xff, 0xff, 0xff, 0xff, 0x7f]
    (∃ n u s, Leb128.NumberAt b 1 10 n u s ∧ unsignedAt 64 b 1 = .ok (u, n) ∧ signedAt 64 b 1 = .ok (s, n)) ∧
      unsignedAt 64 b 1 = .ok (0xffffffffffffffff, 10) ∧ signedAt 64 b 1 = .ok (-1, 10) ∧
      unsignedAt 64 (b.take 10) 1 = .error (.error (.ofCause .outOfBounds)) := by
  intro b
  have hthere : ¬Leb128.CutShort b 1 10 := by
    rw [← Leb128.cutShort_drop, ← Leb128.groups_eq_none_iff]
    decide
  have hcut : Leb128.CutShort (b.take 10) 1 10 := by
    rw [← Leb128.cutShort_drop, ← Leb128.groups_eq_none_iff]
    decide
  exact ⟨(number_at_any_position b 1 64 (by decide)).2.1 hthere, by decide +kernel, by decide +kernel,
    ((number_at_any_position (b.take 10) 1 64 (by decide)).1 hcut).1⟩

end Cursor

end WasmInspect
