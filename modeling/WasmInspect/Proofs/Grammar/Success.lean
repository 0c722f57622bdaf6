import WasmInspect.Grammar.Section
import WasmInspect.Proofs.Leb128
import WasmInspect.Proofs.Reader.Success

/-!
# When the productions are read

The successes of the readers that do not only put others together: bytes, the groups of a number, tags, counted lists and
instructions. Positions appear in errors and events only, so they are gone here.
-/

namespace WasmInspect

namespace Grammar

open Reader

variable {α : Type} {p : CountPolicy} {i j : Input}

/-! ## Bytes and numbers -/

@[simp] theorem gives_byte {x : UInt8} : byte.Gives p i x j ↔ i.rest = x :: j.rest ∧ j.pos = i.pos + 1 := by
  simp only [byte, gives_bind, gives_hasRoom, gives_ensure, gives_next]
  constructor
  · rintro ⟨_, _, ⟨_, rfl⟩, _, _, ⟨_, rfl⟩, h⟩
    exact h
  · intro h
    have hlen : 1 ≤ i.rest.length := by
      rw [h.1, List.length_cons]
      omega
    exact ⟨true, i, ⟨decide_eq_true hlen, rfl⟩, (), i, ⟨rfl, rfl⟩, h⟩

@[simp] theorem gives_bytes {n : Nat} {b : Bytes} :
    (bytes n).Gives p i b j ↔
      i.pos + n < positionBound ∧ b.length = n ∧ i.rest = b ++ j.rest ∧ j.pos = i.pos + n := by
  simp only [bytes, gives_bind, gives_reaches, gives_ensure, gives_slice]
  constructor
  · rintro ⟨_, _, ⟨_, rfl⟩, _, _, ⟨_, rfl⟩, h⟩
    exact h
  · intro h
    have hlen : n ≤ i.rest.length := by
      rw [h.2.2.1, List.length_append, h.2.1]
      omega
    exact ⟨true, i, ⟨decide_eq_true (Or.inr hlen), rfl⟩, (), i, ⟨rfl, rfl⟩, h⟩

/-- Where there is a byte, it is taken. -/
theorem byte_cons (p : CountPolicy) (pos : Nat) (x : UInt8) (rest : Bytes) :
    byte p ⟨pos, x :: rest⟩ = ⟨[], .ok (x, ⟨pos + 1, rest⟩)⟩ := by
  have hroom : hasRoom 1 p ⟨pos, x :: rest⟩ = ⟨[], .ok (true, ⟨pos, x :: rest⟩)⟩ := by
    have hlen : Bytes.hasAtLeast (x :: rest) 1 = true := (Bytes.hasAtLeast_iff _ _).mpr (Nat.le_add_left 1 _)
    simp only [hasRoom, hlen]
  unfold byte
  rw [bind_of_ok hroom]
  rfl

/-- The bytes of a number, read one by one, are those that stand for it at the start of the input. If there is no number, all bytes have been
taken. -/
theorem groups_eq (n : Nat) (p : CountPolicy) (i : Input) :
    groups n p i = match Leb128.groups n i.rest with
      | some (g, rest) => ⟨[], .ok (g, ⟨i.pos + g.length, rest⟩)⟩
      | none => ⟨[], .error ⟨.error (.ofCause .outOfBounds), i.pos + i.rest.length⟩⟩ := by
  induction n generalizing i with
  | zero => rfl
  | succ n ih =>
    obtain ⟨pos, rest⟩ := i
    cases rest with
    | nil => rfl
    | cons x rest =>
      rw [groups, bind_of_ok (byte_cons p pos x rest)]
      simp only [Leb128.groups]
      by_cases hx : x < 0x80
      · simp only [hx, if_true]
        rfl
      · simp only [hx, if_false]
        have hmore := ih ⟨pos + 1, rest⟩
        cases hg : Leb128.groups n rest with
        | none =>
          simp only [hg] at hmore
          rw [bind_of_error hmore]
          simp only [Option.map_none, List.length_cons, Nat.add_assoc, Nat.add_comm 1, List.nil_append]
        | some v =>
          obtain ⟨g, left⟩ := v
          simp only [hg] at hmore
          rw [bind_of_ok hmore]
          simp [Pure.pure, Reader.pure, Nat.add_assoc, Nat.add_comm 1]

@[simp] theorem gives_leb128 {bits : Nat} {g : Bytes} :
    (leb128 bits).Gives p i g j ↔
      Leb128.IsNumber (Leb128.limit bits) g ∧ i.rest = g ++ j.rest ∧ j.pos = i.pos + g.length := by
  obtain ⟨pos, rest⟩ := i
  obtain ⟨pos', rest'⟩ := j
  unfold Gives leb128
  rw [groups_eq]
  constructor
  · intro h
    cases hg : Leb128.groups (Leb128.limit bits) rest with
    | none => simp [hg] at h
    | some v =>
      obtain ⟨g', rest''⟩ := v
      simp only [hg, Except.ok.injEq, Prod.mk.injEq, Input.mk.injEq] at h
      obtain ⟨rfl, rfl, rfl⟩ := h
      obtain ⟨hn, hr⟩ := Leb128.groups_eq_some_iff.mp hg
      exact ⟨hn, hr, rfl⟩
  · rintro ⟨hn, hr, hp⟩
    obtain rfl : pos' = pos + g.length := hp
    simp only [Leb128.groups_eq_some_iff.mpr ⟨hn, hr⟩]

/-- A count is below the number of 32-bit words. -/
theorem lt_of_gives_count {n : Nat} (h : count.Gives p i n j) : n < UInt32.size := by
  simp only [count, gives_bind, gives_pure] at h
  obtain ⟨v, _, _, rfl, _⟩ := h
  exact v.toNat_lt

/-! ## Tags and lists -/

@[simp] theorem gives_tag {site : TagSite} {r : Reader UInt8} {accept : UInt8 → Option α} {a : α} :
    (tag site r accept).Gives p i a j ↔ ∃ t, r.Gives p i t j ∧ accept t = some a := by
  simp only [tag, gives_restoring, gives_bind, gives_position]
  constructor
  · rintro ⟨_, _, ⟨rfl, rfl⟩, t, k, hr, h⟩
    cases hacc : accept t with
    | none => simp [hacc] at h
    | some b =>
      simp only [hacc, gives_pure] at h
      obtain ⟨rfl, rfl⟩ := h
      exact ⟨t, hr, hacc⟩
  · rintro ⟨t, hr, hacc⟩
    exact ⟨_, i, ⟨rfl, rfl⟩, t, j, hr, by simp [hacc]⟩

@[simp] theorem gives_list {counts item : String} {r : Reader α} {xs : List α} :
    (list counts item r).Gives p i xs j ↔
      ∃ n k, count.Gives p i n k ∧ (p = .unchecked ∨ n ≤ k.rest.length) ∧ (entries item r n 0).Gives p k xs j := by
  simp only [list, gives_bind, gives_within, gives_admits, gives_ensure]
  constructor
  · rintro ⟨n, k, hn, ok, _, ⟨rfl, rfl⟩, _, _, ⟨hok, rfl⟩, hxs⟩
    exact ⟨n, k, hn, of_decide_eq_true hok, hxs⟩
  · rintro ⟨n, k, hn, hok, hxs⟩
    exact ⟨n, k, hn, true, k, ⟨decide_eq_true hok, rfl⟩, (), k, ⟨rfl, rfl⟩, hxs⟩

@[simp] theorem gives_vector {item : String} {least : Nat} {r : Reader α} {xs : List α} :
    (vector item least r).Gives p i xs j ↔
      ∃ n k, count.Gives p i n k ∧ (p = .unchecked ∨ n * least ≤ k.rest.length) ∧
        (entries item r n 0).Gives p k xs j := by
  simp only [vector, gives_restoring, gives_bind, gives_within, gives_admits, gives_remaining, gives_ensure]
  constructor
  · rintro ⟨n, k, hn, ok, _, ⟨rfl, rfl⟩, _, _, ⟨rfl, rfl⟩, _, _, ⟨hok, rfl⟩, hxs⟩
    exact ⟨n, k, hn, of_decide_eq_true hok, hxs⟩
  · rintro ⟨n, k, hn, hok, hxs⟩
    exact ⟨n, k, hn, true, k, ⟨decide_eq_true hok, rfl⟩, k.rest, k, ⟨rfl, rfl⟩, (), k, ⟨rfl, rfl⟩, hxs⟩

/-! ## Instructions -/

@[simp] theorem gives_bareInstruction {x : Instruction} :
    bareInstruction.Gives p i x j ↔
      ∃ k e, byte.Gives p i x.op.byte k ∧ x.op.entry? = some e ∧ (operand? e.operand).Gives p k x.operand j := by
  obtain ⟨⟨op⟩, o⟩ := x
  simp only [bareInstruction, gives_bind, gives_position]
  constructor
  · rintro ⟨_, _, ⟨rfl, rfl⟩, op', k, hop, h⟩
    cases he : Opcode.entry? ⟨op'⟩ with
    | none => simp [he] at h
    | some e =>
      simp only [he, gives_bind, gives_within, gives_pure, Instruction.mk.injEq, Opcode.mk.injEq] at h
      obtain ⟨o', _, ho, ⟨rfl, rfl⟩, rfl⟩ := h
      exact ⟨k, e, hop, he, ho⟩
  · rintro ⟨k, e, hop, he, ho⟩
    refine ⟨_, i, ⟨rfl, rfl⟩, op, k, hop, ?_⟩
    simp only [he, gives_bind, gives_within, gives_pure]
    exact ⟨o, j, ho, rfl, rfl⟩

/-- Without a round no expression is read. -/
theorem not_gives_expressionLoop_nil {c : Code} : ¬(expressionLoop []).Gives p i c j := by
  simp only [expressionLoop, gives_bind, not_gives_outOfRounds, and_false, exists_false, not_false_eq_true]

/-- Without a round there is no code, and no room for more. -/
theorem gives_codeLoop_zero {left : Nat} {c : Code} : (codeLoop 0 left).Gives p i c j ↔ left ≤ 1 ∧ c = [] ∧ i = j := by
  rw [codeLoop]
  by_cases hleft : 1 < left
  · simp only [if_pos hleft, not_gives_outOfRounds, Nat.not_le.mpr hleft, false_and]
  · simp only [if_neg hleft, gives_pure, Nat.le_of_not_lt hleft, true_and, eq_comm]

end Grammar

/-- The ids that have a meaning of their own. -/
theorem SectionId.isKnown_iff {id : SectionId} :
    id.isKnown = true ↔ id = types ∨ id = imports ∨ id = functions ∨ id = tables ∨ id = memories ∨ id = globals ∨
      id = exports ∨ id = start ∨ id = elements ∨ id = code ∨ id = data := by
  obtain ⟨b⟩ := id
  have hk : isKnown ⟨b⟩ = true ↔ 0 < b.toNat ∧ b.toNat ≤ 11 := by
    unfold isKnown
    rw [Bool.and_eq_true, decide_eq_true_eq, decide_eq_true_eq]
    rfl
  simp only [hk, types, imports, functions, tables, memories, globals, exports, start, elements, code, data, SectionId.mk.injEq,
    ← UInt8.toNat_inj, UInt8.reduceToNat]
  omega

namespace Grammar

open Reader

variable {p : CountPolicy} {i j : Input}

/-- An id without a meaning of its own stands for a custom section. -/
theorem payload_of_not_isKnown {id : SectionId} (h : ¬id.isKnown = true) :
    payload id = (fun (n, b) => Payload.custom n b) <$> custom := by
  rw [SectionId.isKnown_iff] at h
  simp only [not_or] at h
  obtain ⟨h1, h2, h3, h4, h5, h6, h7, h8, h9, h10, h11⟩ := h
  unfold payload
  rw [if_neg h1, if_neg h2, if_neg h3, if_neg h4, if_neg h5, if_neg h6, if_neg h7, if_neg h8, if_neg h9, if_neg h10,
    if_neg h11]

/-- A section is its header and what is read of the next bytes, as many as the header declares. -/
theorem gives_anySection {s : Section} :
    anySection.Gives p i s j ↔ ∃ byte k size l a o, varuint7.Gives p i byte k ∧ count.Gives p k size l ∧
      (l.pos + size < positionBound ∧ size ≤ l.rest.length) ∧ (payload ⟨byte⟩).Gives p ⟨l.pos, l.rest.take size⟩ a o ∧
      ⟨⟨byte⟩, size, o.pos - l.pos, a⟩ = s ∧ ⟨l.pos + size, l.rest.drop size⟩ = j := by
  simp only [anySection, gives_restoring, gives_bind, gives_position, gives_within, gives_reaches, gives_ensure, gives_log, Prod.exists,
    gives_delimited]
  constructor
  · rintro ⟨_, _, ⟨rfl, rfl⟩, byte, k, hb, size, l, hs, _, _, ⟨rfl, rfl⟩, _, _, ⟨_, rfl⟩, _, _, rfl, _, _, ⟨rfl, rfl⟩, a, n, _,
      ⟨hle, o, hp, rfl, rfl⟩, h⟩
    refine ⟨byte, k, size, l, a, o, hb, hs, hle, hp, ?_⟩
    by_cases hc : o.pos - l.pos = size
    · rw [if_pos hc] at h
      exact gives_pure.mp h
    · rw [if_neg hc] at h
      simp only [gives_bind, gives_log, gives_pure] at h
      obtain ⟨_, _, rfl, h⟩ := h
      exact h
  · rintro ⟨byte, k, size, l, a, o, hb, hs, hle, hp, rfl, rfl⟩
    refine ⟨_, _, ⟨rfl, rfl⟩, byte, k, hb, size, l, hs, true, _, ⟨decide_eq_true (Or.inr hle.2), rfl⟩, (), _, ⟨rfl, rfl⟩, (), _, rfl,
      _, _, ⟨rfl, rfl⟩, a, _, _, ⟨hle, o, hp, rfl, rfl⟩, ?_⟩
    by_cases hc : o.pos - l.pos = size
    · rw [if_pos hc]
      exact gives_pure.mpr ⟨rfl, rfl⟩
    · rw [if_neg hc]
      exact gives_bind.mpr ⟨(), _, gives_log.mpr rfl, gives_pure.mpr ⟨rfl, rfl⟩⟩

end Grammar

end WasmInspect
