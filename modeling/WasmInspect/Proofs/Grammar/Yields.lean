import WasmInspect.Proofs.Encode
import WasmInspect.Proofs.Grammar.Takes
import WasmInspect.Proofs.WellFormed

/-!
# What the productions yield

Whatever bytes a production accepts, also those that nobody would write, such as numbers with needless groups, flags of any value and
bodies in needlessly large sizes: the value that it gives is well-formed, and to write this value takes no more bytes than were read.
-/

namespace WasmInspect.Grammar

open Reader

variable {α : Type} {p : CountPolicy} {i j : Input}

/-- Each value that the reader gives has the property, and is written in as many bytes as were read, or fewer. -/
def Yields (r : Reader α) (write : α → Bytes) (P : α → Prop) : Prop :=
  ∀ p i a j, r.Gives p i a j → P a ∧ i.pos + (write a).length ≤ j.pos

section

variable {β : Type} {r : Reader α} {write : α → Bytes} {P : α → Prop}

protected theorem Yields.within (c : Context) (h : Yields r write P) : Yields (within c r) write P := by
  intro p i a j hg
  exact h _ _ _ _ (gives_within.mp hg)

protected theorem Yields.restoring (h : Yields r write P) : Yields (restoring r) write P := by
  intro p i a j hg
  exact h _ _ _ _ (gives_restoring.mp hg)

/-- A value that another one is made of at last, and that is written as this one. -/
theorem Yields.bind_pure {write' : β → Bytes} {Q : β → Prop} {f : α → β} (h : Yields r write P)
    (hf : ∀ a, P a → Q (f a) ∧ write' (f a) = write a) : Yields (r >>= fun a => pure (f a)) write' Q := by
  intro p i b j hg
  simp only [gives_bind, gives_pure] at hg
  obtain ⟨a, _, ha, rfl, rfl⟩ := hg
  obtain ⟨hP, hpos⟩ := h _ _ _ _ ha
  obtain ⟨hQ, hw⟩ := hf a hP
  refine ⟨hQ, ?_⟩
  rwa [hw]

protected theorem Yields.map {write' : β → Bytes} {Q : β → Prop} {f : α → β} (h : Yields r write P)
    (hf : ∀ a, P a → Q (f a) ∧ write' (f a) = write a) : Yields (f <$> r) write' Q :=
  h.bind_pure hf

end

/-! ## Numbers -/

/-- Groups are no fewer than those written for a part of their value. -/
theorem length_number_le_of_gives_varuint {bits v m : Nat} (hb : 0 < Leb128.limit bits) (h : (varuint bits).Gives p i v j)
    (hm : m ≤ v) : i.pos + (Encode.number m).length ≤ j.pos := by
  simp only [varuint, gives_restoring, gives_bind, gives_leb128, gives_pure] at h
  obtain ⟨g, _, ⟨hg, _, hpos⟩, rfl, rfl⟩ := h
  have hle : m ≤ Leb128.weight g := Nat.le_trans hm (Nat.mod_le _ _)
  have hlen := Leb128.length_encodeUnsigned_le_of_le_weight (hg.length_pos hb) hle
  unfold Encode.number
  omega

/-- A number of 32 bits is what is left of the number that its groups stand for. -/
theorem length_number_le_of_gives_varuint32 {n : UInt32} {m : Nat} (h : varuint32.Gives p i n j) (hm : m ≤ n.toNat) :
    i.pos + (Encode.number m).length ≤ j.pos := by
  simp only [varuint32, gives_bind, gives_pure] at h
  obtain ⟨v, _, hv, rfl, rfl⟩ := h
  refine length_number_le_of_gives_varuint (by decide) hv (Nat.le_trans hm ?_)
  rw [UInt32.toNat_ofNat']
  exact Nat.mod_le _ _

theorem length_number_le_of_gives_count {n m : Nat} (h : count.Gives p i n j) (hm : m ≤ n) :
    i.pos + (Encode.number m).length ≤ j.pos := by
  simp only [count, gives_bind, gives_pure] at h
  obtain ⟨v, _, hv, rfl, rfl⟩ := h
  exact length_number_le_of_gives_varuint32 hv hm

theorem yields_varuint32 : Yields varuint32 Encode.index fun _ => True := by
  intro p i n j h
  exact ⟨trivial, length_number_le_of_gives_varuint32 h (Nat.le_refl _)⟩

/-- A number that takes one group is one byte of seven bits. -/
theorem yields_varuint_byte {bits : Nat} (hb : Leb128.limit bits = 1) :
    Yields (varuint bits >>= fun v => pure (.ofNat v)) (fun x => [x]) fun x : UInt8 => x < 128 := by
  intro p i x j h
  simp only [varuint, gives_restoring, gives_bind, gives_leb128, gives_pure] at h
  obtain ⟨v, _, ⟨g, _, ⟨hg, _, hpos⟩, rfl, rfl⟩, rfl, rfl⟩ := h
  rw [hb] at hg
  have hlen := hg.length_le
  have hlen' := hg.length_pos (by decide)
  have hone : g.length = 1 := by omega
  have hweight := Leb128.weight_lt g
  rw [hone, pow_one] at hweight
  refine ⟨?_, by rw [hpos, hone]; rfl⟩
  rw [Leb128.unsigned, Nat.mod_eq_of_lt (Nat.lt_trans hweight (by decide))]
  exact (Leb128.toNat_ofNat_low hweight).2

theorem yields_varuint1 : Yields varuint1 (fun x => [x]) (· < 128) := yields_varuint_byte rfl

theorem yields_varuint7 : Yields varuint7 (fun x => [x]) (· < 128) := yields_varuint_byte rfl

/-- To cut a number to an even number of values leaves it among the values of its groups. -/
theorem bmod_range {v : Int} {m n : Nat} (hn : 0 < n) (heven : n % 2 = 0) (lo : -(m : Int) ≤ v) (hi : v < m) :
    -(m : Int) ≤ v.bmod n ∧ v.bmod n < m := by
  have hle := Int.le_bmod (x := v) hn
  have hlt := Int.bmod_lt (x := v) hn
  -- where the width is the smaller one, every number of that width is in the range
  by_cases hm : m ≤ n / 2
  · rw [Int.bmod_eq_of_le (by omega) (by omega)]
    exact ⟨lo, hi⟩
  · omega

/-- Groups are no fewer than those written for their value, cut to a width. -/
theorem length_encodeSigned_le_of_gives_varint {bits n : Nat} {v : Int} (hb : 0 < Leb128.limit bits) (hn : 0 < n)
    (heven : n % 2 = 0) (h : (varint bits).Gives p i v j) : i.pos + (Leb128.encodeSigned (v.bmod n)).length ≤ j.pos := by
  simp only [varint, gives_restoring, gives_bind, gives_leb128, gives_pure] at h
  obtain ⟨g, _, ⟨hg, _, hpos⟩, rfl, rfl⟩ := h
  have hpos' := hg.length_pos hb
  obtain ⟨k, hk⟩ : ∃ k, g.length = k + 1 := ⟨g.length - 1, by omega⟩
  obtain ⟨lo, hi⟩ := Leb128.signed_range hk
  obtain ⟨lo', hi'⟩ := bmod_range hn heven lo hi
  have hlen := Leb128.length_encodeSigned_le lo' hi'
  omega

theorem yields_varint32 : Yields varint32 (fun v => Leb128.encodeSigned v.toInt) fun _ => True := by
  intro p i v j h
  simp only [varint32, gives_bind, gives_pure] at h
  obtain ⟨w, _, hw, rfl, rfl⟩ := h
  refine ⟨trivial, ?_⟩
  simp only [Int32.toInt_ofInt]
  exact length_encodeSigned_le_of_gives_varint (by decide) (by decide) (by decide) hw

theorem yields_varint64 : Yields varint64 (fun v => Leb128.encodeSigned v.toInt) fun _ => True := by
  intro p i v j h
  simp only [varint64, gives_bind, gives_pure] at h
  obtain ⟨w, _, hw, rfl, rfl⟩ := h
  refine ⟨trivial, ?_⟩
  simp only [Int64.toInt_ofInt]
  exact length_encodeSigned_le_of_gives_varint (by decide) (by decide) (by decide) hw

/-- A word takes its bytes, whatever it is. -/
theorem pos_of_gives_word {n v : Nat} (h : (word n).Gives p i v j) : j.pos = i.pos + n := by
  simp only [word, gives_bind, gives_bytes, gives_pure] at h
  obtain ⟨_, _, ⟨_, _, _, hpos⟩, _, rfl⟩ := h
  exact hpos

theorem yields_uint8 : Yields uint8 (fun x => [x]) fun _ => True := by
  intro p i x j h
  simp only [uint8, gives_bind, gives_pure] at h
  obtain ⟨_, _, hv, _, rfl⟩ := h
  exact ⟨trivial, Nat.le_of_eq (pos_of_gives_word hv).symm⟩

theorem yields_uint32 : Yields uint32 (fun v => Encode.littleEndian 4 v.toNat) fun _ => True := by
  intro p i v j h
  simp only [uint32, gives_bind, gives_pure] at h
  obtain ⟨_, _, hv, _, rfl⟩ := h
  refine ⟨trivial, Nat.le_of_eq ?_⟩
  rw [Encode.length_littleEndian, pos_of_gives_word hv]

theorem yields_uint64 : Yields uint64 (fun v => Encode.littleEndian 8 v.toNat) fun _ => True := by
  intro p i v j h
  simp only [uint64, gives_bind, gives_pure] at h
  obtain ⟨_, _, hv, _, rfl⟩ := h
  refine ⟨trivial, Nat.le_of_eq ?_⟩
  rw [Encode.length_littleEndian, pos_of_gives_word hv]

/-- Bytes after their number. -/
theorem length_sized_le {n : Nat} {b : Bytes} {k : Input} (hn : count.Gives p i n k) (hb : (bytes n).Gives p k b j) :
    i.pos + (Encode.sized b).length ≤ j.pos := by
  obtain ⟨_, hlen, _, hpos⟩ := gives_bytes.mp hb
  have hcount := length_number_le_of_gives_count hn (Nat.le_of_eq hlen)
  rw [Encode.sized, List.length_append]
  omega

/-- A name that is read has a byte for each character, and these are the bytes that are written. -/
theorem yields_nameText : Yields nameText Encode.name IsName := by
  intro p i s j h
  simp only [nameText, name, gives_restoring, gives_bind, gives_pure] at h
  obtain ⟨b, _, ⟨n, k, hn, hb⟩, rfl, rfl⟩ := h
  refine ⟨?_, ?_⟩
  · intro c hc
    rw [Bytes.nameText, String.toList_ofList, List.mem_map] at hc
    obtain ⟨x, _, rfl⟩ := hc
    have hx := x.toNat_lt
    have hvalid : x.toNat.isValidChar := Or.inl (Nat.lt_trans hx (by decide))
    rw [Char.ofNat, dif_pos hvalid]
    exact hx
  · have hlen := length_sized_le hn hb
    simpa only [Encode.name, Encode.sized, Bytes.nameText, String.toList_ofList, List.length_append, List.length_map] using hlen

/-! ## Lists -/

section

variable {r : Reader α} {write : α → Bytes} {P : α → Prop}

/-- Entries that are read one after the other. -/
protected theorem Yields.entries (h : Yields r write P) {name : String} {n k : Nat} {xs : List α} (hg : (entries name r n k).Gives p i xs j) :
    xs.length = n ∧ (∀ x ∈ xs, P x) ∧ i.pos + (xs.flatMap write).length ≤ j.pos := by
  induction n generalizing k xs i with
  | zero =>
    obtain ⟨rfl, rfl⟩ := gives_pure.mp hg
    exact ⟨rfl, List.forall_mem_nil P, Nat.le_refl _⟩
  | succ n ih =>
    simp only [entries, gives_bind, gives_within, gives_pure] at hg
    obtain ⟨x, l, hx, ys, _, hys, rfl, rfl⟩ := hg
    obtain ⟨hP, hpos⟩ := h _ _ _ _ hx
    obtain ⟨hlen, hall, hpos'⟩ := ih hys
    refine ⟨by rw [List.length_cons, hlen], List.forall_mem_cons.mpr ⟨hP, hall⟩, ?_⟩
    rw [List.flatMap_cons, List.length_append]
    omega

/-- A list after its count. -/
protected theorem Yields.counted (h : Yields r write P) {name : String} {n : Nat} {xs : List α} {k : Input} (hn : count.Gives p i n k)
    (hxs : (entries name r n 0).Gives p k xs j) : (∀ x ∈ xs, P x) ∧ i.pos + (Encode.list write xs).length ≤ j.pos := by
  obtain ⟨rfl, hall, hpos⟩ := h.entries hxs
  have hcount := length_number_le_of_gives_count hn (Nat.le_refl _)
  refine ⟨hall, ?_⟩
  rw [Encode.list, List.length_append]
  omega

protected theorem Yields.list (counts item : String) (h : Yields r write P) :
    Yields (list counts item r) (Encode.list write) fun xs => ∀ x ∈ xs, P x := by
  intro p i xs j hg
  obtain ⟨n, k, hn, _, hxs⟩ := gives_list.mp hg
  exact h.counted hn hxs

protected theorem Yields.vector (item : String) (least : Nat) (h : Yields r write P) :
    Yields (vector item least r) (Encode.list write) fun xs => ∀ x ∈ xs, P x := by
  intro p i xs j hg
  obtain ⟨n, k, hn, _, hxs⟩ := gives_vector.mp hg
  exact h.counted hn hxs

end

/-! ## Tags and types -/

/-- A tag that is accepted on a condition has it, and is written as one byte. -/
theorem yields_tag {site : TagSite} {r : Reader UInt8} {f : UInt8 → α} {c : α → Prop} [DecidablePred c] {write : α → Bytes}
    {Q : UInt8 → Prop} (h : Yields r (fun x => [x]) Q) (hw : ∀ a, (write a).length = 1) :
    Yields (tag site r fun t => if c (f t) then some (f t) else none) write c := by
  intro p i a j hg
  obtain ⟨t, ht, hacc⟩ := gives_tag.mp hg
  obtain ⟨hc, ha⟩ := Option.ite_none_right_eq_some.mp hacc
  cases ha
  refine ⟨hc, ?_⟩
  rw [hw]
  exact (h _ _ _ _ ht).2

theorem yields_valueType : Yields valueType Encode.valueType (· ∈ ValueType.all) :=
  yields_tag (f := ValueType.mk) (c := (· ∈ ValueType.all)) yields_varuint7 fun _ => rfl

theorem yields_blockType : Yields blockType (fun t => [t.byte]) (· ∈ BlockType.all) :=
  yields_tag (f := BlockType.mk) (c := (· ∈ BlockType.all)) yields_varuint7 fun _ => rfl

theorem yields_elementType : Yields elementType (fun t => [t.byte]) (· = .anyFunc) :=
  yields_tag (f := BlockType.mk) (c := (· = .anyFunc)) yields_uint8 fun _ => rfl

theorem yields_externalKind : Yields externalKind (fun k => [k.byte]) (·.byte ≤ ExternalKind.global.byte) :=
  yields_tag (f := ExternalKind.mk) (c := (·.byte ≤ ExternalKind.global.byte)) yields_uint8 fun _ => rfl

/-- The flag is kept, and decides whether there is a maximum. -/
theorem yields_limits : Yields limits Encode.limits Limits.WellFormed := by
  intro p i l j h
  simp only [limits, gives_restoring, gives_bind, gives_tag, gives_within] at h
  obtain ⟨flags, k, ⟨t, ht, hacc⟩, initial, o, hinitial, h⟩ := h
  obtain ⟨hle, ha⟩ := Option.ite_none_right_eq_some.mp hacc
  cases ha
  have hflags := (yields_varuint1 _ _ _ _ ht).2
  have hpos := (yields_varuint32 _ _ _ _ hinitial).2
  have hnonneg : (0 : Int) ≤ initial.toNat := Int.natCast_nonneg _
  have hlt : (initial.toNat : Int) < UInt32.size := Int.ofNat_lt.mpr initial.toNat_lt
  rw [List.length_singleton] at hflags
  unfold Encode.index at hpos
  by_cases hzero : flags = 0
  · subst hzero
    rw [if_pos rfl] at h
    obtain ⟨rfl, rfl⟩ := gives_pure.mp h
    refine ⟨⟨hnonneg, hlt, Or.inl ⟨rfl, rfl⟩⟩, ?_⟩
    rw [Encode.limits, if_pos (show (-1 : Int) < 0 by decide), List.length_cons, Int.toNat_natCast]
    omega
  · rw [if_neg hzero] at h
    simp only [gives_bind, gives_within, gives_pure] at h
    obtain ⟨maximum, _, hmaximum, rfl, rfl⟩ := h
    have hpos' := (yields_varuint32 _ _ _ _ hmaximum).2
    unfold Encode.index at hpos'
    have hone : flags = 1 := by
      rw [UInt8.le_iff_toNat_le] at hle
      rw [← UInt8.toNat_inj] at hzero ⊢
      simp only [UInt8.reduceToNat] at *
      omega
    subst hone
    have hlt' : (maximum.toNat : Int) < UInt32.size := Int.ofNat_lt.mpr maximum.toNat_lt
    refine ⟨⟨hnonneg, hlt, Or.inr ⟨rfl, Int.natCast_nonneg _, hlt'⟩⟩, ?_⟩
    rw [Encode.limits, if_neg (by simp only; omega), List.length_cons, List.length_append, Int.toNat_natCast, Int.toNat_natCast]
    omega

theorem yields_funcType : Yields funcType Encode.funcType FuncType.WellFormed := by
  intro p i t j h
  simp only [funcType, gives_restoring, gives_bind, gives_tag, gives_within] at h
  obtain ⟨_, k, ⟨mark, hmark, _⟩, params, l, hparams, returns, o, ⟨flag, hflag, hacc⟩, h⟩ := h
  have hmark := (yields_uint8 _ _ _ _ hmark).2
  obtain ⟨hall, hpos⟩ := yields_valueType.list _ _ _ _ _ _ hparams
  have hflag := (yields_varuint1 _ _ _ _ hflag).2
  rw [List.length_singleton] at hmark hflag
  cases returns with
  | false =>
    rw [if_neg Bool.false_ne_true] at h
    obtain ⟨rfl, rfl⟩ := gives_pure.mp h
    refine ⟨⟨hall, List.forall_mem_nil _, Nat.zero_le 1⟩, ?_⟩
    simp only [Encode.funcType, Encode.list_nil, List.length_cons, List.length_append, List.length_nil]
    omega
  | true =>
    rw [if_pos rfl] at h
    simp only [gives_bind, gives_within, gives_pure] at h
    obtain ⟨v, _, hv, rfl, rfl⟩ := h
    obtain ⟨hmem, hresult⟩ := yields_valueType _ _ _ _ hv
    refine ⟨⟨hall, ?_, Nat.le_refl 1⟩, ?_⟩
    · intro u hu
      rwa [List.mem_singleton.mp hu]
    · simp only [Encode.funcType, Encode.list_singleton, List.length_cons, List.length_append]
      omega

theorem yields_tableType : Yields tableType Encode.tableType TableType.WellFormed := by
  intro p i t j h
  simp only [tableType, gives_restoring, gives_bind, gives_within, gives_pure] at h
  obtain ⟨element, k, helement, l, _, hl, rfl, rfl⟩ := h
  obtain ⟨heq, hpos⟩ := yields_elementType _ _ _ _ helement
  obtain ⟨hwf, hpos'⟩ := yields_limits _ _ _ _ hl
  refine ⟨⟨heq, hwf⟩, ?_⟩
  rw [List.length_singleton] at hpos
  simp only [Encode.tableType, List.length_cons]
  omega

theorem yields_memoryType : Yields memoryType Encode.memoryType MemoryType.WellFormed := by
  apply Yields.restoring
  exact (yields_limits.within _).bind_pure fun _ h => ⟨h, rfl⟩

theorem yields_globalType : Yields globalType Encode.globalType GlobalType.WellFormed := by
  intro p i t j h
  simp only [globalType, gives_restoring, gives_bind, gives_within, gives_pure] at h
  obtain ⟨value, k, hvalue, flag, _, hflag, rfl, rfl⟩ := h
  obtain ⟨hmem, hpos⟩ := yields_valueType _ _ _ _ hvalue
  have hpos' := (yields_varuint1 _ _ _ _ hflag).2
  refine ⟨hmem, ?_⟩
  rw [Encode.valueType, List.length_singleton] at hpos
  rw [List.length_singleton] at hpos'
  rw [Encode.globalType, List.length_cons, List.length_singleton]
  omega

/-! ## Instructions and expressions -/

theorem yields_operandOf (k : OperandKind) : Yields (operandOf k) Encode.operand fun o => o.kind = k ∧ o.WellFormed := by
  cases k with
  | block => exact yields_blockType.bind_pure fun _ h => ⟨⟨rfl, h⟩, rfl⟩
  | index => exact yields_varuint32.bind_pure fun _ _ => ⟨⟨rfl, trivial⟩, rfl⟩
  | branchTable =>
    intro p i o j h
    simp only [operandOf, branchTable, gives_restoring, gives_bind, gives_within, gives_pure] at h
    obtain ⟨targets, l, htargets, default, _, hdefault, rfl, rfl⟩ := h
    have hpos := (yields_varuint32.list _ _ _ _ _ _ htargets).2
    have hpos' := (yields_varuint32 _ _ _ _ hdefault).2
    refine ⟨⟨rfl, trivial⟩, ?_⟩
    rw [Encode.operand, List.length_append]
    omega
  | indirectCall =>
    intro p i o j h
    simp only [operandOf, gives_bind, gives_pure] at h
    obtain ⟨t, l, ht, v, _, hv, rfl, rfl⟩ := h
    have hpos := (yields_varuint32 _ _ _ _ ht).2
    obtain ⟨hlt, hpos'⟩ := yields_varuint1 _ _ _ _ hv
    refine ⟨⟨rfl, hlt⟩, ?_⟩
    rw [List.length_singleton] at hpos'
    rw [Encode.operand, Encode.number_toNat hlt, List.length_append, List.length_singleton]
    omega
  | memory =>
    intro p i o j h
    simp only [operandOf, gives_bind, gives_pure] at h
    obtain ⟨flags, l, hflags, offset, _, hoffset, rfl, rfl⟩ := h
    have hpos := (yields_varuint32 _ _ _ _ hflags).2
    have hpos' := (yields_varuint32 _ _ _ _ hoffset).2
    refine ⟨⟨rfl, trivial⟩, ?_⟩
    rw [Encode.operand, List.length_append]
    omega
  | reserved => exact yields_varuint1.bind_pure fun _ h => ⟨⟨rfl, h⟩, Encode.number_toNat h⟩
  | i32 => exact yields_varint32.bind_pure fun _ _ => ⟨⟨rfl, trivial⟩, rfl⟩
  | i64 => exact yields_varint64.bind_pure fun _ _ => ⟨⟨rfl, trivial⟩, rfl⟩
  | f32 => exact yields_uint32.bind_pure fun _ _ => ⟨⟨rfl, trivial⟩, rfl⟩
  | f64 => exact yields_uint64.bind_pure fun _ _ => ⟨⟨rfl, trivial⟩, rfl⟩

/-- An instruction has an opcode of the table and the operand that the table asks for. -/
theorem yields_instruction : Yields instruction Encode.instruction Instruction.WellFormed := by
  intro p i x j h
  rw [gives_instruction, gives_bareInstruction] at h
  obtain ⟨k, e, hop, he, ho⟩ := h
  obtain ⟨_, hpos⟩ := gives_byte.mp hop
  obtain ⟨op, o⟩ := x
  simp only at he ho
  cases hkind : e.operand with
  | none =>
    rw [hkind] at ho
    obtain ⟨rfl, rfl⟩ := gives_pure.mp ho
    refine ⟨⟨?_, fun o ho => ?_⟩, ?_⟩
    · rw [he, Option.map_some, hkind]
      rfl
    · cases ho
    · simp only [Encode.instruction, List.length_singleton]
      omega
  | some kind =>
    rw [hkind] at ho
    simp only [operand?, gives_bind, gives_pure] at ho
    obtain ⟨o', _, ho', rfl, rfl⟩ := ho
    obtain ⟨⟨rfl, hwf⟩, hpos'⟩ := yields_operandOf kind _ _ _ _ ho'
    refine ⟨⟨?_, ?_⟩, ?_⟩
    · rw [he, Option.map_some, hkind]
      rfl
    · intro o ho
      cases ho
      exact hwf
    · simp only [Encode.instruction, List.length_cons]
      omega

/-- The loop stops at the first `end`. -/
theorem yields_expressionLoop (fuel : Bytes) : Yields (expressionLoop fuel) Encode.code Code.IsExpression := by
  induction fuel with
  | nil =>
    intro p i c j h
    exact absurd h not_gives_expressionLoop_nil
  | cons _ fuel ih =>
    intro p i c j h
    simp only [expressionLoop, gives_bind] at h
    obtain ⟨x, k, hx, h⟩ := h
    obtain ⟨hwf, hpos⟩ := yields_instruction _ _ _ _ hx
    by_cases hend : x.op = .blockEnd
    · rw [if_pos hend] at h
      obtain ⟨rfl, rfl⟩ := gives_pure.mp h
      refine ⟨Code.isExpression_cons.mpr ⟨hwf, by rw [if_pos hend]⟩, ?_⟩
      rwa [Encode.code, List.flatMap_singleton]
    · rw [if_neg hend] at h
      simp only [gives_bind, gives_pure] at h
      obtain ⟨c', _, hc, rfl, rfl⟩ := h
      obtain ⟨hexpr, hpos'⟩ := ih _ _ _ _ hc
      refine ⟨Code.isExpression_cons.mpr ⟨hwf, by rwa [if_neg hend]⟩, ?_⟩
      rw [Encode.code] at hpos' ⊢
      rw [List.flatMap_cons, List.length_append]
      omega

theorem yields_expression : Yields expression Encode.code Code.IsExpression := by
  intro p i c j h
  simp only [expression, gives_restoring, gives_bind, gives_remaining] at h
  obtain ⟨_, _, ⟨rfl, rfl⟩, h⟩ := h
  exact yields_expressionLoop _ _ _ _ _ h

theorem yields_codeLoop (fuel left : Nat) : Yields (codeLoop fuel left) Encode.code fun c => ∀ x ∈ c, x.WellFormed := by
  induction fuel generalizing left with
  | zero =>
    intro p i c j h
    obtain ⟨_, rfl, rfl⟩ := gives_codeLoop_zero.mp h
    exact ⟨List.forall_mem_nil _, Nat.le_refl _⟩
  | succ fuel ih =>
    intro p i c j h
    rw [codeLoop] at h
    by_cases hmore : 1 < left
    · rw [if_pos hmore] at h
      simp only [gives_bind, gives_pure, Prod.exists, gives_measured] at h
      obtain ⟨x, n, k, ⟨hx, _⟩, c', _, hc, rfl, rfl⟩ := h
      obtain ⟨hwf, hpos⟩ := yields_instruction _ _ _ _ hx
      obtain ⟨hall, hpos'⟩ := ih _ _ _ _ _ hc
      refine ⟨List.forall_mem_cons.mpr ⟨hwf, hall⟩, ?_⟩
      rw [Encode.code] at hpos' ⊢
      rw [List.flatMap_cons, List.length_append]
      omega
    · rw [if_neg hmore] at h
      obtain ⟨rfl, rfl⟩ := gives_pure.mp h
      exact ⟨List.forall_mem_nil _, Nat.le_refl _⟩

/-! ## Entries -/

theorem yields_importType {kind : ExternalKind} (hk : kind.byte ≤ ExternalKind.global.byte) :
    Yields (importType kind) Encode.importType fun t => kind = t.kind ∧ t.WellFormed := by
  unfold importType
  by_cases h1 : kind = .function
  · rw [if_pos h1]
    exact yields_varuint32.bind_pure fun _ _ => ⟨⟨h1, trivial⟩, rfl⟩
  rw [if_neg h1]
  by_cases h2 : kind = .table
  · rw [if_pos h2]
    exact yields_tableType.bind_pure fun _ h => ⟨⟨h2, h⟩, rfl⟩
  rw [if_neg h2]
  by_cases h3 : kind = .memory
  · rw [if_pos h3]
    exact yields_memoryType.bind_pure fun _ h => ⟨⟨h3, h⟩, rfl⟩
  rw [if_neg h3]
  -- the fourth kind is the only one that is left
  have h4 : kind = .global := by
    obtain ⟨b⟩ := kind
    simp only [ExternalKind.function, ExternalKind.table, ExternalKind.memory, ExternalKind.global, ExternalKind.mk.injEq,
      UInt8.le_iff_toNat_le, ← UInt8.toNat_inj, UInt8.reduceToNat] at *
    omega
  exact yields_globalType.bind_pure fun _ h => ⟨⟨h4, h⟩, rfl⟩

theorem yields_importEntry : Yields importEntry Encode.importEntry Import.WellFormed := by
  intro p i a j h
  simp only [importEntry, gives_restoring, gives_bind, gives_within, gives_pure] at h
  obtain ⟨moduleName, k, hmodule, field, l, hfield, kind, o, hkind, type, _, htype, rfl, rfl⟩ := h
  obtain ⟨hname, hpos1⟩ := yields_nameText _ _ _ _ hmodule
  obtain ⟨hname', hpos2⟩ := yields_nameText _ _ _ _ hfield
  obtain ⟨hle, hpos3⟩ := yields_externalKind _ _ _ _ hkind
  obtain ⟨⟨heq, hwf⟩, hpos4⟩ := yields_importType hle _ _ _ _ htype
  refine ⟨⟨hname, hname', heq, hwf⟩, ?_⟩
  rw [List.length_singleton] at hpos3
  simp only [Encode.importEntry, List.length_append, List.length_cons]
  omega

theorem yields_exportEntry : Yields exportEntry Encode.exportEntry Export.WellFormed := by
  intro p i a j h
  simp only [exportEntry, gives_restoring, gives_bind, gives_within, gives_pure] at h
  obtain ⟨field, k, hfield, kind, l, hkind, index, _, hindex, rfl, rfl⟩ := h
  obtain ⟨hname, hpos1⟩ := yields_nameText _ _ _ _ hfield
  obtain ⟨hle, hpos2⟩ := yields_externalKind _ _ _ _ hkind
  have hpos3 := (yields_varuint32 _ _ _ _ hindex).2
  refine ⟨⟨hname, hle⟩, ?_⟩
  rw [List.length_singleton] at hpos2
  simp only [Encode.exportEntry, List.length_append, List.length_cons]
  omega

theorem yields_globalEntry : Yields globalEntry Encode.globalEntry Global.WellFormed := by
  intro p i a j h
  simp only [globalEntry, gives_restoring, gives_bind, gives_within, gives_pure] at h
  obtain ⟨type, k, htype, init, _, hinit, rfl, rfl⟩ := h
  obtain ⟨hwf, hpos⟩ := yields_globalType _ _ _ _ htype
  obtain ⟨hexpr, hpos'⟩ := yields_expression _ _ _ _ hinit
  refine ⟨⟨hwf, hexpr⟩, ?_⟩
  simp only [Encode.globalEntry, List.length_append]
  omega

theorem yields_element : Yields element Encode.element Element.WellFormed := by
  intro p i a j h
  simp only [element, gives_restoring, gives_bind, gives_within, gives_pure] at h
  obtain ⟨table, k, htable, offset, l, hoffset, functions, _, hfunctions, rfl, rfl⟩ := h
  have hpos1 := (yields_varuint32 _ _ _ _ htable).2
  obtain ⟨hexpr, hpos2⟩ := yields_expression _ _ _ _ hoffset
  have hpos3 := (yields_varuint32.list _ _ _ _ _ _ hfunctions).2
  refine ⟨hexpr, ?_⟩
  simp only [Encode.element, List.length_append]
  omega

theorem yields_dataSegment : Yields dataSegment Encode.dataSegment Data.WellFormed := by
  intro p i a j h
  simp only [dataSegment, gives_restoring, gives_bind, gives_within, gives_pure] at h
  obtain ⟨memory, k, hmemory, offset, l, hoffset, n, o, hn, b, _, hb, rfl, rfl⟩ := h
  have hpos1 := (yields_varuint32 _ _ _ _ hmemory).2
  obtain ⟨hexpr, hpos2⟩ := yields_expression _ _ _ _ hoffset
  have hpos3 := length_sized_le hn hb
  refine ⟨hexpr, ?_⟩
  simp only [Encode.dataSegment, List.length_append]
  omega

theorem yields_localGroup : Yields localGroup Encode.localGroup LocalGroup.WellFormed := by
  intro p i a j h
  simp only [localGroup, gives_restoring, gives_bind, gives_within, gives_pure] at h
  obtain ⟨n, k, hn, type, _, htype, rfl, rfl⟩ := h
  have hpos := (yields_varuint32 _ _ _ _ hn).2
  obtain ⟨hmem, hpos'⟩ := yields_valueType _ _ _ _ htype
  refine ⟨hmem, ?_⟩
  simp only [Encode.localGroup, List.length_append]
  omega

/-- The content of a body is written in no more than the size that was declared for it, all of which was read. -/
theorem length_bodyContent_le {size start : Nat} {f : FuncBody} (h : (bodyContent size start).Gives p i f j) :
    f.WellFormed ∧ (Encode.bodyContent f).length ≤ size := by
  simp only [bodyContent, gives_bind, gives_position, gives_ensure, gives_pure, Prod.exists, gives_measured] at h
  obtain ⟨locals, n, k, ⟨hlocals, hn⟩, code, m, l, ⟨hcode, hm⟩, _, _, ⟨_, rfl⟩, last, o, _, ⟨hlast, ho⟩, _, _, ⟨_, rfl⟩, _, _,
    ⟨hsum, rfl⟩, rfl, rfl⟩ := h
  obtain ⟨hall, hpos1⟩ := yields_localGroup.list _ _ _ _ _ _ hlocals
  obtain ⟨hall', hpos2⟩ := yields_codeLoop _ _ _ _ _ _ hcode
  have hpos3 := (takes_instruction.rest_length hlast).2
  have hsize := of_decide_eq_true hsum
  refine ⟨⟨hall, hall'⟩, ?_⟩
  simp only [Encode.bodyContent, List.length_append, List.length_singleton]
  omega

theorem yields_funcBody : Yields funcBody Encode.funcBody FuncBody.WellFormed := by
  intro p i f j h
  simp only [funcBody, gives_restoring, gives_bind, gives_within, gives_position, gives_hasRoom, gives_ensure] at h
  obtain ⟨size, k, hsize, _, _, ⟨_, rfl⟩, _, _, ⟨_, rfl⟩, _, _, ⟨_, rfl⟩, h⟩ := h
  obtain ⟨hwf, hle⟩ := length_bodyContent_le h
  have hend := bodyContent_size h
  have hpos := length_number_le_of_gives_count hsize hle
  refine ⟨hwf, ?_⟩
  rw [Encode.funcBody, Encode.sized, List.length_append]
  omega

/-! ## Sections -/

theorem yields_custom : Yields custom (fun (n, b) => Encode.payload (.custom n b)) fun (n, _) => IsName n := by
  rintro p i ⟨n, b⟩ j h
  obtain ⟨k, hn, rfl, rfl⟩ := gives_custom.mp h
  obtain ⟨hname, hpos⟩ := yields_nameText _ _ _ _ hn
  refine ⟨hname, ?_⟩
  simp only [Encode.payload, List.length_append]
  omega

/-- The payload of an id is the one that the id stands for. -/
theorem yields_payload (id : SectionId) :
    Yields (payload id) Encode.payload fun a => a.id? = (if id.isKnown then some id else none) ∧ a.WellFormed := by
  by_cases hknown : id.isKnown = true
  · rcases SectionId.isKnown_iff.mp hknown with rfl | rfl | rfl | rfl | rfl | rfl | rfl | rfl | rfl | rfl | rfl
    · exact (yields_funcType.vector _ _).map fun _ h => ⟨⟨rfl, h⟩, rfl⟩
    · exact (yields_importEntry.vector _ _).map fun _ h => ⟨⟨rfl, h⟩, rfl⟩
    · exact (yields_varuint32.vector _ _).map fun _ _ => ⟨⟨rfl, trivial⟩, rfl⟩
    · exact (yields_tableType.vector _ _).map fun _ h => ⟨⟨rfl, h⟩, rfl⟩
    · exact (yields_memoryType.vector _ _).map fun _ h => ⟨⟨rfl, h⟩, rfl⟩
    · exact (yields_globalEntry.vector _ _).map fun _ h => ⟨⟨rfl, h⟩, rfl⟩
    · exact (yields_exportEntry.vector _ _).map fun _ h => ⟨⟨rfl, h⟩, rfl⟩
    · exact (yields_varuint32.within _).restoring.map fun _ _ => ⟨⟨rfl, trivial⟩, rfl⟩
    · exact (yields_element.vector _ _).map fun _ h => ⟨⟨rfl, h⟩, rfl⟩
    · exact (yields_funcBody.vector _ _).map fun _ h => ⟨⟨rfl, h⟩, rfl⟩
    · exact (yields_dataSegment.vector _ _).map fun _ h => ⟨⟨rfl, h⟩, rfl⟩
  · rw [payload_of_not_isKnown hknown, if_neg hknown]
    exact yields_custom.map fun _ h => ⟨⟨rfl, h⟩, rfl⟩

/-- A section is well-formed, and its payload is written in a size of 32 bits. -/
theorem yields_anySection : Yields anySection (fun s => Encode.sectionOf s.id (Encode.payload s.payload)) fun s =>
    s.WellFormed ∧ (Encode.payload s.payload).length < UInt32.size := by
  intro p i s j h
  obtain ⟨byte, k, size, l, a, o, hbyte, hsize, hle, ha, rfl, rfl⟩ := gives_anySection.mp h
  obtain ⟨hlt, hpos⟩ := yields_varuint7 _ _ _ _ hbyte
  obtain ⟨⟨hid, hwf⟩, hpos'⟩ := yields_payload _ _ _ _ _ ha
  -- the payload is read from as many bytes as the header declares, and not all of them need be taken
  have hend := payload_rest_length ha
  rw [List.length_take_of_le hle.2] at hend
  have hfits : (Encode.payload a).length ≤ size := by
    simp only at hpos' hend
    omega
  have hnumber := length_number_le_of_gives_count hsize hfits
  refine ⟨⟨⟨hlt, hid, hwf⟩, Nat.lt_of_le_of_lt hfits (lt_of_gives_count hsize)⟩, ?_⟩
  rw [List.length_singleton] at hpos
  simp only [Encode.sectionOf, Encode.sized, List.length_cons, List.length_append]
  omega

end WasmInspect.Grammar
