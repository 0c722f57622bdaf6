import WasmInspect.Proofs.Grammar.Success
import WasmInspect.Proofs.Reader.Takes

/-!
# The productions look no further than they read

Every production takes bytes and is decided by them alone, with one exception: the payload of a custom section, which takes all
there is. The least number of bytes of an entry is the one that the section's reader counts on when it compares the number of
entries with the bytes that are left, so that check refuses no list that could be read.
-/

namespace WasmInspect.Grammar

open Reader

/-! ## Bytes and numbers -/

theorem takes_byte : Takes 1 byte := by
  intro p i x j h
  obtain ⟨hr, hp⟩ := gives_byte.mp h
  exact ⟨[x], Nat.le_refl _, hr, hp, fun q suf => gives_byte.mpr ⟨rfl, hp⟩⟩

theorem takes_bytes (n : Nat) : Takes n (bytes n) := by
  intro p i b j h
  obtain ⟨hpos, hlen, hr, hp⟩ := gives_bytes.mp h
  refine ⟨b, Nat.le_of_eq hlen.symm, hr, by rw [hp, hlen], fun q suf => ?_⟩
  exact gives_bytes.mpr ⟨hpos, hlen, rfl, hp⟩

theorem takes_leb128 {bits : Nat} (h : 0 < Leb128.limit bits) : Takes 1 (leb128 bits) := by
  intro p i g j hg
  obtain ⟨hn, hr, hp⟩ := gives_leb128.mp hg
  exact ⟨g, hn.length_pos h, hr, hp, fun q suf => gives_leb128.mpr ⟨hn, rfl, hp⟩⟩

theorem takes_word (n : Nat) : Takes n (word n) := by
  refine Takes.bind (takes_bytes n) fun b => ?_
  rw [Nat.sub_self]
  exact Takes.pure _

theorem takes_uint8 : Takes 1 uint8 := Takes.bind (takes_word 1) fun _ => Takes.pure _

theorem takes_uint16 : Takes 2 uint16 := Takes.bind (takes_word 2) fun _ => Takes.pure _

theorem takes_uint32 : Takes 4 uint32 := Takes.bind (takes_word 4) fun _ => Takes.pure _

theorem takes_uint64 : Takes 8 uint64 := Takes.bind (takes_word 8) fun _ => Takes.pure _

theorem takes_varuint {bits : Nat} (h : 0 < Leb128.limit bits) : Takes 1 (varuint bits) :=
  (Takes.bind (takes_leb128 h) fun _ => Takes.pure _).restoring

theorem takes_varint {bits : Nat} (h : 0 < Leb128.limit bits) : Takes 1 (varint bits) :=
  (Takes.bind (takes_leb128 h) fun _ => Takes.pure _).restoring

theorem takes_varuint1 : Takes 1 varuint1 := Takes.bind (takes_varuint (by decide)) fun _ => Takes.pure _

theorem takes_varuint7 : Takes 1 varuint7 := Takes.bind (takes_varuint (by decide)) fun _ => Takes.pure _

theorem takes_varuint32 : Takes 1 varuint32 := Takes.bind (takes_varuint (by decide)) fun _ => Takes.pure _

theorem takes_varuint64 : Takes 1 varuint64 := Takes.bind (takes_varuint (by decide)) fun _ => Takes.pure _

theorem takes_varint7 : Takes 1 varint7 := Takes.bind (takes_varint (by decide)) fun _ => Takes.pure _

theorem takes_varint16 : Takes 1 varint16 := Takes.bind (takes_varint (by decide)) fun _ => Takes.pure _

theorem takes_varint32 : Takes 1 varint32 := Takes.bind (takes_varint (by decide)) fun _ => Takes.pure _

theorem takes_varint64 : Takes 1 varint64 := Takes.bind (takes_varint (by decide)) fun _ => Takes.pure _

theorem takes_count : Takes 1 count := Takes.bind takes_varuint32 fun _ => Takes.pure _

theorem takes_name : Takes 1 name := (Takes.bind takes_count fun n => (takes_bytes n).mono (Nat.zero_le _)).restoring

theorem takes_nameText : Takes 1 nameText := Takes.bind takes_name fun _ => Takes.pure _

/-! ## Lists -/

section

variable {α : Type} {r : Reader α} {least : Nat}

/-- The check on the count of a list asks for no more bytes than the entries take. -/
theorem takes_list (counts item : String) (h : Takes 1 r) : Takes 1 (list counts item r) := by
  refine Takes.bind (takes_count.within _) fun n => Takes.mono (n := n) ?_ (Nat.zero_le _)
  have hn : Takes n (entries item r n 0) := by
    have := Takes.entries item h n 0
    rwa [Nat.mul_one] at this
  refine Takes.guarded hn ?_ ?_
  · intro p i xs j hg
    simp only [gives_bind, gives_admits, gives_ensure] at hg
    obtain ⟨_, _, ⟨_, rfl⟩, _, _, ⟨_, rfl⟩, hxs⟩ := hg
    exact hxs
  · intro p i xs j hle hxs
    simp only [gives_bind, gives_admits, gives_ensure]
    exact ⟨true, i, ⟨decide_eq_true (Or.inr hle), rfl⟩, (), i, ⟨rfl, rfl⟩, hxs⟩

/-- Nor does the check on the count of a section's entries, if an entry takes as many bytes as it assumes. -/
theorem takes_vector (item : String) (h : Takes least r) : Takes 1 (vector item least r) := by
  apply Takes.restoring
  refine Takes.bind (takes_count.within _) fun n => Takes.mono (n := n * least) ?_ (Nat.zero_le _)
  refine Takes.guarded (Takes.entries item h n 0) ?_ ?_
  · intro p i xs j hg
    simp only [gives_bind, gives_admits, gives_remaining, gives_ensure] at hg
    obtain ⟨_, _, ⟨_, rfl⟩, _, _, ⟨_, rfl⟩, _, _, ⟨_, rfl⟩, hxs⟩ := hg
    exact hxs
  · intro p i xs j hle hxs
    simp only [gives_bind, gives_admits, gives_remaining, gives_ensure]
    exact ⟨true, i, ⟨decide_eq_true (Or.inr hle), rfl⟩, i.rest, i, ⟨rfl, rfl⟩, (), i, ⟨rfl, rfl⟩, hxs⟩

end

/-! ## Tags and types -/

theorem takes_tag {α : Type} {n : Nat} (site : TagSite) {r : Reader UInt8} (accept : UInt8 → Option α) (h : Takes n r) :
    Takes n (tag site r accept) := by
  intro p i a j hg
  obtain ⟨t, hr, ha⟩ := gives_tag.mp hg
  obtain ⟨w, hn, hw, hj, hr'⟩ := h p i t j hr
  exact ⟨w, hn, hw, hj, fun q suf => gives_tag.mpr ⟨t, hr' q suf, ha⟩⟩

theorem takes_valueType : Takes 1 valueType := takes_tag _ _ takes_varuint7

theorem takes_blockType : Takes 1 blockType := takes_tag _ _ takes_varuint7

theorem takes_elementType : Takes 1 elementType := takes_tag _ _ takes_uint8

theorem takes_externalKind : Takes 1 externalKind := takes_tag _ _ takes_uint8

theorem takes_limits : Takes 2 limits := by
  apply Takes.restoring
  refine Takes.bind (takes_tag _ _ (takes_varuint1.within _)) fun flags => ?_
  refine Takes.bind (takes_varuint32.within _) fun initial => ?_
  refine Takes.ite (fun _ => Takes.pure _) fun _ => ?_
  exact Takes.bind (takes_varuint32.within _) fun maximum => Takes.pure _

theorem takes_funcType : Takes 3 funcType := by
  apply Takes.restoring
  refine Takes.bind (takes_tag _ _ takes_uint8) fun _ => ?_
  refine Takes.bind (takes_list _ _ takes_valueType) fun params => ?_
  refine Takes.bind (takes_tag _ _ (takes_varuint1.within _)) fun returns => ?_
  refine Takes.ite (fun _ => ?_) fun _ => Takes.pure _
  exact Takes.bind (takes_valueType.within _) fun result => Takes.pure _

theorem takes_tableType : Takes 3 tableType := by
  apply Takes.restoring
  refine Takes.bind takes_elementType fun element => ?_
  exact Takes.bind (takes_limits.within _) fun l => Takes.pure _

theorem takes_memoryType : Takes 2 memoryType :=
  (Takes.bind (takes_limits.within _) fun _ => Takes.pure _).restoring

theorem takes_globalType : Takes 2 globalType := by
  apply Takes.restoring
  refine Takes.bind takes_valueType fun value => ?_
  exact Takes.bind (takes_varuint1.within _) fun flag => Takes.pure _

/-! ## Instructions and expressions -/

theorem takes_operandOf (k : OperandKind) : Takes 1 (operandOf k) := by
  cases k with
  | block => exact Takes.bind takes_blockType fun _ => Takes.pure _
  | index => exact Takes.bind takes_varuint32 fun _ => Takes.pure _
  | branchTable =>
    apply Takes.restoring
    refine Takes.bind (takes_list _ _ takes_varuint32) fun targets => ?_
    exact Takes.bind (takes_varuint32.within _) fun default => Takes.pure _
  | indirectCall => exact Takes.bind takes_varuint32 fun t => Takes.bind takes_varuint1 fun reserved => Takes.pure _
  | memory => exact Takes.bind takes_varuint32 fun flags => Takes.bind takes_varuint32 fun offset => Takes.pure _
  | reserved => exact Takes.bind takes_varuint1 fun _ => Takes.pure _
  | i32 => exact Takes.bind takes_varint32 fun _ => Takes.pure _
  | i64 => exact Takes.bind takes_varint64 fun _ => Takes.pure _
  | f32 => exact Takes.bind takes_uint32 fun _ => Takes.pure _
  | f64 => exact Takes.bind takes_uint64 fun _ => Takes.pure _

theorem takes_operand? (k : Option OperandKind) : Takes 0 (operand? k) := by
  cases k with
  | none => exact Takes.pure none
  | some k => exact Takes.bind (takes_operandOf k) fun _ => Takes.pure _

theorem takes_bareInstruction : Takes 1 bareInstruction := by
  refine Takes.bind Takes.position fun pos => Takes.bind takes_byte fun op => ?_
  cases Opcode.entry? ⟨op⟩ with
  | none => exact Takes.fail _
  | some e => exact Takes.bind ((takes_operand? e.operand).within _) fun o => Takes.pure _

/-- The trace of an instruction does not change what is read. -/
@[simp] theorem gives_instruction {p : CountPolicy} {i j : Input} {x : Instruction} :
    instruction.Gives p i x j ↔ bareInstruction.Gives p i x j := by
  simp only [instruction, gives_restoring, gives_bind, gives_position, gives_log, gives_pure, Prod.exists, takes_bareInstruction.gives_captured]
  constructor
  · rintro ⟨_, _, ⟨rfl, rfl⟩, y, _, k, ⟨hy, rfl⟩, _, _, rfl, rfl, rfl⟩
    exact hy
  · intro hx
    exact ⟨_, i, ⟨rfl, rfl⟩, x, _, j, ⟨hx, rfl⟩, (), j, rfl, rfl, rfl⟩

theorem takes_instruction : Takes 1 instruction :=
  takes_bareInstruction.congr fun _ _ _ _ => gives_instruction

theorem takes_expressionLoop (fuel : Bytes) : Takes 1 (expressionLoop fuel) := by
  induction fuel with
  | nil => exact Takes.bind takes_instruction fun _ => Takes.outOfRounds
  | cons _ fuel ih =>
    refine Takes.bind takes_instruction fun x => Takes.ite (fun _ => Takes.pure _) fun _ => ?_
    exact Takes.bind ih fun code => Takes.pure _

/-- The fuel of an expression does not matter as long as there is some for each byte of it. -/
theorem expressionLoop_fuel {fuel fuel' : Bytes} {p : CountPolicy} {i j : Input} {c : Code}
    (h : (expressionLoop fuel).Gives p i c j) (hf : j.pos ≤ i.pos + fuel'.length) : (expressionLoop fuel').Gives p i c j := by
  induction fuel generalizing fuel' i c with
  | nil => exact absurd h not_gives_expressionLoop_nil
  | cons _ fuel ih =>
    simp only [expressionLoop, gives_bind] at h
    obtain ⟨x, k, hx, h⟩ := h
    have hk := (takes_instruction.rest_length hx).2
    cases fuel' with
    | nil =>
      -- an instruction has taken a byte already
      exfalso
      have hjk : k.pos ≤ j.pos := by
        by_cases hend : x.op = .blockEnd
        · simp only [hend, if_true, gives_pure] at h
          rw [h.2]
        · simp only [hend, if_false, gives_bind, gives_pure] at h
          obtain ⟨_, l, hc, _, rfl⟩ := h
          have := ((takes_expressionLoop fuel).rest_length hc).2
          omega
      simp only [List.length_nil] at hf
      omega
    | cons y fuel' =>
      simp only [expressionLoop, gives_bind]
      refine ⟨x, k, hx, ?_⟩
      by_cases hend : x.op = .blockEnd
      · simp only [hend, if_true] at h ⊢
        exact h
      · simp only [hend, if_false, gives_bind, gives_pure] at h ⊢
        obtain ⟨c', l, hc, rfl, rfl⟩ := h
        refine ⟨c', l, ih hc ?_, rfl, rfl⟩
        simp only [List.length_cons] at hf
        omega

theorem takes_expression : Takes 1 expression := by
  intro p i c j h
  simp only [expression, gives_restoring, gives_bind, gives_remaining] at h
  obtain ⟨_, _, ⟨rfl, rfl⟩, h⟩ := h
  obtain ⟨w, hn, hw, hj, hr⟩ := takes_expressionLoop i.rest p i c j h
  refine ⟨w, hn, hw, hj, fun q suf => ?_⟩
  simp only [expression, gives_restoring, gives_bind, gives_remaining]
  refine ⟨_, _, ⟨rfl, rfl⟩, expressionLoop_fuel (hr q suf) ?_⟩
  simp only [List.length_append]
  omega

theorem takes_codeLoop (fuel left : Nat) : Takes 0 (codeLoop fuel left) := by
  induction fuel generalizing left with
  | zero => exact Takes.ite (fun _ => Takes.outOfRounds) fun _ => Takes.pure _
  | succ fuel ih =>
    rw [codeLoop]
    refine Takes.ite (fun _ => ?_) fun _ => Takes.pure _
    refine Takes.bind takes_instruction.measured fun a => ?_
    obtain ⟨x, n⟩ := a
    exact Takes.bind (ih (left - n)) fun code => Takes.pure _

/-! ## Entries -/

theorem takes_importType (kind : ExternalKind) : Takes 1 (importType kind) := by
  refine Takes.ite (fun _ => Takes.bind takes_varuint32 fun _ => Takes.pure _) fun _ => ?_
  refine Takes.ite (fun _ => Takes.bind takes_tableType fun _ => Takes.pure _) fun _ => ?_
  refine Takes.ite (fun _ => Takes.bind takes_memoryType fun _ => Takes.pure _) fun _ => ?_
  exact Takes.bind takes_globalType fun _ => Takes.pure _

theorem takes_importEntry : Takes 4 importEntry := by
  apply Takes.restoring
  refine Takes.bind (takes_nameText.within _) fun moduleName => ?_
  refine Takes.bind (takes_nameText.within _) fun field => ?_
  refine Takes.bind takes_externalKind fun kind => ?_
  exact Takes.bind ((takes_importType kind).within _) fun type => Takes.pure _

theorem takes_exportEntry : Takes 3 exportEntry := by
  apply Takes.restoring
  refine Takes.bind (takes_nameText.within _) fun field => ?_
  refine Takes.bind takes_externalKind fun kind => ?_
  exact Takes.bind (takes_varuint32.within _) fun index => Takes.pure _

theorem takes_globalEntry : Takes 3 globalEntry := by
  apply Takes.restoring
  refine Takes.bind takes_globalType fun type => ?_
  exact Takes.bind (takes_expression.within _) fun init => Takes.pure _

theorem takes_element : Takes 3 element := by
  apply Takes.restoring
  refine Takes.bind (takes_varuint32.within _) fun table => ?_
  refine Takes.bind (takes_expression.within _) fun offset => ?_
  exact Takes.bind (takes_list _ _ takes_varuint32) fun functions => Takes.pure _

theorem takes_dataSegment : Takes 3 dataSegment := by
  apply Takes.restoring
  refine Takes.bind (takes_varuint32.within _) fun memory => ?_
  refine Takes.bind (takes_expression.within _) fun offset => ?_
  refine Takes.bind (takes_count.within _) fun n => ?_
  refine Takes.bind (((takes_bytes n).mono (Nat.zero_le n)).within _) fun b => Takes.pure _

theorem takes_localGroup : Takes 2 localGroup := by
  apply Takes.restoring
  refine Takes.bind (takes_varuint32.within _) fun n => ?_
  exact Takes.bind takes_valueType fun type => Takes.pure _

theorem takes_bodyContent (size start : Nat) : Takes 2 (bodyContent size start) := by
  refine Takes.bind (takes_list _ _ (takes_localGroup.mono (by decide))).measured fun (locals, n) => ?_
  refine Takes.bind (takes_codeLoop _ _).measured fun (code, m) => ?_
  refine Takes.bind Takes.position fun pos => ?_
  refine Takes.bind takes_instruction.measured fun (last, k) => ?_
  exact Takes.bind (Takes.ensure _ _) fun _ => Takes.bind (Takes.ensure _ _) fun _ => Takes.pure _

/-- The last check on a body says that its content has the declared size. -/
theorem bodyContent_size {size start : Nat} {p : CountPolicy} {i j : Input} {f : FuncBody}
    (h : (bodyContent size start).Gives p i f j) : j.pos = i.pos + size := by
  simp only [bodyContent, gives_bind, gives_position, gives_ensure, gives_pure, Prod.exists, gives_measured] at h
  obtain ⟨locals, n, k, ⟨hlocals, hn⟩, code, m, l, ⟨hcode, hm⟩, _, _, ⟨_, rfl⟩, last, o, _, ⟨hlast, ho⟩, _, _, ⟨_, rfl⟩, _, _,
    ⟨hsum, rfl⟩, _, rfl⟩ := h
  have h1 := ((takes_list _ _ (takes_localGroup.mono (m := 1) (by decide))).rest_length hlocals).2
  have h2 := ((takes_codeLoop _ _).rest_length hcode).2
  have h3 := (takes_instruction.rest_length hlast).2
  have := of_decide_eq_true hsum
  omega

theorem takes_funcBody : Takes 3 funcBody := by
  apply Takes.restoring
  refine Takes.bind (takes_count.within _) fun size => Takes.bind Takes.position fun start => ?_
  -- the content takes the size that is asked for, and two bytes at least
  have hcontent : Takes (max size 2) (bodyContent size start) := by
    refine (takes_bodyContent size start).strengthen fun p i f j h => ?_
    have h1 := bodyContent_size h
    have h2 := ((takes_bodyContent size start).rest_length h).2
    omega
  refine Takes.mono (n := max size 2) ?_ (Nat.le_max_right size 2)
  refine Takes.guarded hcontent ?_ ?_
  · intro p i f j h
    simp only [gives_bind, gives_hasRoom, gives_ensure] at h
    obtain ⟨_, _, ⟨_, rfl⟩, _, _, ⟨_, rfl⟩, h⟩ := h
    exact h
  · intro p i f j hle h
    simp only [gives_bind, gives_hasRoom, gives_ensure]
    exact ⟨true, i, ⟨decide_eq_true (by omega), rfl⟩, (), i, ⟨rfl, rfl⟩, h⟩

/-! ## Sections -/

theorem takes_types : Takes 1 types := takes_vector _ (takes_funcType.mono (by decide))

theorem takes_imports : Takes 1 imports := takes_vector _ (takes_importEntry.mono (by decide))

theorem takes_functions : Takes 1 functions := takes_vector _ takes_varuint32

theorem takes_tables : Takes 1 tables := takes_vector _ takes_tableType

theorem takes_memories : Takes 1 memories := takes_vector _ takes_memoryType

theorem takes_globals : Takes 1 globals := takes_vector _ takes_globalEntry

theorem takes_exports : Takes 1 exports := takes_vector _ takes_exportEntry

theorem takes_start : Takes 1 start := (takes_varuint32.within _).restoring

theorem takes_elements : Takes 1 elements := takes_vector _ takes_element

theorem takes_code : Takes 1 code := takes_vector _ (takes_funcBody.mono (by decide))

theorem takes_data : Takes 1 data := takes_vector _ takes_dataSegment

/-- The payload of a section with a meaning of its own. -/
theorem takes_payload {id : SectionId} (h : id.isKnown = true) : Takes 1 (payload id) := by
  unfold payload
  refine Takes.ite (fun _ => takes_types.map _) fun h1 => ?_
  refine Takes.ite (fun _ => takes_imports.map _) fun h2 => ?_
  refine Takes.ite (fun _ => takes_functions.map _) fun h3 => ?_
  refine Takes.ite (fun _ => takes_tables.map _) fun h4 => ?_
  refine Takes.ite (fun _ => takes_memories.map _) fun h5 => ?_
  refine Takes.ite (fun _ => takes_globals.map _) fun h6 => ?_
  refine Takes.ite (fun _ => takes_exports.map _) fun h7 => ?_
  refine Takes.ite (fun _ => takes_start.map _) fun h8 => ?_
  refine Takes.ite (fun _ => takes_elements.map _) fun h9 => ?_
  refine Takes.ite (fun _ => takes_code.map _) fun h10 => ?_
  refine Takes.ite (fun _ => takes_data.map _) fun h11 => ?_
  rw [SectionId.isKnown_iff] at h
  simp_all

@[simp] theorem gives_custom {p : CountPolicy} {i j : Input} {n : String} {b : Bytes} :
    custom.Gives p i (n, b) j ↔ ∃ k, nameText.Gives p i n k ∧ k.rest = b ∧ ⟨k.pos + k.rest.length, []⟩ = j := by
  rw [custom, gives_restoring, (takes_nameText.within _).gives_followed]
  simp only [gives_within]

/-- Counts are not compared in vain: what is read of a payload under one policy is read under every other. -/
theorem payload_policy {id : SectionId} {p q : CountPolicy} {i j : Input} {a : Payload} (h : (payload id).Gives p i a j) :
    (payload id).Gives q i a j := by
  by_cases hid : id.isKnown = true
  · obtain ⟨w, _, hw, _, hr⟩ := takes_payload hid p i a j h
    have := hr q j.rest
    rwa [← hw] at this
  · rw [payload_of_not_isKnown hid] at h ⊢
    simp only [gives_map, Prod.exists, gives_custom] at h ⊢
    obtain ⟨n, b, ⟨k, hn, hb, hj⟩, ha⟩ := h
    obtain ⟨w, _, hw, _, hr⟩ := takes_nameText p i n k hn
    have hn' := hr q k.rest
    rw [← hw] at hn'
    exact ⟨n, b, ⟨k, hn', hb, hj⟩, ha⟩

/-- A payload ends within its input. -/
theorem payload_rest_length {id : SectionId} {p : CountPolicy} {i j : Input} {a : Payload} (h : (payload id).Gives p i a j) :
    j.pos + j.rest.length = i.pos + i.rest.length := by
  by_cases hid : id.isKnown = true
  · exact ((takes_payload hid).rest_length h).1
  · rw [payload_of_not_isKnown hid] at h
    simp only [gives_map, Prod.exists, gives_custom] at h
    obtain ⟨_, _, ⟨k, hn, _, rfl⟩, _⟩ := h
    exact (takes_nameText.rest_length hn).1

theorem takes_anySection : Takes 2 anySection := by
  intro p i s j h
  obtain ⟨byte, k, size, l, a, o, hb, hs, hle, hp, rfl, rfl⟩ := gives_anySection.mp h
  obtain ⟨w, hn, hw, hk, hb'⟩ := takes_varuint7 p i byte k hb
  obtain ⟨v, hm, hv, hl, hs'⟩ := takes_count p k size l hs
  have hlen : (l.rest.take size).length = size := List.length_take_of_le hle.2
  refine ⟨w ++ v ++ l.rest.take size, ?_, ?_, ?_, fun q suf => ?_⟩
  · simp only [List.length_append]
    omega
  · rw [hw, hv, List.append_assoc, List.append_assoc, List.take_append_drop]
  · simp only [List.length_append, hlen]
    omega
  · rw [List.append_assoc, List.append_assoc]
    have hroom : size ≤ (l.rest.take size ++ suf).length := by
      rw [List.length_append]
      omega
    refine gives_anySection.mpr ⟨byte, _, size, _, a, o, hb' q _, hs' q _, ⟨hle.1, hroom⟩, ?_, rfl, ?_⟩
    · rw [List.take_append_of_le_length (Nat.le_of_eq hlen.symm), List.take_take, Nat.min_self]
      exact payload_policy hp
    · rw [List.drop_append_of_le_length (Nat.le_of_eq hlen.symm), List.drop_take, Nat.sub_self, List.take_zero,
        List.nil_append]

end WasmInspect.Grammar
