import WasmInspect.Production
import WasmInspect.Proofs.Grammar.Takes
import WasmInspect.Proofs.Reader.Moves

/-!
# The productions at another place

Every production, `k` positions further on, is read as here: its value or its failure and the trace are the same, with positions
larger by `k`. No production ends in a fault on an input below the bound, since the counts that it adds to a position are 32-bit
words, and since a loop is given a round for each byte and each of its rounds takes a byte.
-/

namespace WasmInspect.Grammar

open Reader

variable {k : Nat}

/-! ## Bytes and numbers -/

/-- Where there is a byte, taking it is no fault. -/
theorem movesAt_next {p : CountPolicy} {i : Input} (h : 1 ≤ i.rest.length) : MovesAt k next next p i := by
  obtain ⟨pos, rest⟩ := i
  cases rest with
  | nil => simp at h
  | cons x rest =>
    refine .of_ok rfl ?_ ⟨Nat.le_add_right _ _, ?_⟩
    · simp only [next, Input.moved, Nat.add_right_comm]
    · simp only [Input.stop, List.length_cons]
      omega

theorem moves_byte : Moves k byte byte := by
  refine Moves.guarded (Moves.hasRoom 1) (fun _ _ _ _ h => (gives_hasRoom.mp h).2) rfl fun p i _ h => ?_
  exact movesAt_next (of_decide_eq_true (gives_hasRoom.mp h).1)

/-- Where there are `n` bytes, taking them is no fault. -/
theorem movesAt_slice {n : Nat} {p : CountPolicy} {i : Input} (hi : i.stop + k < lengthBound) (h : n ≤ i.rest.length) :
    MovesAt k (slice n) (slice n) p i := by
  have hholds : i.holds n = true := Input.holds_of_le (by omega) h
  have hholds' : (i.moved k).holds n = true := Input.holds_of_le (by rwa [Input.stop_moved]) h
  refine .of_ok (a := i.rest.take n) (j := ⟨i.pos + n, i.rest.drop n⟩) ?_ ?_ ⟨Nat.le_add_right _ _, ?_⟩
  · simp only [slice, hholds, if_true]
  · simp only [slice, hholds', if_true]
    simp only [Input.moved, Nat.add_right_comm]
  · simp only [Input.stop, List.length_drop]
    omega

/-- A check that lets no end past all positions through is a check that there is room. -/
theorem le_of_gives_reaches {n : Nat} (hn : n < UInt32.size) {p : CountPolicy} {i : Input} (hi : i.stop < lengthBound)
    (h : (reaches n).Gives p i true i) : n ≤ i.rest.length := by
  simp only [Input.stop, lengthBound, UInt32.size] at hi hn
  rcases of_decide_eq_true (gives_reaches.mp h).1 with hpos | hle
  · unfold positionBound at hpos
    omega
  · exact hle

/-- The sum of a position below the bound and a 32-bit word is a position. -/
theorem moves_bytes {n : Nat} (hn : n < UInt32.size) : Moves k (bytes n) (bytes n) := by
  refine Moves.guarded (Moves.reaches hn) (fun _ _ _ _ h => (gives_reaches.mp h).2) rfl fun p i hi h => ?_
  exact movesAt_slice hi (le_of_gives_reaches hn (by omega) h)

theorem moves_groups (n : Nat) : Moves k (groups n) (groups n) := by
  induction n with
  | zero => exact Moves.pure _
  | succ n ih =>
    refine Moves.bind moves_byte fun x => Moves.ite (fun _ => Moves.pure _) fun _ => ?_
    exact Moves.bind ih fun g => Moves.pure _

theorem moves_leb128 (bits : Nat) : Moves k (leb128 bits) (leb128 bits) := moves_groups _

theorem moves_word {n : Nat} (hn : n < UInt32.size) : Moves k (word n) (word n) :=
  Moves.bind (moves_bytes hn) fun _ => Moves.pure _

theorem moves_uint8 : Moves k uint8 uint8 := Moves.bind (moves_word (by decide)) fun _ => Moves.pure _

theorem moves_uint16 : Moves k uint16 uint16 := Moves.bind (moves_word (by decide)) fun _ => Moves.pure _

theorem moves_uint32 : Moves k uint32 uint32 := Moves.bind (moves_word (by decide)) fun _ => Moves.pure _

theorem moves_uint64 : Moves k uint64 uint64 := Moves.bind (moves_word (by decide)) fun _ => Moves.pure _

theorem moves_varuint (bits : Nat) : Moves k (varuint bits) (varuint bits) :=
  (Moves.bind (moves_leb128 bits) fun _ => Moves.pure _).restoring

theorem moves_varint (bits : Nat) : Moves k (varint bits) (varint bits) :=
  (Moves.bind (moves_leb128 bits) fun _ => Moves.pure _).restoring

theorem moves_varuint1 : Moves k varuint1 varuint1 := Moves.bind (moves_varuint 1) fun _ => Moves.pure _

theorem moves_varuint7 : Moves k varuint7 varuint7 := Moves.bind (moves_varuint 7) fun _ => Moves.pure _

theorem moves_varuint32 : Moves k varuint32 varuint32 := Moves.bind (moves_varuint 32) fun _ => Moves.pure _

theorem moves_varuint64 : Moves k varuint64 varuint64 := Moves.bind (moves_varuint 64) fun _ => Moves.pure _

theorem moves_varint7 : Moves k varint7 varint7 := Moves.bind (moves_varint 7) fun _ => Moves.pure _

theorem moves_varint16 : Moves k varint16 varint16 := Moves.bind (moves_varint 16) fun _ => Moves.pure _

theorem moves_varint32 : Moves k varint32 varint32 := Moves.bind (moves_varint 32) fun _ => Moves.pure _

theorem moves_varint64 : Moves k varint64 varint64 := Moves.bind (moves_varint 64) fun _ => Moves.pure _

theorem moves_count : Moves k count count := Moves.bind moves_varuint32 fun _ => Moves.pure _

theorem moves_name : Moves k name name :=
  (Moves.bind_of_gives moves_count fun _ _ _ _ h => moves_bytes (lt_of_gives_count h)).restoring

theorem moves_nameText : Moves k nameText nameText := Moves.bind moves_name fun _ => Moves.pure _

/-! ## Lists -/

section

variable {α : Type} {r : Reader α}

theorem moves_list (counts item : String) (h : Moves k r r) : Moves k (list counts item r) (list counts item r) := by
  refine Moves.bind (moves_count.within rfl) fun n => ?_
  refine Moves.bind (Moves.admits n) fun fits => ?_
  exact Moves.bind (Moves.ensure fits rfl) fun _ => Moves.entries item h n 0

theorem moves_vector (item : String) (least : Nat) (h : Moves k r r) :
    Moves k (vector item least r) (vector item least r) := by
  apply Moves.restoring
  refine Moves.bind (moves_count.within rfl) fun n => ?_
  refine Moves.bind (Moves.admits (n * least)) fun fits => ?_
  refine Moves.bind Moves.remaining fun rest => ?_
  exact Moves.bind (Moves.ensure fits rfl) fun _ => Moves.entries item h n 0

end

/-! ## Tags and types -/

theorem moves_tag {α : Type} (site : TagSite) {r : Reader UInt8} (accept : UInt8 → Option α) (h : Moves k r r) :
    Moves k (tag site r accept) (tag site r accept) := by
  apply Moves.restoring
  refine Moves.bind_position fun pos => Moves.bind h fun t => ?_
  cases accept t with
  | none => exact Moves.fail rfl
  | some a => exact Moves.pure a

theorem moves_valueType : Moves k valueType valueType := moves_tag _ _ moves_varuint7

theorem moves_blockType : Moves k blockType blockType := moves_tag _ _ moves_varuint7

theorem moves_elementType : Moves k elementType elementType := moves_tag _ _ moves_uint8

theorem moves_externalKind : Moves k externalKind externalKind := moves_tag _ _ moves_uint8

theorem moves_limits : Moves k limits limits := by
  apply Moves.restoring
  refine Moves.bind (moves_tag _ _ (moves_varuint1.within rfl)) fun flags => ?_
  refine Moves.bind (moves_varuint32.within rfl) fun initial => ?_
  refine Moves.ite (fun _ => Moves.pure _) fun _ => ?_
  exact Moves.bind (moves_varuint32.within rfl) fun maximum => Moves.pure _

theorem moves_funcType : Moves k funcType funcType := by
  apply Moves.restoring
  refine Moves.bind (moves_tag _ _ moves_uint8) fun _ => ?_
  refine Moves.bind (moves_list _ _ moves_valueType) fun params => ?_
  refine Moves.bind (moves_tag _ _ (moves_varuint1.within rfl)) fun returns => ?_
  refine Moves.ite (fun _ => ?_) fun _ => Moves.pure _
  exact Moves.bind (moves_valueType.within rfl) fun result => Moves.pure _

theorem moves_tableType : Moves k tableType tableType := by
  apply Moves.restoring
  refine Moves.bind moves_elementType fun element => ?_
  exact Moves.bind (moves_limits.within rfl) fun l => Moves.pure _

theorem moves_memoryType : Moves k memoryType memoryType :=
  (Moves.bind (moves_limits.within rfl) fun _ => Moves.pure _).restoring

theorem moves_globalType : Moves k globalType globalType := by
  apply Moves.restoring
  refine Moves.bind moves_valueType fun value => ?_
  exact Moves.bind (moves_varuint1.within rfl) fun flag => Moves.pure _

/-! ## Instructions and expressions -/

theorem moves_operandOf (o : OperandKind) : Moves k (operandOf o) (operandOf o) := by
  cases o with
  | block => exact Moves.bind moves_blockType fun _ => Moves.pure _
  | index => exact Moves.bind moves_varuint32 fun _ => Moves.pure _
  | branchTable =>
    apply Moves.restoring
    refine Moves.bind (moves_list _ _ moves_varuint32) fun targets => ?_
    exact Moves.bind (moves_varuint32.within rfl) fun default => Moves.pure _
  | indirectCall => exact Moves.bind moves_varuint32 fun t => Moves.bind moves_varuint1 fun reserved => Moves.pure _
  | memory => exact Moves.bind moves_varuint32 fun flags => Moves.bind moves_varuint32 fun offset => Moves.pure _
  | reserved => exact Moves.bind moves_varuint1 fun _ => Moves.pure _
  | i32 => exact Moves.bind moves_varint32 fun _ => Moves.pure _
  | i64 => exact Moves.bind moves_varint64 fun _ => Moves.pure _
  | f32 => exact Moves.bind moves_uint32 fun _ => Moves.pure _
  | f64 => exact Moves.bind moves_uint64 fun _ => Moves.pure _

theorem moves_operand? (o : Option OperandKind) : Moves k (operand? o) (operand? o) := by
  cases o with
  | none => exact Moves.pure none
  | some o => exact Moves.bind (moves_operandOf o) fun _ => Moves.pure _

theorem moves_bareInstruction : Moves k bareInstruction bareInstruction := by
  refine Moves.bind_position fun pos => Moves.bind moves_byte fun op => ?_
  cases Opcode.entry? ⟨op⟩ with
  | none => exact Moves.fail rfl
  | some e => exact Moves.bind ((moves_operand? e.operand).within rfl) fun o => Moves.pure _

theorem moves_instruction : Moves k instruction instruction := by
  apply Moves.restoring
  refine Moves.bind_position fun pos => Moves.bind moves_bareInstruction.captured fun (x, code) => ?_
  exact Moves.bind (Moves.log rfl) fun _ => Moves.pure _

/-- With a round for each byte an expression does not run out of rounds. -/
theorem movesAt_expressionLoop {fuel : Bytes} {p : CountPolicy} {i : Input} (hi : i.stop + k < lengthBound)
    (hfuel : i.rest.length ≤ fuel.length) : MovesAt k (expressionLoop fuel) (expressionLoop fuel) p i := by
  induction fuel generalizing i with
  | nil =>
    refine (moves_instruction p i hi).bind fun x j hx => ?_
    -- there is no byte left for an instruction
    have hj := takes_instruction.rest_length hx
    rw [List.length_nil] at hfuel
    omega
  | cons _ fuel ih =>
    refine (moves_instruction p i hi).bind_below hi fun x j hx hstop => ?_
    have hj := takes_instruction.rest_length hx
    rw [List.length_cons] at hfuel
    by_cases hend : x.op = .blockEnd
    · rw [if_pos hend]
      exact Moves.pure _ p j hstop
    · rw [if_neg hend]
      exact (ih hstop (by omega)).bind_moves hstop fun code => Moves.pure _

theorem moves_expression : Moves k expression expression := by
  apply Moves.restoring
  intro p i hi
  refine (Moves.remaining p i hi).bind fun rest j hg => ?_
  obtain ⟨rfl, rfl⟩ := gives_remaining.mp hg
  exact movesAt_expressionLoop hi (Nat.le_refl _)

/-- With a round for each byte that is left, the code of a body does not run out of rounds. -/
theorem moves_codeLoop {fuel left : Nat} (hfuel : left ≤ fuel) : Moves k (codeLoop fuel left) (codeLoop fuel left) := by
  induction fuel generalizing left with
  | zero =>
    obtain rfl := Nat.le_zero.mp hfuel
    exact Moves.pure []
  | succ fuel ih =>
    rw [codeLoop]
    refine Moves.ite (fun _ => ?_) fun _ => Moves.pure _
    refine Moves.bind_of_gives moves_instruction.measured fun p i a j hg => ?_
    obtain ⟨x, n⟩ := a
    obtain ⟨hx, hn⟩ := gives_measured.mp hg
    have hj := takes_instruction.rest_length hx
    exact Moves.bind (ih (by omega)) fun code => Moves.pure _

/-! ## Entries -/

theorem moves_importType (kind : ExternalKind) : Moves k (importType kind) (importType kind) := by
  refine Moves.ite (fun _ => Moves.bind moves_varuint32 fun _ => Moves.pure _) fun _ => ?_
  refine Moves.ite (fun _ => Moves.bind moves_tableType fun _ => Moves.pure _) fun _ => ?_
  refine Moves.ite (fun _ => Moves.bind moves_memoryType fun _ => Moves.pure _) fun _ => ?_
  exact Moves.bind moves_globalType fun _ => Moves.pure _

theorem moves_importEntry : Moves k importEntry importEntry := by
  apply Moves.restoring
  refine Moves.bind (moves_nameText.within rfl) fun moduleName => ?_
  refine Moves.bind (moves_nameText.within rfl) fun field => ?_
  refine Moves.bind moves_externalKind fun kind => ?_
  exact Moves.bind ((moves_importType kind).within rfl) fun type => Moves.pure _

theorem moves_exportEntry : Moves k exportEntry exportEntry := by
  apply Moves.restoring
  refine Moves.bind (moves_nameText.within rfl) fun field => ?_
  refine Moves.bind moves_externalKind fun kind => ?_
  exact Moves.bind (moves_varuint32.within rfl) fun index => Moves.pure _

theorem moves_globalEntry : Moves k globalEntry globalEntry := by
  apply Moves.restoring
  refine Moves.bind moves_globalType fun type => ?_
  exact Moves.bind (moves_expression.within rfl) fun init => Moves.pure _

theorem moves_element : Moves k element element := by
  apply Moves.restoring
  refine Moves.bind (moves_varuint32.within rfl) fun table => ?_
  refine Moves.bind (moves_expression.within rfl) fun offset => ?_
  exact Moves.bind (moves_list _ _ moves_varuint32) fun functions => Moves.pure _

theorem moves_dataSegment : Moves k dataSegment dataSegment := by
  apply Moves.restoring
  refine Moves.bind (moves_varuint32.within rfl) fun memory => ?_
  refine Moves.bind (moves_expression.within rfl) fun offset => ?_
  refine Moves.bind_of_gives (moves_count.within rfl) fun p i n j h => ?_
  have hn := lt_of_gives_count (gives_within.mp h)
  exact Moves.bind ((moves_bytes hn).within rfl) fun b => Moves.pure _

theorem moves_localGroup : Moves k localGroup localGroup := by
  apply Moves.restoring
  refine Moves.bind (moves_varuint32.within rfl) fun n => ?_
  exact Moves.bind moves_valueType fun type => Moves.pure _

theorem moves_bodyContent (size start : Nat) : Moves k (bodyContent size start) (bodyContent size (start + k)) := by
  refine Moves.bind (moves_list _ _ moves_localGroup).measured fun (locals, n) => ?_
  refine Moves.bind (moves_codeLoop (Nat.le_refl _)).measured fun (code, m) => ?_
  refine Moves.bind_position fun pos => ?_
  refine Moves.bind moves_instruction.measured fun (last, l) => ?_
  refine Moves.bind (Moves.ensure _ rfl) fun _ => ?_
  refine Moves.bind (Moves.ensure _ ?_) fun _ => Moves.pure _
  simp only [Error.malformed, Error.moved, Cause.moved, Context.moved, List.map_cons, List.map_nil, Nat.add_right_comm]

theorem moves_funcBody : Moves k funcBody funcBody := by
  apply Moves.restoring
  refine Moves.bind (moves_count.within rfl) fun size => ?_
  refine Moves.bind_position fun start => ?_
  refine Moves.bind (Moves.hasRoom size) fun fits => ?_
  exact Moves.bind (Moves.ensure fits rfl) fun _ => moves_bodyContent size start

/-! ## Sections -/

theorem moves_types : Moves k types types := moves_vector _ _ moves_funcType

theorem moves_imports : Moves k imports imports := moves_vector _ _ moves_importEntry

theorem moves_functions : Moves k functions functions := moves_vector _ _ moves_varuint32

theorem moves_tables : Moves k tables tables := moves_vector _ _ moves_tableType

theorem moves_memories : Moves k memories memories := moves_vector _ _ moves_memoryType

theorem moves_globals : Moves k globals globals := moves_vector _ _ moves_globalEntry

theorem moves_exports : Moves k exports exports := moves_vector _ _ moves_exportEntry

theorem moves_start : Moves k start start := (moves_varuint32.within rfl).restoring

theorem moves_elements : Moves k elements elements := moves_vector _ _ moves_element

theorem moves_code : Moves k code code := moves_vector _ _ moves_funcBody

theorem moves_data : Moves k data data := moves_vector _ _ moves_dataSegment

theorem moves_custom : Moves k custom custom := (moves_nameText.within rfl).followed.restoring

theorem moves_payload (id : SectionId) : Moves k (payload id) (payload id) := by
  unfold payload
  refine Moves.ite (fun _ => moves_types.map _) fun _ => ?_
  refine Moves.ite (fun _ => moves_imports.map _) fun _ => ?_
  refine Moves.ite (fun _ => moves_functions.map _) fun _ => ?_
  refine Moves.ite (fun _ => moves_tables.map _) fun _ => ?_
  refine Moves.ite (fun _ => moves_memories.map _) fun _ => ?_
  refine Moves.ite (fun _ => moves_globals.map _) fun _ => ?_
  refine Moves.ite (fun _ => moves_exports.map _) fun _ => ?_
  refine Moves.ite (fun _ => moves_start.map _) fun _ => ?_
  refine Moves.ite (fun _ => moves_elements.map _) fun _ => ?_
  refine Moves.ite (fun _ => moves_code.map _) fun _ => ?_
  refine Moves.ite (fun _ => moves_data.map _) fun _ => ?_
  exact moves_custom.map _

theorem moves_anySection : Moves k anySection anySection := by
  apply Moves.restoring
  refine Moves.bind_position fun pos => ?_
  refine Moves.bind (moves_varuint7.within rfl) fun byte => ?_
  refine Moves.bind_of_gives (moves_count.within rfl) fun _ _ size _ hsize => ?_
  have hsize := lt_of_gives_count (gives_within.mp hsize)
  refine Moves.guarded (Moves.reaches hsize) (fun _ _ _ _ h => (gives_reaches.mp h).2) rfl fun p i hi h => ?_
  have hle := le_of_gives_reaches hsize (by omega) h
  refine (Moves.log rfl p i hi).bind fun _ j hg => ?_
  obtain rfl := gives_log.mp hg
  -- the payload is read from a part of the input, which ends no later
  have hpart : MovesAt k (payload ⟨byte⟩) (payload ⟨byte⟩) p ⟨i.pos, i.rest.take size⟩ := by
    apply moves_payload
    simp only [Input.stop, List.length_take] at hi ⊢
    omega
  refine ((hpart.delimited hi hle).within rfl |>.bind ?_).congr rfl rfl
  rintro ⟨a, consumed⟩ j hg
  obtain ⟨_, _, _, _, rfl⟩ := gives_delimited.mp (gives_within.mp hg)
  have hj : i.pos + size + (i.rest.drop size).length + k < lengthBound := by
    simp only [Input.stop, List.length_drop] at hi ⊢
    omega
  refine Moves.ite (fun _ => Moves.pure _) (fun _ => ?_) p _ hj
  exact Moves.bind (Moves.log rfl) fun _ => Moves.pure _

end WasmInspect.Grammar
