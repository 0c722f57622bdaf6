import WasmInspect.Proofs.Encode
import WasmInspect.Proofs.Grammar.Takes
import WasmInspect.Proofs.Reader.Reads
import WasmInspect.Proofs.WellFormed

/-!
# The productions read what is written

For each production: off the bytes that are written for a well-formed value, the reader takes that value. The sizes in bodies are the
exception: what is read there is the size that was written.
-/

namespace WasmInspect.Grammar

open Reader

/-! ## Bytes and numbers -/

theorem reads_byte (x : UInt8) : Reads byte [x] x := by
  intro _ p pos suf _
  exact gives_byte.mpr ⟨rfl, rfl⟩

theorem reads_bytes (b : Bytes) : Reads (bytes b.length) b b := by
  intro _ p pos suf hpos
  exact gives_bytes.mpr ⟨hpos, rfl, rfl, rfl⟩

theorem reads_word {n v : Nat} (h : v < 256 ^ n) : Reads (word n) (Encode.littleEndian n v) v := by
  have hr := (reads_bytes (Encode.littleEndian n v)).bind_pure (g := Bytes.littleEndian)
  rwa [Encode.length_littleEndian, Encode.littleEndian_littleEndian h] at hr

theorem reads_uint8 (x : UInt8) : Reads uint8 [x] x := by
  have h := (reads_word (n := 1) x.toNat_lt).bind_pure (g := UInt8.ofNat)
  have hx : Encode.littleEndian 1 x.toNat = [x] := by
    simp only [Encode.littleEndian, Nat.mod_eq_of_lt x.toNat_lt, UInt8.ofNat_toNat]
  rwa [hx, UInt8.ofNat_toNat] at h

theorem reads_uint32 (v : UInt32) : Reads uint32 (Encode.littleEndian 4 v.toNat) v := by
  have h := (reads_word (n := 4) (Nat.lt_of_lt_of_le v.toNat_lt (by decide))).bind_pure (g := UInt32.ofNat)
  rwa [UInt32.ofNat_toNat] at h

theorem reads_uint64 (v : UInt64) : Reads uint64 (Encode.littleEndian 8 v.toNat) v := by
  have h := (reads_word (n := 8) (Nat.lt_of_lt_of_le v.toNat_lt (by decide))).bind_pure (g := UInt64.ofNat)
  rwa [UInt64.ofNat_toNat] at h

theorem reads_leb128 {bits : Nat} {g : Bytes} (h : Leb128.IsNumber (Leb128.limit bits) g) : Reads (leb128 bits) g g := by
  intro _ p pos suf _
  exact gives_leb128.mpr ⟨h, rfl, rfl⟩

/-- A number of 64 bits is read by every reader that takes as many groups as are written for it. -/
theorem reads_varuint (bits : Nat) {v : Nat} (h : (Encode.number v).length ≤ Leb128.limit bits) (hv : v < Leb128.wordCount) :
    Reads (varuint bits) (Encode.number v) v := by
  have h := (reads_leb128 (Leb128.isNumber_encodeUnsigned h)).bind_pure (g := Leb128.unsigned) |>.restoring
  rwa [Leb128.unsigned, Leb128.weight_encodeUnsigned, Nat.mod_eq_of_lt hv] at h

theorem reads_varuint32 (n : UInt32) : Reads varuint32 (Encode.index n) n := by
  have hlen := Encode.length_number_le n.toNat_lt
  have h := (reads_varuint 32 hlen (Nat.lt_trans n.toNat_lt (by decide))).bind_pure (g := UInt32.ofNat)
  rwa [UInt32.ofNat_toNat] at h

theorem reads_count {n : Nat} (h : n < UInt32.size) : Reads count (Encode.number n) n := by
  have hn : (UInt32.ofNat n).toNat = n := UInt32.toNat_ofNat_of_lt' h
  have hr := (reads_varuint32 (.ofNat n)).bind_pure (g := UInt32.toNat)
  rwa [Encode.index, hn] at hr

/-- A byte below 128 is a number of its own. -/
theorem reads_varuint_byte {bits : Nat} {x : UInt8} (hb : 0 < Leb128.limit bits) (h : x < 128) :
    Reads (varuint bits >>= fun v => pure (.ofNat v)) [x] x := by
  have hx := UInt8.lt_iff_toNat_lt.mp h
  have hnum := Encode.number_toNat h
  have hlen : (Encode.number x.toNat).length ≤ Leb128.limit bits := by
    rw [hnum]
    exact hb
  have hr := (reads_varuint bits hlen (Nat.lt_trans hx (by decide))).bind_pure (g := UInt8.ofNat)
  rwa [UInt8.ofNat_toNat, hnum] at hr

theorem reads_varuint1 {x : UInt8} (h : x < 128) : Reads varuint1 [x] x := reads_varuint_byte (by decide) h

theorem reads_varuint7 {x : UInt8} (h : x < 128) : Reads varuint7 [x] x := reads_varuint_byte (by decide) h

/-- A signed number of 64 bits is read by every reader that takes as many groups as are written for it. -/
theorem reads_varint (bits : Nat) {v : Int} (h : (Leb128.encodeSigned v).length ≤ Leb128.limit bits)
    (lo : -0x8000000000000000 ≤ v) (hi : v < 0x8000000000000000) : Reads (varint bits) (Leb128.encodeSigned v) v := by
  have h := (reads_leb128 (Leb128.isNumber_encodeSigned h)).bind_pure (g := Leb128.signed) |>.restoring
  rwa [Leb128.signed_encodeSigned lo hi] at h

theorem reads_varint32 (v : Int32) : Reads varint32 (Leb128.encodeSigned v.toInt) v := by
  have lo := v.le_toInt
  have hi := v.toInt_lt
  have hlen : (Leb128.encodeSigned v.toInt).length ≤ 5 := Leb128.length_encodeSigned_le (k := 4) (by omega) (by omega)
  have h := (reads_varint 32 hlen (by omega) (by omega)).bind_pure (g := Int32.ofInt)
  rwa [Int32.ofInt_toInt] at h

theorem reads_varint64 (v : Int64) : Reads varint64 (Leb128.encodeSigned v.toInt) v := by
  have lo := v.le_toInt
  have hi := v.toInt_lt
  have hlen : (Leb128.encodeSigned v.toInt).length ≤ 10 := Leb128.length_encodeSigned_le (k := 9) (by omega) (by omega)
  have h := (reads_varint 64 hlen (by omega) (by omega)).bind_pure (g := Int64.ofInt)
  rwa [Int64.ofInt_toInt] at h

/-- Bytes after their number, which bounds them itself. -/
theorem reads_name (b : Bytes) : Reads name (Encode.sized b) b := by
  apply Reads.restoring
  intro hlen
  have hb : b.length < UInt32.size := by
    rw [Encode.sized, List.length_append] at hlen
    omega
  exact Reads.bind (reads_count hb) (reads_bytes b) hlen

/-- The text of the bytes that are written for a name is the name. -/
theorem nameText_of_isName {s : String} (h : IsName s) : Bytes.nameText (s.toList.map fun c => .ofNat c.toNat) = s := by
  unfold Bytes.nameText
  rw [List.map_map]
  have hmap : s.toList.map ((fun x : UInt8 => Char.ofNat x.toNat) ∘ fun c => .ofNat c.toNat) = s.toList.map id := by
    refine List.map_congr_left fun c hc => ?_
    simp only [Function.comp_apply, UInt8.toNat_ofNat', id]
    rw [Nat.mod_eq_of_lt (h c hc), Char.ofNat_toNat]
  rw [hmap, List.map_id, String.ofList_toList]

theorem reads_nameText {s : String} (h : IsName s) : Reads nameText (Encode.name s) s := by
  have hr := (reads_name (s.toList.map fun c => .ofNat c.toNat)).bind_pure (g := Bytes.nameText)
  rwa [nameText_of_isName h] at hr

/-! ## Lists -/

section

variable {α γ : Type} {r : Reader α}

/-- A count and so many entries, which are at least as many bytes as they are read to take; so the count is one of 32 bits, and after it
there is room for the entries. -/
theorem gives_written_list (item : String) {entry : γ → Bytes} {g : γ → α} {xs : List γ} {least : Nat} (hl : 0 < least)
    (hr : Takes least r) (h : ∀ x ∈ xs, Reads r (entry x) (g x)) (hlen : (Encode.list entry xs).length < UInt32.size)
    (p : CountPolicy) (pos : Nat) (suf : Bytes) (hpos : pos + (Encode.list entry xs).length < positionBound) :
    ∃ k, count.Gives p ⟨pos, Encode.list entry xs ++ suf⟩ xs.length k ∧ xs.length * least ≤ k.rest.length ∧
      (entries item r xs.length 0).Gives p k (xs.map g) ⟨pos + (Encode.list entry xs).length, suf⟩ := by
  rw [Encode.list, List.length_append] at hlen hpos ⊢
  have hentries := Reads.entries item h 0
  have hleast := hentries.le_length (hr.entries item xs.length 0) (by omega)
  have hcount : xs.length ≤ xs.length * least := Nat.le_mul_of_pos_right xs.length hl
  refine ⟨⟨pos + (Encode.number xs.length).length, xs.flatMap entry ++ suf⟩, ?_, ?_, ?_⟩
  · rw [List.append_assoc]
    exact reads_count (by omega) (by omega) p pos _ (by omega)
  · rw [List.length_append]
    omega
  · rw [← Nat.add_assoc]
    exact hentries (by omega) p _ suf (by omega)

/-- A counted list is read if all its entries are. -/
theorem reads_list (counts item : String) {entry : α → Bytes} {xs : List α} (hr : Takes 1 r) (h : ∀ x ∈ xs, Reads r (entry x) x) :
    Reads (list counts item r) (Encode.list entry xs) xs := by
  intro hlen p pos suf hpos
  obtain ⟨k, hcount, hroom, hentries⟩ := gives_written_list item (by decide) hr h hlen p pos suf hpos
  rw [Nat.mul_one] at hroom
  rw [List.map_id'] at hentries
  exact gives_list.mpr ⟨xs.length, k, hcount, Or.inr hroom, hentries⟩

/-- The entries of a section are read if each takes as many bytes as the section counts on. -/
theorem reads_vector_map (item : String) {entry : γ → Bytes} {g : γ → α} {xs : List γ} {least : Nat} (hl : 0 < least)
    (hr : Takes least r) (h : ∀ x ∈ xs, Reads r (entry x) (g x)) :
    Reads (vector item least r) (Encode.list entry xs) (xs.map g) := by
  intro hlen p pos suf hpos
  obtain ⟨k, hcount, hroom, hentries⟩ := gives_written_list item hl hr h hlen p pos suf hpos
  exact gives_vector.mpr ⟨xs.length, k, hcount, Or.inr hroom, hentries⟩

theorem reads_vector (item : String) {entry : α → Bytes} {xs : List α} {least : Nat} (hl : 0 < least) (hr : Takes least r)
    (h : ∀ x ∈ xs, Reads r (entry x) x) : Reads (vector item least r) (Encode.list entry xs) xs := by
  have hmap := reads_vector_map item hl hr h
  rwa [List.map_id'] at hmap

end

/-! ## Tags and types -/

theorem reads_tag {α : Type} {site : TagSite} {r : Reader UInt8} {accept : UInt8 → Option α} {w : Bytes} {t : UInt8} {a : α}
    (h : Reads r w t) (ha : accept t = some a) : Reads (tag site r accept) w a := by
  intro hw p pos suf hpos
  exact gives_tag.mpr ⟨t, h hw p pos suf hpos, ha⟩

theorem reads_valueType {t : ValueType} (h : t ∈ ValueType.all) : Reads valueType (Encode.valueType t) t := by
  have hbyte : ∀ t ∈ ValueType.all, t.byte < 128 := by decide
  exact reads_tag (reads_varuint7 (hbyte t h)) (if_pos h)

theorem reads_blockType {t : BlockType} (h : t ∈ BlockType.all) : Reads blockType [t.byte] t := by
  have hbyte : ∀ t ∈ BlockType.all, t.byte < 128 := by decide
  exact reads_tag (reads_varuint7 (hbyte t h)) (if_pos h)

theorem reads_elementType : Reads elementType [BlockType.anyFunc.byte] .anyFunc :=
  reads_tag (reads_uint8 _) (if_pos rfl)

theorem reads_externalKind {k : ExternalKind} (h : k.byte ≤ ExternalKind.global.byte) : Reads externalKind [k.byte] k :=
  reads_tag (reads_uint8 _) (if_pos h)

/-- A size in the range of 32 bits is such a number. -/
theorem exists_uint32 {v : Int} (nonneg : 0 ≤ v) (lt : v < UInt32.size) : ∃ n : UInt32, v = n.toNat := by
  refine ⟨.ofNat v.toNat, ?_⟩
  rw [UInt32.toNat_ofNat_of_lt' (by omega)]
  omega

theorem reads_limits {l : Limits} (h : l.WellFormed) : Reads limits (Encode.limits l) l := by
  obtain ⟨flags, initial, maximum⟩ := l
  obtain ⟨hnonneg, hlt, hmax⟩ := h
  obtain ⟨n, rfl⟩ := exists_uint32 hnonneg hlt
  have hinitial := (reads_varuint32 n).within (.part "initial")
  rcases hmax with ⟨rfl, rfl⟩ | ⟨rfl, hmnonneg, hmlt⟩
  · have hflags : Reads (within (.part "flags") varuint1) [0] 0 := (reads_varuint1 (by decide)).within _
    apply Reads.restoring
    refine Reads.bind (w := [0]) (a := 0) (reads_tag hflags rfl) ?_
    exact hinitial.bind_pure
  · obtain ⟨m, rfl⟩ := exists_uint32 hmnonneg hmlt
    have hmaximum := (reads_varuint32 m).within (.part "maximum")
    have hflags : Reads (within (.part "flags") varuint1) [1] 1 := (reads_varuint1 (by decide)).within _
    rw [Encode.limits, if_neg (by simp only; omega)]
    apply Reads.restoring
    refine Reads.bind (w := [1]) (a := 1) (reads_tag hflags rfl) ?_
    exact Reads.bind hinitial hmaximum.bind_pure

theorem reads_funcType {t : FuncType} (h : t.WellFormed) : Reads funcType (Encode.funcType t) t := by
  obtain ⟨params, results⟩ := t
  obtain ⟨hparams, hresults, hlen⟩ := h
  have hlist := reads_list "param count" "param" takes_valueType fun v hv => reads_valueType (hparams v hv)
  apply Reads.restoring
  refine Reads.bind (w := [BlockType.func.byte]) (a := ()) (reads_tag (reads_uint8 _) (if_pos rfl)) ?_
  refine Reads.bind hlist ?_
  rcases results with _ | ⟨v, _ | ⟨_, _⟩⟩
  · have hcount : Reads (within (.part "return count") varuint1) [0] 0 := (reads_varuint1 (by decide)).within _
    rw [Encode.list_nil]
    exact Reads.bind (w := [0]) (a := false) (reads_tag hcount rfl) (Reads.pure _)
  · have hcount : Reads (within (.part "return count") varuint1) [1] 1 := (reads_varuint1 (by decide)).within _
    have hresult := (reads_valueType (hresults v List.mem_cons_self)).within (.part "return type")
    rw [Encode.list_singleton]
    exact Reads.bind (w := [1]) (a := true) (reads_tag hcount rfl) hresult.bind_pure
  · simp only [List.length_cons] at hlen
    omega

theorem reads_tableType {t : TableType} (h : t.WellFormed) : Reads tableType (Encode.tableType t) t := by
  obtain ⟨element, l⟩ := t
  obtain ⟨rfl, hl⟩ := h
  exact (Reads.bind reads_elementType ((reads_limits hl).within _).bind_pure).restoring

theorem reads_memoryType {t : MemoryType} (h : t.WellFormed) : Reads memoryType (Encode.memoryType t) t :=
  ((reads_limits h).within _).bind_pure.restoring

theorem reads_globalType {t : GlobalType} (h : t.WellFormed) : Reads globalType (Encode.globalType t) t := by
  obtain ⟨value, isMutable⟩ := t
  apply Reads.restoring
  refine Reads.bind (w := [value.byte]) (reads_valueType h) ?_
  cases isMutable with
  | false => exact ((reads_varuint1 (x := 0) (by decide)).within _).bind_pure
  | true => exact ((reads_varuint1 (x := 1) (by decide)).within _).bind_pure

/-! ## Instructions and expressions -/

theorem reads_operandOf {o : Operand} (h : o.WellFormed) : Reads (operandOf o.kind) (Encode.operand o) o := by
  cases o with
  | block t => exact (reads_blockType h).bind_pure
  | index n => exact (reads_varuint32 n).bind_pure
  | branchTable targets default =>
    apply Reads.restoring
    refine Reads.bind (reads_list _ _ takes_varuint32 fun n _ => reads_varuint32 n) ?_
    exact ((reads_varuint32 default).within _).bind_pure
  | indirectCall t v =>
    rw [Encode.operand, Encode.number_toNat h]
    exact Reads.bind (reads_varuint32 t) (reads_varuint1 h).bind_pure
  | memory flags offset => exact Reads.bind (reads_varuint32 flags) (reads_varuint32 offset).bind_pure
  | reserved v =>
    rw [Encode.operand, Encode.number_toNat h]
    exact (reads_varuint1 h).bind_pure
  | i32 v => exact (reads_varint32 v).bind_pure
  | i64 v => exact (reads_varint64 v).bind_pure
  | f32 bits => exact (reads_uint32 bits).bind_pure
  | f64 bits => exact (reads_uint64 bits).bind_pure

/-- The opcode says which operand to read. -/
theorem reads_instruction {x : Instruction} (h : x.WellFormed) : Reads instruction (Encode.instruction x) x := by
  obtain ⟨⟨op⟩, o⟩ := x
  obtain ⟨hkind, ho⟩ := h
  obtain ⟨e, he, hoperand⟩ := Option.map_eq_some_iff.mp hkind
  refine Reads.congr (r := bareInstruction) ?_ fun _ _ _ _ => gives_instruction
  refine Reads.position_bind fun pos => Reads.bind (w := [op]) (reads_byte op) ?_
  simp only [he, hoperand]
  cases o with
  | none => exact (Reads.pure none).bind_pure
  | some o => exact Reads.within _ (Reads.bind_pure (reads_operandOf (ho o rfl))) |>.bind_pure

/-- An expression is read with fuel for each of its instructions. -/
theorem reads_expressionLoop {c : Code} (h : Code.IsExpression c) {fuel : Bytes} (hf : c.length ≤ fuel.length) :
    Reads (expressionLoop fuel) (Encode.code c) c := by
  induction c generalizing fuel with
  | nil => exact absurd h Code.not_isExpression_nil
  | cons x c ih =>
    cases fuel with
    | nil => simp at hf
    | cons y fuel =>
      obtain ⟨hx, hrest⟩ := Code.isExpression_cons.mp h
      rw [expressionLoop, Encode.code, List.flatMap_cons]
      refine Reads.bind (reads_instruction hx) ?_
      by_cases hend : x.op = .blockEnd
      · rw [if_pos hend] at hrest ⊢
        subst hrest
        exact Reads.pure [x]
      · rw [if_neg hend] at hrest ⊢
        exact (ih hrest (Nat.le_of_succ_le_succ hf)).bind_pure

theorem reads_expression {c : Code} (h : Code.IsExpression c) : Reads expression (Encode.code c) c := by
  intro hlen p pos suf hpos
  have hfuel : c.length ≤ (Encode.code c ++ suf).length := by
    have := Encode.length_le_code c
    rw [List.length_append]
    omega
  have hloop := reads_expressionLoop h hfuel hlen p pos suf hpos
  exact gives_restoring.mpr (gives_bind.mpr ⟨_, _, gives_remaining.mpr ⟨rfl, rfl⟩, hloop⟩)

/-- The code of a body is read when the bytes left are its own and one more. -/
theorem reads_codeLoop {c : Code} (h : ∀ x ∈ c, x.WellFormed) {fuel left : Nat} (hf : c.length ≤ fuel)
    (hl : left = (Encode.code c).length + 1) : Reads (codeLoop fuel left) (Encode.code c) c := by
  induction c generalizing fuel left with
  | nil =>
    subst hl
    cases fuel <;> exact Reads.pure []
  | cons x c ih =>
    cases fuel with
    | zero => simp at hf
    | succ fuel =>
      have hx := h x List.mem_cons_self
      rw [Encode.code, List.flatMap_cons, List.length_append] at hl
      have hmore : 1 < left := by
        rw [hl, Encode.instruction, List.length_cons]
        omega
      rw [codeLoop, if_pos hmore, Encode.code, List.flatMap_cons]
      -- the instruction takes its own bytes of what is left, so the one byte more stays
      refine Reads.bind (reads_instruction hx).measured ?_
      refine Reads.bind_pure (ih (fun y hy => h y (List.mem_cons_of_mem x hy)) (Nat.le_of_succ_le_succ hf) ?_)
      rw [hl, Encode.code]
      omega

/-! ## Entries -/

theorem reads_importType {t : ImportType} (h : t.WellFormed) : Reads (importType t.kind) (Encode.importType t) t := by
  cases t with
  | function t => exact (reads_varuint32 t).bind_pure
  | table t => exact (reads_tableType h).bind_pure
  | memory t => exact (reads_memoryType h).bind_pure
  | global t => exact (reads_globalType h).bind_pure

theorem reads_importEntry {i : Import} (h : i.WellFormed) : Reads importEntry (Encode.importEntry i) i := by
  obtain ⟨moduleName, field, kind, type⟩ := i
  obtain ⟨hmodule, hfield, hkind, htype⟩ := h
  simp only at hkind
  subst hkind
  rw [Encode.importEntry, List.append_assoc]
  apply Reads.restoring
  refine Reads.bind ((reads_nameText hmodule).within _) ?_
  refine Reads.bind ((reads_nameText hfield).within _) ?_
  refine Reads.bind (w := [type.kind.byte]) (reads_externalKind type.kind_le) ?_
  exact ((reads_importType htype).within _).bind_pure

theorem reads_exportEntry {e : Export} (h : e.WellFormed) : Reads exportEntry (Encode.exportEntry e) e := by
  apply Reads.restoring
  refine Reads.bind ((reads_nameText h.field).within _) ?_
  refine Reads.bind (w := [e.kind.byte]) (reads_externalKind h.kind) ?_
  exact ((reads_varuint32 e.index).within _).bind_pure

theorem reads_globalEntry {g : Global} (h : g.WellFormed) : Reads globalEntry (Encode.globalEntry g) g :=
  (Reads.bind (reads_globalType h.type) ((reads_expression h.init).within _).bind_pure).restoring

theorem reads_element {e : Element} (h : e.WellFormed) : Reads element (Encode.element e) e := by
  rw [Encode.element, List.append_assoc]
  apply Reads.restoring
  refine Reads.bind ((reads_varuint32 e.table).within _) ?_
  refine Reads.bind ((reads_expression h).within _) ?_
  exact (reads_list _ _ takes_varuint32 fun n _ => reads_varuint32 n).bind_pure

theorem reads_dataSegment {d : Data} (h : d.WellFormed) : Reads dataSegment (Encode.dataSegment d) d := by
  -- the bound on the whole segment bounds its bytes
  intro hlen
  have hbytes : d.bytes.length < UInt32.size := by
    simp only [Encode.dataSegment, Encode.sized, List.length_append] at hlen
    omega
  revert hlen
  rw [Encode.dataSegment, List.append_assoc]
  apply Reads.restoring
  refine Reads.bind ((reads_varuint32 d.memory).within _) ?_
  refine Reads.bind ((reads_expression h).within _) ?_
  exact Reads.bind ((reads_count hbytes).within _) ((reads_bytes d.bytes).within _).bind_pure

theorem reads_localGroup {l : LocalGroup} (h : l.WellFormed) : Reads localGroup (Encode.localGroup l) l :=
  (Reads.bind ((reads_varuint32 l.count).within _) (reads_valueType h).bind_pure).restoring

/-- The content of a body of just the size that it is written in. -/
theorem reads_bodyContent {f : FuncBody} (h : f.WellFormed) {size : Nat} (hs : size = (Encode.bodyContent f).length) (start : Nat) :
    Reads (bodyContent size start) (Encode.bodyContent f) { f with size := size } := by
  have hlocals : Reads (list "local count" "local" localGroup) (Encode.list Encode.localGroup f.locals) f.locals :=
    reads_list _ _ (takes_localGroup.mono (by decide)) fun l hl => reads_localGroup (h.locals l hl)
  have hend : Reads instruction [Opcode.blockEnd.byte] ⟨.blockEnd, none⟩ := reads_instruction (x := ⟨.blockEnd, none⟩) (by decide)
  rw [Encode.bodyContent, List.append_assoc] at hs ⊢
  simp only [List.length_append, List.length_singleton] at hs
  refine Reads.bind hlocals.measured ?_
  -- after the locals the size leaves the bytes of the code and the byte of the last `end`
  refine Reads.bind (reads_codeLoop h.code ?_ ?_).measured ?_
  · have := Encode.length_le_code f.code
    omega
  · omega
  · refine Reads.position_bind fun pos => ?_
    refine Reads.bind hend.measured (Reads.ensure_bind rfl (Reads.ensure_bind (decide_eq_true ?_) (Reads.pure _)))
    rw [List.length_singleton, hs, Nat.add_assoc]

theorem reads_funcBody {f : FuncBody} (h : f.WellFormed) : Reads funcBody (Encode.funcBody f) f.canonical := by
  intro hlen
  have hcontent : (Encode.bodyContent f).length < UInt32.size := by
    simp only [Encode.funcBody, Encode.sized, List.length_append] at hlen
    omega
  revert hlen
  apply Reads.restoring
  refine Reads.bind ((reads_count hcontent).within _) ?_
  refine Reads.position_bind fun start => ?_
  refine Reads.hasRoom_bind (Nat.le_refl _) ?_
  exact Reads.ensure_bind rfl (reads_bodyContent h rfl start)

/-! ## Sections -/

/-- The payload of a section with a meaning of its own. -/
theorem reads_payload {a : Payload} {id : SectionId} (hid : a.id? = some id) (h : a.WellFormed) :
    Reads (payload id) (Encode.payload a) a.canonical := by
  cases a <;> cases hid
  case types entries =>
    exact (reads_vector _ (by decide) (takes_funcType.mono (by decide)) fun t ht => reads_funcType (h t ht)).map _
  case imports entries =>
    exact (reads_vector _ (by decide) (takes_importEntry.mono (by decide)) fun i hi => reads_importEntry (h i hi)).map _
  case functions types => exact (reads_vector _ (by decide) takes_varuint32 fun n _ => reads_varuint32 n).map _
  case tables entries => exact (reads_vector _ (by decide) takes_tableType fun t ht => reads_tableType (h t ht)).map _
  case memories entries => exact (reads_vector _ (by decide) takes_memoryType fun t ht => reads_memoryType (h t ht)).map _
  case globals entries => exact (reads_vector _ (by decide) takes_globalEntry fun g hg => reads_globalEntry (h g hg)).map _
  case exports entries => exact (reads_vector _ (by decide) takes_exportEntry fun e he => reads_exportEntry (h e he)).map _
  case start f => exact ((reads_varuint32 f).within _).restoring.map _
  case elements entries => exact (reads_vector _ (by decide) takes_element fun e he => reads_element (h e he)).map _
  case code bodies =>
    exact (reads_vector_map _ (by decide) (takes_funcBody.mono (by decide)) fun f hf => reads_funcBody (h f hf)).map _
  case data entries => exact (reads_vector _ (by decide) takes_dataSegment fun d hd => reads_dataSegment (h d hd)).map _

/-- The payload of a section, which stands alone: a custom section takes all there is. -/
theorem gives_written_payload {s : Section} (h : s.WellFormed) (hlen : (Encode.payload s.payload).length < UInt32.size)
    (p : CountPolicy) {pos : Nat} (hpos : pos + (Encode.payload s.payload).length < positionBound) :
    (payload s.id).Gives p ⟨pos, Encode.payload s.payload⟩ s.payload.canonical ⟨pos + (Encode.payload s.payload).length, []⟩ := by
  obtain ⟨id, _, _, a⟩ := s
  obtain ⟨_, hid, ha⟩ := h
  simp only at hid ha hlen hpos ⊢
  by_cases hknown : id.isKnown = true
  · rw [if_pos hknown] at hid
    have hread := reads_payload hid ha hlen p pos [] hpos
    rwa [List.append_nil] at hread
  · rw [if_neg hknown] at hid
    rw [payload_of_not_isKnown hknown]
    cases a with
    | custom n b =>
      rw [Encode.payload, List.length_append] at hlen hpos
      have hname := reads_nameText ha (by omega) p pos b (by omega)
      refine gives_map.mpr ⟨(n, b), gives_custom.mpr ⟨_, hname, rfl, ?_⟩, rfl⟩
      rw [Encode.payload, List.length_append, Nat.add_assoc]
    | _ => cases hid

/-- A section is read if the bytes of its payload are, to their end. -/
theorem gives_sectionOf {id : SectionId} {w : Bytes} {a : Payload} {p : CountPolicy} {pos : Nat} (suf : Bytes) (hid : id.byte < 128)
    (hlen : w.length < UInt32.size) (hpos : pos + (Encode.sectionOf id w).length < positionBound)
    (ha : ∀ pos', pos' + w.length = pos + (Encode.sectionOf id w).length →
      (payload id).Gives p ⟨pos', w⟩ a ⟨pos' + w.length, []⟩) :
    anySection.Gives p ⟨pos, Encode.sectionOf id w ++ suf⟩ ⟨id, w.length, w.length, a⟩
      ⟨pos + (Encode.sectionOf id w).length, suf⟩ := by
  have hnumber := Encode.length_number_le hlen
  have hsize : 5 < UInt32.size := by decide
  rw [Encode.sectionOf, Encode.sized, List.length_cons, List.length_append] at hpos ha ⊢
  rw [List.cons_append, List.append_assoc]
  have hbyte := reads_varuint7 hid (by decide : 1 < UInt32.size) p pos (Encode.number w.length ++ (w ++ suf))
    (by rw [List.length_singleton]; omega)
  have hcount := reads_count hlen (by omega) p (pos + 1) (w ++ suf) (by omega)
  generalize Encode.number w.length = number at *
  refine gives_anySection.mpr ⟨id.byte, ⟨pos + 1, number ++ (w ++ suf)⟩, w.length, ⟨pos + 1 + number.length, w ++ suf⟩, a,
    ⟨pos + 1 + number.length + w.length, []⟩, hbyte, hcount, ⟨by simp only; omega, ?_⟩, ?_, ?_, ?_⟩
  · rw [List.length_append]
    omega
  · rw [List.take_left]
    exact ha (pos + 1 + number.length) (by omega)
  · rw [Nat.add_sub_cancel_left]
  · simp only [List.drop_left, Input.mk.injEq, and_true]
    omega

/-- A section is read as it was written, with the sizes of what was written. -/
theorem gives_written_section {s : Section} (h : s.WellFormed) (hlen : (Encode.payload s.payload).length < UInt32.size)
    (p : CountPolicy) (pos : Nat) (suf : Bytes)
    (hpos : pos + (Encode.sectionOf s.id (Encode.payload s.payload)).length < positionBound) :
    anySection.Gives p ⟨pos, Encode.sectionOf s.id (Encode.payload s.payload) ++ suf⟩ s.canonical
      ⟨pos + (Encode.sectionOf s.id (Encode.payload s.payload)).length, suf⟩ := by
  refine gives_sectionOf suf h.id_lt hlen hpos fun pos' hpos' => ?_
  exact gives_written_payload h hlen p (by omega)

end WasmInspect.Grammar
