import WasmInspect.Proofs.Grammar.Takes
import WasmInspect.Proofs.Reader.Reports

/-!
# What the productions report

Every production reports what is true of its input. Most of them tell of no instruction; an expression tells of all of its instructions, a
body of its code and of the `end` that closes it, and a payload of the instructions of its entries in order (`Payload.instructions`).
A tag or an opcode that is refused is a byte of the input.
-/

namespace WasmInspect

/-- The instructions of a body: its code, and the `end` that closes it. -/
def FuncBody.instructions (f : FuncBody) : Code := f.code ++ [⟨.blockEnd, none⟩]

/-- The instructions of a payload, in the order of its entries. -/
def Payload.instructions : Payload → Code
  | .globals entries => entries.flatMap Global.init
  | .elements entries => entries.flatMap Element.offset
  | .code bodies => bodies.flatMap FuncBody.instructions
  | .data entries => entries.flatMap Data.offset
  | _ => []

namespace Grammar

open Reader

/-! ## Bytes and numbers -/

theorem quiet_byte : Quiet byte := by
  refine Quiet.bind (Quiet.hasRoom 1) fun more => ?_
  exact Quiet.bind (Quiet.ensure more fun _ => trivial) fun _ => Quiet.next

theorem quiet_bytes (n : Nat) : Quiet (bytes n) := by
  refine Quiet.bind (Quiet.reaches n) fun fits => ?_
  exact Quiet.bind (Quiet.ensure fits fun _ => trivial) fun _ => Quiet.slice n

theorem quiet_groups (n : Nat) : Quiet (groups n) := by
  induction n with
  | zero => exact Quiet.pure _
  | succ n ih =>
    refine Quiet.bind quiet_byte fun x => Quiet.ite (fun _ => Quiet.pure _) fun _ => ?_
    exact Quiet.bind ih fun g => Quiet.pure _

theorem quiet_word (n : Nat) : Quiet (word n) := Quiet.bind (quiet_bytes n) fun _ => Quiet.pure _

theorem quiet_uint8 : Quiet uint8 := Quiet.bind (quiet_word 1) fun _ => Quiet.pure _

theorem quiet_uint32 : Quiet uint32 := Quiet.bind (quiet_word 4) fun _ => Quiet.pure _

theorem quiet_uint64 : Quiet uint64 := Quiet.bind (quiet_word 8) fun _ => Quiet.pure _

theorem quiet_varuint (bits : Nat) : Quiet (varuint bits) := (Quiet.bind (quiet_groups _) fun _ => Quiet.pure _).restoring

theorem quiet_varint (bits : Nat) : Quiet (varint bits) := (Quiet.bind (quiet_groups _) fun _ => Quiet.pure _).restoring

theorem quiet_varuint1 : Quiet varuint1 := Quiet.bind (quiet_varuint 1) fun _ => Quiet.pure _

theorem quiet_varuint7 : Quiet varuint7 := Quiet.bind (quiet_varuint 7) fun _ => Quiet.pure _

theorem quiet_varuint32 : Quiet varuint32 := Quiet.bind (quiet_varuint 32) fun _ => Quiet.pure _

theorem quiet_varint32 : Quiet varint32 := Quiet.bind (quiet_varint 32) fun _ => Quiet.pure _

theorem quiet_varint64 : Quiet varint64 := Quiet.bind (quiet_varint 64) fun _ => Quiet.pure _

theorem quiet_count : Quiet count := Quiet.bind quiet_varuint32 fun _ => Quiet.pure _

theorem quiet_name : Quiet name := (Quiet.bind quiet_count fun n => quiet_bytes n).restoring

theorem quiet_nameText : Quiet nameText := Quiet.bind quiet_name fun _ => Quiet.pure _

/-! ## Lists -/

section

variable {α : Type} {r : Reader α}

theorem quiet_list (counts item : String) (h : Quiet r) : Quiet (list counts item r) := by
  refine Quiet.bind (quiet_count.within _) fun n => ?_
  refine Quiet.bind (Quiet.admits n) fun fits => ?_
  exact Quiet.bind (Quiet.ensure fits fun _ => trivial) fun _ => Quiet.entries item h n 0

/-- A section tells of the instructions of its entries. -/
theorem reports_vector (item : String) (least : Nat) {g : α → Code} (h : Reports r fun a xs => xs = g a) :
    Reports (vector item least r) fun as xs => xs = as.flatMap g := by
  apply Reports.restoring
  refine Reports.quiet_bind (quiet_count.within _) fun n => ?_
  refine Reports.quiet_bind (Quiet.admits (n * least)) fun fits => ?_
  refine Reports.quiet_bind Quiet.remaining fun rest => ?_
  exact Reports.quiet_bind (Quiet.ensure fits fun _ => trivial) fun _ => Reports.entries item h n 0

theorem quiet_vector (item : String) (least : Nat) (h : Quiet r) : Quiet (vector item least r) := by
  refine (reports_vector item least h).mono fun as xs hx => ?_
  rw [hx, List.flatMap_eq_nil_iff]
  intro a _
  rfl

end

/-! ## Tags and types -/

section

variable {α : Type} {p : CountPolicy} {i j : Input} {site : TagSite}

/-- A reader of tags takes the first byte of the input for the tag that this byte stands for at the production. -/
def TakesTag (site : TagSite) (r : Reader UInt8) : Prop :=
  ∀ p i t j, r.Gives p i t j → ∃ x, i.rest = x :: j.rest ∧ site.ofByte x = t

/-- The byte that a tag is read from stands at the place where it is read, so an error about the tag points there. -/
theorem quiet_tag {r : Reader UInt8} {accept : UInt8 → Option α} (h : Quiet r) (htag : TakesTag site r)
    (hlegal : site.legal.all fun t => (accept t).isSome) : Quiet (tag site r accept) := by
  apply Quiet.restoring
  intro p i
  refine (Quiet.position p i).bind fun pos j xs hpos hx => ?_
  obtain ⟨rfl, rfl⟩ := gives_position.mp hpos
  subst hx
  cases hr : (r p i).result with
  | error s => exact (h p i).bind fun t j xs ht _ => nomatch hr.symm.trans ht
  | ok v =>
    obtain ⟨t, j⟩ := v
    cases hacc : accept t with
    | none =>
      obtain ⟨x, hx, hbyte⟩ := htag p i t j hr
      refine (h p i).bind_fail (a := t) hr (e := .ofCause (.invalidTag site t i.pos)) (by simp only [hacc]) ?_
      refine ⟨⟨x, .of_first (w := [x]) hx, hbyte⟩, fun hmem => ?_⟩
      have hsome : (accept t).isSome = true := List.all_eq_true.mp hlegal t hmem
      rw [hacc] at hsome
      cases hsome
    | some a =>
      refine (h p i).bind fun t' j' xs ht hx => ?_
      obtain ⟨rfl, rfl⟩ : t = t' ∧ j = j' := by simpa [Gives, hr] using ht
      subst hx
      simp only [hacc]
      exact .of_ok rfl (.refl _) rfl

/-- A word of 8 bits is the byte it is read from. -/
theorem takesTag_uint8 (h : ∀ x, site.ofByte x = x) : TakesTag site uint8 := by
  intro p i t j ht
  simp only [uint8, word, gives_bind, gives_bytes, gives_pure] at ht
  obtain ⟨v, _, ⟨w, _, ⟨_, hw, hrest, _⟩, rfl, rfl⟩, rfl, rfl⟩ := ht
  obtain ⟨x, rfl⟩ := List.length_eq_one_iff.mp hw
  refine ⟨x, hrest, ?_⟩
  rw [h, Bytes.littleEndian, Bytes.littleEndian, Nat.mul_zero, Nat.add_zero, UInt8.ofNat_toNat]

/-- The low seven bits of a byte. -/
theorem ofNat_unsigned_singleton (x : UInt8) : UInt8.ofNat (Leb128.unsigned [x]) = x &&& 0x7f := by
  have hlow : Leb128.unsigned [x] = x.toNat % 128 := by
    have hlt : x.toNat % 128 < Leb128.wordCount := Nat.lt_trans (Nat.mod_lt _ (by decide)) (by decide)
    rw [Leb128.unsigned, Leb128.weight, Leb128.weight, Nat.mul_zero, Nat.add_zero, Nat.mod_eq_of_lt hlt]
  rw [hlow, ← UInt8.toNat_inj, UInt8.toNat_ofNat', UInt8.toNat_and]
  show x.toNat % 128 % 256 = x.toNat &&& (2 ^ 7 - 1)
  rw [Nat.and_two_pow_sub_one_eq_mod]
  omega

/-- A number of one group is made of the low seven bits of the byte it is read from. -/
theorem takesTag_varuint {bits : Nat} (hbits : Leb128.limit bits = 1) (h : ∀ x, site.ofByte x = x &&& 0x7f) :
    TakesTag site (varuint bits >>= fun v => pure (.ofNat v)) := by
  intro p i t j ht
  simp only [varuint, gives_restoring, gives_bind, gives_leb128, gives_pure] at ht
  obtain ⟨v, _, ⟨g, _, ⟨hg, hrest, _⟩, rfl, rfl⟩, rfl, rfl⟩ := ht
  rw [hbits] at hg
  have hle : g.length ≤ 1 := hg.length_le
  have hpos : 0 < g.length := hg.length_pos (by decide)
  obtain ⟨x, rfl⟩ : ∃ x, g = [x] := List.length_eq_one_iff.mp (by omega)
  refine ⟨x, hrest, ?_⟩
  rw [h, ofNat_unsigned_singleton]

theorem TakesTag.within {r : Reader UInt8} (h : TakesTag site r) (c : Context) : TakesTag site (within c r) :=
  fun p i t j ht => h p i t j (gives_within.mp ht)

end

theorem quiet_valueType : Quiet valueType :=
  quiet_tag quiet_varuint7 (takesTag_varuint rfl fun _ => rfl) (by decide)

theorem quiet_blockType : Quiet blockType :=
  quiet_tag quiet_varuint7 (takesTag_varuint rfl fun _ => rfl) (by decide)

theorem quiet_elementType : Quiet elementType := quiet_tag quiet_uint8 (takesTag_uint8 fun _ => rfl) (by decide)

theorem quiet_externalKind : Quiet externalKind := quiet_tag quiet_uint8 (takesTag_uint8 fun _ => rfl) (by decide)

theorem quiet_limits : Quiet limits := by
  apply Quiet.restoring
  refine Quiet.bind (quiet_tag (quiet_varuint1.within _) ((takesTag_varuint rfl fun _ => rfl).within _) (by decide)) fun flags => ?_
  refine Quiet.bind (quiet_varuint32.within _) fun initial => ?_
  refine Quiet.ite (fun _ => Quiet.pure _) fun _ => ?_
  exact Quiet.bind (quiet_varuint32.within _) fun maximum => Quiet.pure _

theorem quiet_funcType : Quiet funcType := by
  apply Quiet.restoring
  refine Quiet.bind (quiet_tag quiet_uint8 (takesTag_uint8 fun _ => rfl) (by decide)) fun _ => ?_
  refine Quiet.bind (quiet_list _ _ quiet_valueType) fun params => ?_
  refine Quiet.bind (quiet_tag (quiet_varuint1.within _) ((takesTag_varuint rfl fun _ => rfl).within _) (by decide)) fun returns => ?_
  refine Quiet.ite (fun _ => ?_) fun _ => Quiet.pure _
  exact Quiet.bind (quiet_valueType.within _) fun result => Quiet.pure _

theorem quiet_tableType : Quiet tableType := by
  apply Quiet.restoring
  refine Quiet.bind quiet_elementType fun element => ?_
  exact Quiet.bind (quiet_limits.within _) fun l => Quiet.pure _

theorem quiet_memoryType : Quiet memoryType := (Quiet.bind (quiet_limits.within _) fun _ => Quiet.pure _).restoring

theorem quiet_globalType : Quiet globalType := by
  apply Quiet.restoring
  refine Quiet.bind quiet_valueType fun value => ?_
  exact Quiet.bind (quiet_varuint1.within _) fun flag => Quiet.pure _

/-! ## Instructions and expressions -/

theorem quiet_operandOf (k : OperandKind) : Quiet (operandOf k) := by
  cases k with
  | block => exact Quiet.bind quiet_blockType fun _ => Quiet.pure _
  | index => exact Quiet.bind quiet_varuint32 fun _ => Quiet.pure _
  | branchTable =>
    apply Quiet.restoring
    refine Quiet.bind (quiet_list _ _ quiet_varuint32) fun targets => ?_
    exact Quiet.bind (quiet_varuint32.within _) fun default => Quiet.pure _
  | indirectCall => exact Quiet.bind quiet_varuint32 fun t => Quiet.bind quiet_varuint1 fun reserved => Quiet.pure _
  | memory => exact Quiet.bind quiet_varuint32 fun flags => Quiet.bind quiet_varuint32 fun offset => Quiet.pure _
  | reserved => exact Quiet.bind quiet_varuint1 fun _ => Quiet.pure _
  | i32 => exact Quiet.bind quiet_varint32 fun _ => Quiet.pure _
  | i64 => exact Quiet.bind quiet_varint64 fun _ => Quiet.pure _
  | f32 => exact Quiet.bind quiet_uint32 fun _ => Quiet.pure _
  | f64 => exact Quiet.bind quiet_uint64 fun _ => Quiet.pure _

theorem quiet_operand? (k : Option OperandKind) : Quiet (operand? k) := by
  cases k with
  | none => exact Quiet.pure none
  | some k => exact Quiet.bind (quiet_operandOf k) fun _ => Quiet.pure _

/-- An opcode without a meaning is a byte that stands where the instruction starts. -/
theorem quiet_bareInstruction : Quiet bareInstruction := by
  intro p i
  refine (Quiet.position p i).bind fun pos j xs hpos hx => ?_
  obtain ⟨rfl, rfl⟩ := gives_position.mp hpos
  subst hx
  cases hr : (byte p i).result with
  | error s => exact (quiet_byte p i).bind fun op j xs hop _ => nomatch hr.symm.trans hop
  | ok v =>
    obtain ⟨op, j⟩ := v
    cases he : Opcode.entry? ⟨op⟩ with
    | none =>
      refine (quiet_byte p i).bind_fail (a := op) hr (e := .ofCause (.invalidOpcode ⟨op⟩ i.pos)) (by simp only [he]) ?_
      refine ⟨.of_first (w := [op]) (gives_byte.mp hr).1, ?_⟩
      rw [Opcode.isValid, he]
      rfl
    | some e =>
      refine (quiet_byte p i).bind fun op' j' xs hop hx => ?_
      obtain ⟨rfl, rfl⟩ : op = op' ∧ j = j' := by simpa [Gives, hr] using hop
      subst hx
      simp only [he]
      exact Quiet.bind ((quiet_operand? e.operand).within _) (fun o => Quiet.pure _) p j

/-- An instruction tells of itself. -/
theorem reports_instruction : Reports instruction fun x xs => xs = [x] := by
  apply Reports.restoring
  intro p i
  refine (Quiet.position p i).bind fun pos _ xs hpos hx => ?_
  obtain ⟨rfl, rfl⟩ := gives_position.mp hpos
  subst hx
  have hbare := quiet_bareInstruction p i
  cases hr : (bareInstruction p i).result with
  | error s =>
    refine (quiet_bareInstruction.captured p i).bind fun a j xs ha _ => ?_
    obtain ⟨x, code⟩ := a
    exact nomatch hr.symm.trans (gives_captured.mp ha).1
  | ok v =>
    obtain ⟨x, j⟩ := v
    obtain ⟨hpart, _, rfl, htells⟩ := hbare.gives x j hr
    obtain ⟨w, _, hw, hj, halone⟩ := takes_instruction p i x j (gives_instruction.mpr hr)
    have htake : i.rest.take (j.pos - i.pos) = w := by
      rw [hj, Nat.add_sub_cancel_left, hw, List.take_left]
    have hcaptured : captured bareInstruction p i = ⟨[], .ok ((x, w), j)⟩ := by
      have hresult : (captured bareInstruction p i).result = _ := takes_bareInstruction.gives_captured.mpr ⟨hr, htake⟩
      have hevents : (captured bareInstruction p i).events = [] := htells.eq_nil
      rw [← hevents, ← hresult]
    have hread := halone .checked []
    rw [List.append_nil, hj] at hread
    refine ⟨fun y k hy => ?_, fun s hs => ?_⟩
    · rw [Gives, bind_of_ok hcaptured] at hy
      obtain ⟨rfl, rfl⟩ := Prod.mk.inj (Except.ok.inj hy)
      rw [bind_of_ok hcaptured]
      exact ⟨hpart, [x], rfl, .cons (Nat.le_refl _) (.of_first hw) hread (.nil (Nat.le_of_eq hj.symm))⟩
    · rw [bind_of_ok hcaptured] at hs
      cases hs

theorem reports_expressionLoop (fuel : Bytes) : Reports (expressionLoop fuel) fun c xs => xs = c := by
  induction fuel with
  | nil => exact Reports.bind reports_instruction fun _ _ _ => Reports.outOfRounds
  | cons _ fuel ih =>
    refine Reports.bind reports_instruction fun x xs hx => ?_
    subst hx
    refine Reports.ite (fun _ => Reports.pure rfl) fun _ => ?_
    refine Reports.bind ih fun c ys hy => Reports.pure ?_
    rw [hy, List.append_nil]
    rfl

theorem reports_expression : Reports expression fun c xs => xs = c :=
  (Reports.quiet_bind Quiet.remaining fun rest => reports_expressionLoop rest).restoring

theorem reports_codeLoop (fuel left : Nat) : Reports (codeLoop fuel left) fun c xs => xs = c := by
  induction fuel generalizing left with
  | zero => exact Reports.ite (fun _ => Reports.outOfRounds) fun _ => Reports.pure rfl
  | succ fuel ih =>
    rw [codeLoop]
    refine Reports.ite (fun _ => ?_) fun _ => Reports.pure rfl
    refine Reports.bind reports_instruction.measured fun a xs hx => ?_
    obtain ⟨x, n⟩ := a
    subst hx
    refine Reports.bind (ih (left - n)) fun c ys hy => Reports.pure ?_
    rw [hy, List.append_nil]
    rfl

/-! ## Entries -/

theorem quiet_importType (kind : ExternalKind) : Quiet (importType kind) := by
  refine Quiet.ite (fun _ => Quiet.bind quiet_varuint32 fun _ => Quiet.pure _) fun _ => ?_
  refine Quiet.ite (fun _ => Quiet.bind quiet_tableType fun _ => Quiet.pure _) fun _ => ?_
  refine Quiet.ite (fun _ => Quiet.bind quiet_memoryType fun _ => Quiet.pure _) fun _ => ?_
  exact Quiet.bind quiet_globalType fun _ => Quiet.pure _

theorem quiet_importEntry : Quiet importEntry := by
  apply Quiet.restoring
  refine Quiet.bind (quiet_nameText.within _) fun moduleName => ?_
  refine Quiet.bind (quiet_nameText.within _) fun field => ?_
  refine Quiet.bind quiet_externalKind fun kind => ?_
  exact Quiet.bind ((quiet_importType kind).within _) fun type => Quiet.pure _

theorem quiet_exportEntry : Quiet exportEntry := by
  apply Quiet.restoring
  refine Quiet.bind (quiet_nameText.within _) fun field => ?_
  refine Quiet.bind quiet_externalKind fun kind => ?_
  exact Quiet.bind (quiet_varuint32.within _) fun index => Quiet.pure _

theorem reports_globalEntry : Reports globalEntry fun g xs => xs = g.init := by
  apply Reports.restoring
  refine Reports.quiet_bind quiet_globalType fun type => ?_
  refine Reports.bind (reports_expression.within _) fun init xs hx => Reports.pure ?_
  rw [hx, List.append_nil]

theorem reports_element : Reports element fun e xs => xs = e.offset := by
  apply Reports.restoring
  refine Reports.quiet_bind (quiet_varuint32.within _) fun table => ?_
  refine Reports.bind (reports_expression.within _) fun offset xs hx => ?_
  refine Reports.quiet_bind (quiet_list _ _ quiet_varuint32) fun functions => Reports.pure ?_
  rw [hx, List.append_nil]

theorem reports_dataSegment : Reports dataSegment fun d xs => xs = d.offset := by
  apply Reports.restoring
  refine Reports.quiet_bind (quiet_varuint32.within _) fun memory => ?_
  refine Reports.bind (reports_expression.within _) fun offset xs hx => ?_
  refine Reports.quiet_bind (quiet_count.within _) fun n => ?_
  refine Reports.quiet_bind ((quiet_bytes n).within _) fun b => Reports.pure ?_
  rw [hx, List.append_nil]

theorem quiet_localGroup : Quiet localGroup := by
  apply Quiet.restoring
  refine Quiet.bind (quiet_varuint32.within _) fun n => ?_
  exact Quiet.bind quiet_valueType fun type => Quiet.pure _

/-- The instruction `end` has no operand. -/
theorem operand_of_blockEnd {p : CountPolicy} {i j : Input} {x : Instruction} (h : instruction.Gives p i x j)
    (hend : x.op = .blockEnd) : x = ⟨.blockEnd, none⟩ := by
  obtain ⟨op, operand⟩ := x
  obtain rfl : op = .blockEnd := hend
  obtain ⟨k, e, _, he, hoperand⟩ := gives_bareInstruction.mp (gives_instruction.mp h)
  obtain rfl : e = ⟨"end", none⟩ := Option.some.inj (he.symm.trans rfl)
  obtain ⟨rfl, _⟩ := gives_pure.mp hoperand
  rfl

/-- A body tells of its code and of the `end` after it. -/
theorem reports_bodyContent (size start : Nat) : Reports (bodyContent size start) fun f xs => xs = f.instructions := by
  refine Reports.quiet_bind (quiet_list _ _ quiet_localGroup).measured fun (locals, n) => ?_
  refine Reports.bind (reports_codeLoop _ _).measured fun (code, m) xs hx => ?_
  refine Reports.quiet_bind Quiet.position fun pos => ?_
  intro p i
  refine (reports_instruction.measured p i).bind fun (last, k) j ys hlast hy => ?_
  refine (Quiet.ensure _ (e := .malformed (.notEnd pos last.op)) (fun _ => trivial) p j).bind fun _ l zs hensure hz => ?_
  obtain ⟨hend, rfl⟩ := gives_ensure.mp hensure
  subst hz
  refine Reports.quiet_bind (Quiet.ensure _ (e := .malformed (.bodyEnds (pos + k) (start + size))) fun _ => trivial) (fun _ => ?_) p j
  refine Reports.pure ?_
  have heq : last = ⟨.blockEnd, none⟩ := operand_of_blockEnd (gives_measured.mp hlast).1 (of_decide_eq_true hend)
  simp only at hx hy
  rw [hx, hy, heq, FuncBody.instructions]
  rfl

theorem reports_funcBody : Reports funcBody fun f xs => xs = f.instructions := by
  apply Reports.restoring
  refine Reports.quiet_bind (quiet_count.within _) fun size => ?_
  refine Reports.quiet_bind Quiet.position fun start => ?_
  refine Reports.quiet_bind (Quiet.hasRoom size) fun fits => ?_
  exact Reports.quiet_bind (Quiet.ensure fits fun _ => trivial) fun _ => reports_bodyContent size start

/-! ## Payloads -/

theorem quiet_custom : Quiet custom := (quiet_nameText.within _).followed.restoring

theorem reports_payload (id : SectionId) : Reports (payload id) fun a xs => xs = a.instructions := by
  unfold payload
  refine Reports.ite (fun _ => (quiet_vector _ _ quiet_funcType).reports_map fun _ => rfl) fun _ => ?_
  refine Reports.ite (fun _ => (quiet_vector _ _ quiet_importEntry).reports_map fun _ => rfl) fun _ => ?_
  refine Reports.ite (fun _ => (quiet_vector _ _ quiet_varuint32).reports_map fun _ => rfl) fun _ => ?_
  refine Reports.ite (fun _ => (quiet_vector _ _ quiet_tableType).reports_map fun _ => rfl) fun _ => ?_
  refine Reports.ite (fun _ => (quiet_vector _ _ quiet_memoryType).reports_map fun _ => rfl) fun _ => ?_
  refine Reports.ite (fun _ => (reports_vector _ _ reports_globalEntry).map _ fun _ _ hx => hx) fun _ => ?_
  refine Reports.ite (fun _ => (quiet_vector _ _ quiet_exportEntry).reports_map fun _ => rfl) fun _ => ?_
  refine Reports.ite (fun _ => (quiet_varuint32.within _).restoring.reports_map fun _ => rfl) fun _ => ?_
  refine Reports.ite (fun _ => (reports_vector _ _ reports_element).map _ fun _ _ hx => hx) fun _ => ?_
  refine Reports.ite (fun _ => (reports_vector _ _ reports_funcBody).map _ fun _ _ hx => hx) fun _ => ?_
  refine Reports.ite (fun _ => (reports_vector _ _ reports_dataSegment).map _ fun _ _ hx => hx) fun _ => ?_
  exact quiet_custom.reports_map fun _ => rfl

end Grammar

end WasmInspect
