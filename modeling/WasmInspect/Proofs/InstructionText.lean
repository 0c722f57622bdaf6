import Mathlib.Data.List.Nodup
import Mathlib.Data.List.Pairwise
import WasmInspect.Instruction.Text
import WasmInspect.Proofs.Text
import WasmInspect.Proofs.Utf8
import WasmInspect.Proofs.WellFormed

/-!
# Instructions read back from their texts

The table of opcodes uses each mnemonic once, and no mnemonic has a blank. So the first word of an instruction's text says which opcode it has,
and with it of which kind its operand is. What is left of the text then says which operand it is, but for floating-point constants, of which
some have one text: all those that are no number.
-/

namespace WasmInspect

open Text

/-! ## Mnemonics -/

namespace Opcode

/-- All mnemonics, in the order of the table. -/
def mnemonics : List String := table.flatMap Run.mnemonics

/-- No mnemonic is there twice. They are compared as numbers, which is much less work. -/
theorem nodup_mnemonics : mnemonics.Nodup := by
  refine List.Nodup.of_map (fun s => (utf8 s).foldl (fun n b => 256 * n + b.toNat) 0) ?_
  decide +kernel

/-- The characters of mnemonics come after those that a text is taken apart at. -/
theorem lt_of_mem_mnemonics {s : String} (hs : s ∈ mnemonics) {c : Char} (hc : c ∈ s.toList) : ')' < c := by
  have hall : (mnemonics.all fun s => s.toList.all fun c => ')' < c) = true := by decide +kernel
  exact of_decide_eq_true (List.all_eq_true.mp (List.all_eq_true.mp hall s hs) c hc)

theorem isPlain_of_mem_mnemonics {s : String} (hs : s ∈ mnemonics) : IsPlain s := by
  intro c hc hshape
  have hle : (shapeCharacters.all fun c => c ≤ ')') = true := by decide
  exact Char.not_le.mpr (lt_of_mem_mnemonics hs hc) (of_decide_eq_true (List.all_eq_true.mp hle c hshape))

theorem not_mem_of_mem_mnemonics {s : String} (hs : s ∈ mnemonics) : ' ' ∉ s.toList := fun hblank =>
  absurd (lt_of_mem_mnemonics hs hblank) (by decide)

/-- What the table says of an opcode is in one of its runs, at the place that is the distance from the first opcode. -/
theorem exists_run_of_entry? {op : Opcode} {e : Entry} (h : op.entry? = some e) :
    ∃ r ∈ table, r.first ≤ op.byte.toNat ∧ r.mnemonics[op.byte.toNat - r.first]? = some e.mnemonic := by
  obtain ⟨r, hr, hentry⟩ := List.exists_of_findSome?_eq_some h
  obtain ⟨s, hs, rfl⟩ := Option.map_eq_some_iff.mp hentry
  unfold Run.mnemonic? at hs
  split at hs
  next hle => exact ⟨r, hr, hle, hs⟩
  next => cases hs

theorem mnemonic_mem {op : Opcode} {e : Entry} (h : op.entry? = some e) : e.mnemonic ∈ mnemonics := by
  obtain ⟨r, hr, _, hs⟩ := exists_run_of_entry? h
  exact List.mem_flatMap.mpr ⟨r, hr, List.mem_of_getElem? hs⟩

/-- Opcodes of one mnemonic are the same: the mnemonic is in one run only, and there at one place only. -/
theorem eq_of_mnemonic_eq {op op' : Opcode} {e e' : Entry} (h : op.entry? = some e) (h' : op'.entry? = some e') (heq : e.mnemonic = e'.mnemonic) :
    op = op' := by
  obtain ⟨r, hr, hle, hs⟩ := exists_run_of_entry? h
  obtain ⟨r', hr', hle', hs'⟩ := exists_run_of_entry? h'
  rw [← heq] at hs'
  obtain ⟨hruns, hdisjoint⟩ := List.nodup_flatMap.mp nodup_mnemonics
  have hsymm : Std.Symm (Function.onFun List.Disjoint Run.mnemonics) := ⟨fun _ _ h _ ha hb => h hb ha⟩
  obtain rfl : r = r' := by
    by_contra hne
    exact hdisjoint.forall hr hr' hne (List.mem_of_getElem? hs) (List.mem_of_getElem? hs')
  have hlt := (List.getElem?_eq_some_iff.mp hs).1
  have hplace : op.byte.toNat - r.first = op'.byte.toNat - r.first := (List.getElem?_inj hlt (hruns r hr)).mp (hs.trans hs'.symm)
  have hbyte : op.byte.toNat = op'.byte.toNat := by omega
  exact congrArg Opcode.mk (UInt8.toNat_inj.mp hbyte)

end Opcode

/-! ## Operands -/

namespace BlockType

theorem isPlain_name : ∀ t ∈ all, IsPlain t.name := by decide

theorem name_inj : ∀ t ∈ all, ∀ u ∈ all, t.name = u.name → t = u := by decide

end BlockType

namespace Operand

/-- Operands that have one text: the same one, or two floating-point constants of one format whose bits have the same text. -/
inductive Alike : Operand → Operand → Prop where
  | refl (o : Operand) : Alike o o
  | f32 {bits bits' : UInt32} (text : Decimal.Format.single.text bits.toNat = Decimal.Format.single.text bits'.toNat) : Alike (.f32 bits) (.f32 bits')
  | f64 {bits bits' : UInt64} (text : Decimal.Format.double.text bits.toNat = Decimal.Format.double.text bits'.toNat) : Alike (.f64 bits) (.f64 bits')

theorem isPlain_text {o : Operand} (h : o.WellFormed) : IsPlain o.text := by
  cases o with
  | block type => exact BlockType.isPlain_name type h
  | index index => exact isPlain_decimal _
  | branchTable targets default =>
    have htargets : ∀ s ∈ targets.map fun t => decimal t.toNat, IsPlain s := List.forall_mem_map.mpr fun t _ => isPlain_decimal t.toNat
    simp only [text, isPlain_append]
    exact ⟨⟨⟨by decide, isPlain_intercalate (by decide) htargets⟩, by decide⟩, isPlain_decimal _⟩
  | indirectCall type extra =>
    simp only [text, isPlain_append]
    exact ⟨⟨isPlain_decimal _, by decide⟩, isPlain_decimal _⟩
  | memory flags offset =>
    simp only [text, isPlain_append]
    exact ⟨⟨⟨⟨by decide, isPlain_decimal _⟩, by decide⟩, isPlain_decimal _⟩, by decide⟩
  | reserved value => exact isPlain_decimal _
  | i32 value => exact isPlain_signedDecimal _
  | i64 value => exact isPlain_signedDecimal _
  | f32 bits => exact Decimal.Format.isPlain_text _ _
  | f64 bits => exact Decimal.Format.isPlain_text _ _

theorem decimal_toNat_inj {a b : UInt32} : decimal a.toNat = decimal b.toNat ↔ a = b := by
  rw [decimal_inj, UInt32.toNat_inj]

/-- The text of a branch table has its first closing bracket after the targets. -/
theorem not_mem_targets (targets : List UInt32) : ']' ∉ ("[" ++ " ".intercalate (targets.map fun t => decimal t.toNat)).toList := by
  intro hmem
  rw [String.toList_append, List.mem_append] at hmem
  rcases hmem with hmem | hmem
  · exact absurd hmem (by decide)
  · rcases mem_intercalate hmem with hmem | ⟨s, hs, hmem⟩
    · exact absurd hmem (by decide)
    · obtain ⟨t, _, rfl⟩ := List.mem_map.mp hs
      exact not_mem_decimal (by decide) hmem

theorem targets_inj {targets targets' : List UInt32}
    (h : " ".intercalate (targets.map fun t => decimal t.toNat) = " ".intercalate (targets'.map fun t => decimal t.toNat)) : targets = targets' := by
  have hword : ∀ ts : List UInt32, ∀ s ∈ ts.map fun t => decimal t.toNat, IsWord s := fun ts =>
    List.forall_mem_map.mpr fun t _ => isWord_decimal t.toNat
  exact (List.map_inj_right fun _ _ => decimal_toNat_inj.mp).mp (intercalate_word_inj (hword targets) (hword targets') h)

/-- The text of an operand of a known kind says which one it is. -/
theorem alike_of_text_eq {o o' : Operand} (h : o.WellFormed) (h' : o'.WellFormed) (hkind : o.kind = o'.kind) (htext : o.text = o'.text) :
    o.Alike o' := by
  cases o with
  | block type =>
    cases o' with
    | block type' =>
      obtain rfl := BlockType.name_inj type h type' h' htext
      exact .refl _
    | _ => cases hkind
  | index index =>
    cases o' with
    | index index' =>
      obtain rfl := decimal_toNat_inj.mp htext
      exact .refl _
    | _ => cases hkind
  | branchTable targets default =>
    cases o' with
    | branchTable targets' default' =>
      obtain ⟨htargets, hdefault⟩ := append_separator_inj "] " ']' rfl (not_mem_targets targets) (not_mem_targets targets') htext
      obtain rfl := targets_inj ((String.append_right_inj _).mp htargets)
      obtain rfl := decimal_toNat_inj.mp hdefault
      exact .refl _
    | _ => cases hkind
  | indirectCall type extra =>
    cases o' with
    | indirectCall type' extra' =>
      obtain ⟨htype, hextra⟩ := append_separator_inj " " ' ' rfl (not_mem_decimal (by decide)) (not_mem_decimal (by decide)) htext
      obtain rfl := decimal_toNat_inj.mp htype
      obtain rfl := UInt8.toNat_inj.mp (decimal_inj.mp hextra)
      exact .refl _
    | _ => cases hkind
  | memory flags offset =>
    cases o' with
    | memory flags' offset' =>
      have hstop : ∀ n, ' ' ∉ ("\x7bflags=" ++ decimal n).toList := by
        intro n
        rw [String.toList_append, List.mem_append, not_or]
        exact ⟨by decide, not_mem_decimal (by decide)⟩
      obtain ⟨hflags, hoffset⟩ := append_separator_inj " offset=" ' ' rfl (hstop _) (hstop _) ((String.append_left_inj _).mp htext)
      obtain rfl := decimal_toNat_inj.mp ((String.append_right_inj _).mp hflags)
      obtain rfl := decimal_toNat_inj.mp hoffset
      exact .refl _
    | _ => cases hkind
  | reserved value =>
    cases o' with
    | reserved value' =>
      obtain rfl := UInt8.toNat_inj.mp (decimal_inj.mp htext)
      exact .refl _
    | _ => cases hkind
  | i32 value =>
    cases o' with
    | i32 value' =>
      obtain rfl := Int32.toInt_inj.mp (signedDecimal_inj.mp htext)
      exact .refl _
    | _ => cases hkind
  | i64 value =>
    cases o' with
    | i64 value' =>
      obtain rfl := Int64.toInt_inj.mp (signedDecimal_inj.mp htext)
      exact .refl _
    | _ => cases hkind
  | f32 bits =>
    cases o' with
    | f32 bits' => exact .f32 htext
    | _ => cases hkind
  | f64 bits =>
    cases o' with
    | f64 bits' => exact .f64 htext
    | _ => cases hkind

end Operand

/-! ## Instructions -/

namespace Instruction

variable {x y : Instruction}

/-- Instructions that have one text: they have the same opcode, and no operands or operands of one text. -/
structure Alike (x y : Instruction) : Prop where
  op : x.op = y.op
  operand : Option.Rel Operand.Alike x.operand y.operand

/-- A well-formed instruction has an opcode of the table, which gives it its mnemonic and the kind of its operand. -/
theorem WellFormed.exists_entry (h : x.WellFormed) :
    ∃ e, x.op.entry? = some e ∧ x.op.name = e.mnemonic ∧ e.operand = x.operand.map Operand.kind := by
  obtain ⟨e, he, hoperand⟩ := Option.map_eq_some_iff.mp h.kind
  exact ⟨e, he, by rw [Opcode.name, he], hoperand⟩

theorem WellFormed.name_mem (h : x.WellFormed) : x.op.name ∈ Opcode.mnemonics := by
  obtain ⟨e, he, hname, _⟩ := h.exists_entry
  rw [hname]
  exact Opcode.mnemonic_mem he

theorem isPlain_text (h : x.WellFormed) : IsPlain x.text := by
  refine isPlain_append.mpr ⟨Opcode.isPlain_of_mem_mnemonics h.name_mem, ?_⟩
  unfold tail
  cases hoperand : x.operand with
  | none => exact (by decide : IsPlain "")
  | some o => exact isPlain_append.mpr ⟨by decide, Operand.isPlain_text (h.operand o hoperand)⟩

/-- The first word of an instruction's text is the mnemonic. -/
theorem name_eq_of_text_eq (hx : x.WellFormed) (hy : y.WellFormed) (h : x.text = y.text) : x.op.name = y.op.name ∧ x.tail = y.tail := by
  have hhead : ∀ z : Instruction, ∀ c ∈ z.tail.toList.head?, c = ' ' := by
    intro z c hc
    unfold tail at hc
    cases hz : z.operand with
    | none =>
      rw [hz] at hc
      cases hc
    | some o =>
      rw [hz, String.toList_append] at hc
      exact (Option.some.inj hc).symm
  have hlists := congrArg String.toList h
  rw [text, text, String.toList_append, String.toList_append] at hlists
  obtain ⟨hname, htail⟩ := word_inj (Opcode.not_mem_of_mem_mnemonics hx.name_mem) (Opcode.not_mem_of_mem_mnemonics hy.name_mem)
    (hhead x) (hhead y) hlists
  exact ⟨String.toList_inj.mp hname, String.toList_inj.mp htail⟩

/-- Well-formed instructions of one text are alike. -/
theorem alike_of_text_eq (hx : x.WellFormed) (hy : y.WellFormed) (h : x.text = y.text) : x.Alike y := by
  obtain ⟨hname, htail⟩ := name_eq_of_text_eq hx hy h
  obtain ⟨e, he, hnamex, hkindx⟩ := hx.exists_entry
  obtain ⟨e', he', hnamey, hkindy⟩ := hy.exists_entry
  have hop : x.op = y.op := Opcode.eq_of_mnemonic_eq he he' (by rw [← hnamex, hname, hnamey])
  obtain rfl : e = e' := by rwa [hop, he', Option.some.injEq, eq_comm] at he
  -- the opcode says whether there is an operand, and of which kind
  have hkind : x.operand.map Operand.kind = y.operand.map Operand.kind := hkindx.symm.trans hkindy
  refine ⟨hop, ?_⟩
  unfold tail at htail
  cases hox : x.operand with
  | none =>
    cases hoy : y.operand with
    | none => exact .none
    | some o' =>
      rw [hox, hoy] at hkind
      cases hkind
  | some o =>
    cases hoy : y.operand with
    | none =>
      rw [hox, hoy] at hkind
      cases hkind
    | some o' =>
      rw [hox, hoy] at hkind htail
      have htext : o.text = o'.text := (String.append_right_inj _).mp htail
      exact .some (Operand.alike_of_text_eq (hx.operand o hox) (hy.operand o' hoy) (Option.some.inj hkind) htext)

end Instruction

end WasmInspect
