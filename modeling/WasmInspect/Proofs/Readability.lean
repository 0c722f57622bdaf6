import WasmInspect.Proofs.InstructionText
import WasmInspect.Proofs.SExpr
import WasmInspect.Proofs.TwoViews

/-!
# Code read back from the text of a model

The text of a model says what its functions are. The line of an instruction ends at its first closing parenthesis, since nothing in an
instruction's text is one; a group of types ends there too; and what comes after the last line of a function, and after the last function, cannot
be the start of another one. Only names may have any characters, so they are taken as known: they are the same for modules with the same exports.
-/

namespace WasmInspect

open Text

/-- The names of value types are as long as each other, so none is the start of another. -/
theorem ValueType.name_append_inj {t u : ValueType} (ht : t ∈ all) (hu : u ∈ all) {s s' : String} (h : t.name ++ s = u.name ++ s') :
    t = u ∧ s = s' := by
  have hlength : ∀ t ∈ all, t.name.toList.length = 3 := by decide
  have hname : ∀ t ∈ all, ∀ u ∈ all, t.name = u.name → t = u := by decide
  have hlists := congrArg String.toList h
  rw [String.toList_append, String.toList_append] at hlists
  obtain ⟨hnames, hrest⟩ := List.append_inj hlists ((hlength t ht).trans (hlength u hu).symm)
  exact ⟨hname t ht u hu (String.toList_inj.mp hnames), String.toList_inj.mp hrest⟩

namespace FunctionView

/-- A type and code as a module has them. -/
structure WellFormed (f : FunctionView) : Prop where
  type : f.type.WellFormed
  code : ∀ x ∈ f.code, x.WellFormed

/-- Functions of one signature whose instructions are alike, each with the one at its place. -/
structure Alike (f g : FunctionView) : Prop where
  params : f.params = g.params
  results : f.results = g.results
  code : List.Forall₂ Instruction.Alike f.code g.code

end FunctionView

namespace SExpr

/-! ## The code of a function -/

/-- The line of an instruction is the text up to the first closing parenthesis. -/
theorem instructionLine_append_inj {x y : Instruction} (hx : x.WellFormed) (hy : y.WellFormed) {s s' : String}
    (h : instructionLine x ++ s = instructionLine y ++ s') : x.Alike y ∧ s = s' := by
  have hstop : ∀ z : Instruction, z.WellFormed → ')' ∉ ("\n    (" ++ z.text).toList := by
    intro z hz
    rw [String.toList_append, List.mem_append, not_or]
    exact ⟨by decide, fun hmem => Instruction.isPlain_text hz _ hmem (by decide)⟩
  obtain ⟨hline, hrest⟩ := append_separator_inj ")" ')' rfl (hstop x hx) (hstop y hy) h
  exact ⟨Instruction.alike_of_text_eq hx hy ((String.append_right_inj _).mp hline), hrest⟩

/-- The line of an instruction is no start of a text that starts otherwise. -/
theorem instructionLine_append_ne {p : String} (hp : Apart "\n    (" p) (x : Instruction) (s t : String) : instructionLine x ++ s ≠ p ++ t := by
  rw [instructionLine, String.append_assoc, String.append_assoc]
  exact hp.append_ne _ _

/-- The lines of a function's code, up to the parenthesis at their end, say what the code is. -/
theorem code_append_inj {c c' : Code} (hc : ∀ x ∈ c, x.WellFormed) (hc' : ∀ x ∈ c', x.WellFormed) {s s' : String}
    (h : String.join (c.map instructionLine) ++ (")" ++ s) = String.join (c'.map instructionLine) ++ (")" ++ s')) :
    List.Forall₂ Instruction.Alike c c' ∧ s = s' := by
  have hline := instructionLine_append_ne (p := ")") (by decide)
  obtain ⟨halike, hend⟩ := join_map_inj
    (fun k x y hx hy _ _ => instructionLine_append_inj (hc x (List.mem_of_getElem? hx)) (hc' y (List.mem_of_getElem? hy)))
    (fun x t => hline x t s) (fun x t => hline x t s') h
  exact ⟨halike, (String.append_right_inj _).mp hend⟩

/-! ## The signature of a function -/

theorem typesText_nil_append (keyword s : String) : typesText keyword [] ++ s = s := by
  rw [typesText, if_pos rfl, String.empty_append]

theorem typesText_append_of_ne_nil {keyword : String} {ts : List ValueType} (h : ts ≠ []) (s : String) :
    typesText keyword ts ++ s = " (" ++ keyword ++ (String.join (ts.map fun t => " " ++ t.name) ++ (")" ++ s)) := by
  simp only [typesText, if_neg h, String.append_assoc]

/-- The types between a keyword and a parenthesis are those that are named there. -/
theorem join_name_append_inj {ts us : List ValueType} (hts : ∀ t ∈ ts, t ∈ ValueType.all) (hus : ∀ u ∈ us, u ∈ ValueType.all) {s s' : String}
    (h : String.join (ts.map fun t => " " ++ t.name) ++ (")" ++ s) = String.join (us.map fun t => " " ++ t.name) ++ (")" ++ s')) :
    ts = us ∧ s = s' := by
  have hblank : ∀ (t : ValueType) (r r' : String), " " ++ t.name ++ r ≠ ")" ++ r' := by
    intro t r r'
    rw [String.append_assoc]
    exact Apart.append_ne (by decide) _ _
  obtain ⟨heq, hend⟩ := join_map_inj (R := Eq)
    (fun k t u ht hu r r' hr => by
      rw [String.append_assoc, String.append_assoc] at hr
      exact ValueType.name_append_inj (hts t (List.mem_of_getElem? ht)) (hus u (List.mem_of_getElem? hu)) ((String.append_right_inj _).mp hr))
    (fun t r => hblank t r s) (fun t r => hblank t r s') h
  exact ⟨List.forall₂_eq_eq_eq ▸ heq, (String.append_right_inj _).mp hend⟩

/-- A group of types is the text up to its parenthesis; there is none where the text does not start like one. -/
theorem typesText_append_inj {keyword : String} {ts us : List ValueType} (hts : ∀ t ∈ ts, t ∈ ValueType.all) (hus : ∀ u ∈ us, u ∈ ValueType.all)
    {s s' : String} (hs : ∀ r, " (" ++ keyword ++ r ≠ s) (hs' : ∀ r, " (" ++ keyword ++ r ≠ s')
    (h : typesText keyword ts ++ s = typesText keyword us ++ s') : ts = us ∧ s = s' := by
  by_cases ht : ts = []
  · by_cases hu : us = []
    · subst ht hu
      rw [typesText_nil_append, typesText_nil_append] at h
      exact ⟨rfl, h⟩
    · rw [ht, typesText_nil_append, typesText_append_of_ne_nil hu] at h
      exact absurd h.symm (hs _)
  · by_cases hu : us = []
    · rw [hu, typesText_nil_append, typesText_append_of_ne_nil ht] at h
      exact absurd h (hs' _)
    · rw [typesText_append_of_ne_nil ht, typesText_append_of_ne_nil hu] at h
      exact join_name_append_inj hts hus ((String.append_right_inj _).mp h)

/-- The code of a function does not start like a group of types. -/
theorem group_append_ne_code (keyword r : String) (c : Code) (s : String) :
    " (" ++ keyword ++ r ≠ String.join (c.map instructionLine) ++ (")" ++ s) := by
  rw [String.append_assoc]
  cases c with
  | nil =>
    rw [List.map_nil, String.join_nil, String.empty_append]
    exact Apart.append_ne (by decide) _ _
  | cons x c =>
    rw [List.map_cons, String.join_cons, String.append_assoc]
    exact (instructionLine_append_ne (by decide) x _ _).symm

/-- The results and the code of a function do not start like its parameters. -/
theorem params_append_ne_results (r : String) (ts : List ValueType) (c : Code) (s : String) :
    " (" ++ "param" ++ r ≠ typesText "result" ts ++ (String.join (c.map instructionLine) ++ (")" ++ s)) := by
  by_cases ht : ts = []
  · rw [ht, typesText_nil_append]
    exact group_append_ne_code _ _ _ _
  · rw [typesText_append_of_ne_nil ht]
    exact Apart.append_ne (by decide) _ _

/-! ## Functions -/

theorem functionText_append (f : FunctionView) (s : String) :
    functionText f ++ s = "\n  (func" ++ (nameText f.name ++ (typesText "param" f.params ++
      (typesText "result" f.results ++ (String.join (f.code.map instructionLine) ++ (")" ++ s))))) := by
  simp only [functionText, functionHead, String.append_assoc]

/-- The lines of a function of a known name say what the function is. -/
theorem functionText_append_inj {f g : FunctionView} (hf : f.WellFormed) (hg : g.WellFormed) (hname : f.name = g.name) {s s' : String}
    (h : functionText f ++ s = functionText g ++ s') : f.Alike g ∧ s = s' := by
  rw [functionText_append, functionText_append, hname, String.append_right_inj, String.append_right_inj] at h
  obtain ⟨hparams, h⟩ := typesText_append_inj hf.type.params hg.type.params (fun r => params_append_ne_results r _ _ _)
    (fun r => params_append_ne_results r _ _ _) h
  obtain ⟨hresults, h⟩ := typesText_append_inj hf.type.results hg.type.results (fun r => group_append_ne_code _ r _ _)
    (fun r => group_append_ne_code _ r _ _) h
  obtain ⟨hcode, hend⟩ := code_append_inj hf.code hg.code h
  exact ⟨⟨hparams, hresults, hcode⟩, hend⟩

/-- Models of one text with the same exports and the same names at the same places have functions that are alike. -/
theorem forall₂_alike_of_text_eq {m m' : Model} (hm : ∀ f ∈ m.functions, f.WellFormed) (hm' : ∀ f ∈ m'.functions, f.WellFormed)
    (hexports : m.exports = m'.exports)
    (hnames : ∀ (k : Nat) (f g : FunctionView), m.functions[k]? = some f → m'.functions[k]? = some g → f.name = g.name)
    (h : text m = text m') : List.Forall₂ FunctionView.Alike m.functions m'.functions := by
  have hstart : ∀ (f : FunctionView) (s : String), functionText f ++ s ≠ ")\n" := by
    intro f s
    rw [functionText_append, ← String.append_empty (s := ")\n")]
    exact Apart.append_ne (by decide) _ _
  rw [text_eq, text_eq, hexports] at h
  simp only [String.append_assoc, String.append_right_inj] at h
  exact (join_map_inj
    (fun k f g hf hg _ _ => functionText_append_inj (hm f (List.mem_of_getElem? hf)) (hm' g (List.mem_of_getElem? hg)) (hnames k f g hf hg))
    hstart hstart h).1

end SExpr

/-! ## The functions of a module's views -/

namespace Model

variable {m : Module} {model : Model}

/-- The type of an index is well-formed, also where there is no type. -/
theorem wellFormed_typeAt (h : m.WellFormed) (n : Nat) : ((m.entries .types Payload.types?)[n]?.getD ⟨[], []⟩).WellFormed := by
  cases ht : (m.entries .types Payload.types?)[n]? with
  | none => exact ⟨by decide, by decide, by decide⟩
  | some t => exact h.forall_mem_entries (fun _ _ hview ha => ha.types hview) t (List.mem_of_getElem? ht)

theorem wellFormed_codeAt (h : m.WellFormed) (n : Nat) :
    ∀ x ∈ ((m.entries .code Payload.code?)[n]?.map FuncBody.code).getD [], x.WellFormed := by
  cases hbody : (m.entries .code Payload.code?)[n]? with
  | none => exact fun _ hx => absurd hx List.not_mem_nil
  | some body => exact (h.forall_mem_entries (fun _ _ hview ha => ha.code hview) body (List.mem_of_getElem? hbody)).code

theorem wellFormed_of_positional (h : m.WellFormed) (hmodel : positional m = .ok model) : ∀ f ∈ model.functions, f.WellFormed := by
  rw [positional_eq h] at hmodel
  obtain rfl := Except.ok.inj hmodel
  refine List.forall_mem_map.mpr fun p hp => ⟨?_, wellFormed_codeAt h p.2⟩
  exact h.forall_mem_entries (fun _ _ hview ha => ha.types hview) p.1 (List.fst_mem_of_mem_zipIdx hp)

theorem wellFormed_of_indexed (h : m.WellFormed) (hmodel : indexed m = .ok model) : ∀ f ∈ model.functions, f.WellFormed := by
  rw [indexed_eq h] at hmodel
  obtain rfl := Except.ok.inj hmodel
  refine List.forall_mem_append.mpr ⟨List.forall_mem_map.mpr fun p _ => ?_, List.forall_mem_map.mpr fun p _ => ?_⟩
  · exact ⟨wellFormed_typeAt h p.1.toNat, fun _ hx => absurd hx List.not_mem_nil⟩
  · exact ⟨wellFormed_typeAt h p.1.toNat, wellFormed_codeAt h p.2⟩

end Model

/-- The text of a view says what the code of a module is. Two modules that were read and have the same exports, whatever these are named, have
functions that are alike if the text of one is that of the other: as many functions, and in each the same parameters, results and instructions
with the same opcodes and operands. Only floating-point constants may differ, if their bits have the same text, and, in the indexed view,
whether a function is imported. -/
theorem text_determines_functions {b b' : Bytes} {m m' : Module} (h : (decode b).result = .ok m) (h' : (decode b').result = .ok m')
    (hexports : m.entries .exports Payload.exports? = m'.entries .exports Payload.exports?) :
    ∃ positional positional' indexed indexed', Model.positional m = .ok positional ∧ Model.positional m' = .ok positional' ∧
      Model.indexed m = .ok indexed ∧ Model.indexed m' = .ok indexed' ∧
      (SExpr.text positional = SExpr.text positional' → List.Forall₂ FunctionView.Alike positional.functions positional'.functions) ∧
      (SExpr.text indexed = SExpr.text indexed' → List.Forall₂ FunctionView.Alike indexed.functions indexed'.functions) := by
  have hwf := wellFormed_of_decode h
  have hwf' := wellFormed_of_decode h'
  have hpositional := Model.positional_eq hwf
  have hpositional' := Model.positional_eq hwf'
  have hindexed := Model.indexed_eq hwf
  have hindexed' := Model.indexed_eq hwf'
  have hviews := congrArg Model.exportsOf hexports
  refine ⟨_, _, _, _, hpositional, hpositional', hindexed, hindexed', fun htext => ?_, fun htext => ?_⟩
  · refine SExpr.forall₂_alike_of_text_eq (Model.wellFormed_of_positional hwf hpositional) (Model.wellFormed_of_positional hwf' hpositional') hviews
      (fun k f g hf hg => ?_) htext
    rw [Model.name_of_getElem?_positional hwf hpositional hf, Model.name_of_getElem?_positional hwf' hpositional' hg, hexports]
  · refine SExpr.forall₂_alike_of_text_eq (Model.wellFormed_of_indexed hwf hindexed) (Model.wellFormed_of_indexed hwf' hindexed') hviews
      (fun k f g hf hg => ?_) htext
    rw [Model.name_of_getElem?_functions hwf hindexed hf, Model.name_of_getElem?_functions hwf' hindexed' hg, hexports]

/-- Two modules with a function that is exported under a name of a parenthesis and a quote. They have other bits for a constant that is no
number, and one of them has a default target of two bytes. The texts are the same. -/
theorem text_determines_functions_not_a_number :
    let b := Module.header ++ [1, 5, 1, 0x60, 1, 0x7f, 0] ++ [3, 2, 1, 0] ++ [7, 6, 1, 2, 0x29, 0x22, 0, 0] ++
      [10, 14, 1, 12, 0, 0x43, 0, 0, 0xc0, 0x7f, 0x0e, 2, 0, 1, 0, 0x0b]
    let b' := Module.header ++ [1, 5, 1, 0x60, 1, 0x7f, 0] ++ [3, 2, 1, 0] ++ [7, 6, 1, 2, 0x29, 0x22, 0, 0] ++
      [10, 15, 1, 13, 0, 0x43, 1, 0, 0xc0, 0x7f, 0x0e, 2, 0, 1, 0x80, 0, 0x0b]
    let moduleOf (size : Nat) (bits : UInt32) := Module.ofSections [⟨.types, 5, 5, .types [⟨[⟨0x7f⟩], []⟩]⟩, ⟨.functions, 2, 2, .functions [0]⟩,
      ⟨.exports, 6, 6, .exports [⟨")\"", .function, 0⟩]⟩,
      ⟨.code, size + 2, size + 2, .code [⟨size, [], [⟨⟨0x43⟩, some (.f32 bits)⟩, ⟨⟨0x0e⟩, some (.branchTable [0, 1] 0)⟩]⟩]⟩]
    let model (bits : UInt32) : Model := ⟨1, [⟨0, ")\"", .function⟩],
      [⟨some "$)\"", [⟨0x7f⟩], [], false, [⟨⟨0x43⟩, some (.f32 bits)⟩, ⟨⟨0x0e⟩, some (.branchTable [0, 1] 0)⟩]⟩]⟩
    let m := moduleOf 12 0x7fc00000
    let m' := moduleOf 13 0x7fc00001
    (decode b).result = .ok m ∧ (decode b').result = .ok m' ∧ m.entries .exports Payload.exports? = m'.entries .exports Payload.exports? ∧
      Model.positional m = .ok (model 0x7fc00000) ∧ Model.positional m' = .ok (model 0x7fc00001) ∧
      SExpr.text (model 0x7fc00000) = SExpr.text (model 0x7fc00001) ∧
      List.Forall₂ FunctionView.Alike (model 0x7fc00000).functions (model 0x7fc00001).functions := by
  intro b b' moduleOf model m m'
  have hdecode : (decode b).result = .ok m := by decide +kernel
  have hdecode' : (decode b').result = .ok m' := by decide +kernel
  have hmodel : Model.positional m = .ok (model 0x7fc00000) := by decide +kernel
  have hmodel' : Model.positional m' = .ok (model 0x7fc00001) := by decide +kernel
  have htext : SExpr.text (model 0x7fc00000) = SExpr.text (model 0x7fc00001) := by decide +kernel
  obtain ⟨positional, positional', _, _, hpositional, hpositional', _, _, halike, _⟩ := text_determines_functions hdecode hdecode' rfl
  obtain rfl : model 0x7fc00000 = positional := Except.ok.inj (hmodel.symm.trans hpositional)
  obtain rfl : model 0x7fc00001 = positional' := Except.ok.inj (hmodel'.symm.trans hpositional')
  exact ⟨hdecode, hdecode', rfl, hmodel, hmodel', htext, halike htext⟩

end WasmInspect
