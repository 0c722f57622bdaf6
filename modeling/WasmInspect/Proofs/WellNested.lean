import WasmInspect.Proofs.Nesting
import WasmInspect.Proofs.Readability

/-!
# The text of a model as an expression

The text of a model has a form for each export and each function, all of them in the parentheses of the module. Everything in it but the names is
neutral: wherever it stands, it opens and closes as much. Names are written as they are in the module, so it is for them to be neutral too
(`isWellNested_of_isNeutral`); where a function is named by one that is not, the forms are not expressions (`isNeutral_of_isWellNested`).
-/

namespace WasmInspect

open Nesting Text

/-- Wherever the text stands, inside a string or outside, everything is after it as it was before. -/
def IsNeutral (s : String) : Prop := ∀ q, Keeps ⟨0, q⟩ s.toList

instance (s : String) : Decidable (IsNeutral s) := inferInstanceAs (Decidable (∀ q, Keeps ⟨0, q⟩ s.toList))

namespace IsNeutral

variable {s t : String}

theorem keeps (h : IsNeutral s) (n : Nesting) : Keeps n s.toList := (h n.inString).of_depth n.depth

/-- A plain text has no quotes and no parentheses. -/
theorem of_isPlain (h : IsPlain s) : IsNeutral s := by
  have hshape : shapeCharacters = ['(', ')', '"'] ++ ['\n'] := rfl
  have hquiet : IsQuiet s.toList := fun c hc hmem => h c hc (hshape ▸ List.mem_append_left _ hmem)
  exact fun _ => .of_quiet hquiet

theorem append (hs : IsNeutral s) (ht : IsNeutral t) : IsNeutral (s ++ t) := by
  intro q
  rw [String.toList_append]
  exact (hs q).append (ht q)

/-- Parentheses around a text, and a text in front of them. -/
theorem paren (hs : IsNeutral s) (ht : IsNeutral t) : IsNeutral (s ++ "(" ++ t ++ ")") := by
  have hparen : IsNeutral ("(" ++ t ++ ")") := by
    intro q
    rw [String.toList_append, String.toList_append]
    cases q with
    | false => exact (ht false).paren
    | true => exact (Keeps.append (by decide) (ht true)).append (by decide)
  have hassoc : s ++ "(" ++ t ++ ")" = s ++ ("(" ++ t ++ ")") := by simp only [String.append_assoc]
  rw [hassoc]
  exact hs.append hparen

theorem join {ss : List String} (h : ∀ s ∈ ss, IsNeutral s) : IsNeutral (String.join ss) := by
  induction ss with
  | nil => exact fun q => Keeps.nil _
  | cons s ss ih =>
    rw [String.join_cons]
    exact (h s List.mem_cons_self).append (ih fun t ht => h t (List.mem_cons_of_mem _ ht))

end IsNeutral

namespace SExpr

/-! ## Forms -/

/-- What comes after the name in the form of an export. -/
def exportTail (e : ExportView) : String := " (" ++ (e.kind.name ++ " " ++ nameMarker ++ e.name) ++ ")"

/-- The form of an export. -/
def exportExpression (e : ExportView) : String := "(" ++ ("export " ++ ("\"" ++ e.name ++ "\"") ++ exportTail e) ++ ")"

/-- What comes after the name in the form of a function. -/
def functionTail (f : FunctionView) : String :=
  typesText "param" f.params ++ typesText "result" f.results ++ String.join (f.code.map instructionLine)

/-- The form of a function. -/
def functionExpression (f : FunctionView) : String := "(" ++ ("func" ++ nameText f.name ++ functionTail f) ++ ")"

/-- The forms in the text of a model: one for each export, and one for each function. -/
def expressions (m : Model) : List String := m.exports.map exportExpression ++ m.functions.map functionExpression

theorem exportText_eq (e : ExportView) : exportText e = "\n  " ++ exportExpression e := by
  rw [← String.toList_inj]
  simp [exportText, exportExpression, exportTail]

theorem functionText_eq (f : FunctionView) : functionText f = "\n  " ++ functionExpression f := by
  rw [← String.toList_inj]
  simp [functionText, functionHead, functionExpression, functionTail]

theorem text_eq_expressions (m : Model) : text m = "(module" ++ String.join ((expressions m).map ("\n  " ++ ·)) ++ ")\n" := by
  rw [text_eq, expressions, List.map_append, String.join_append, List.map_map, List.map_map, ← String.append_assoc]
  simp only [Function.comp_def, ← exportText_eq, ← functionText_eq]

/-! ## Neutral parts -/

/-- A name of a kind may have parentheses, but a pair of them. -/
theorem isNeutral_kindName (k : ExternalKind) : IsNeutral k.name := by
  have hnames : IsNeutral "Function" ∧ IsNeutral "Table" ∧ IsNeutral "Memory" ∧ IsNeutral "Global" := by decide
  unfold ExternalKind.name
  split_ifs
  · exact hnames.1
  · exact hnames.2.1
  · exact hnames.2.2.1
  · exact hnames.2.2.2
  · exact .paren (s := "kind") (by decide) (.of_isPlain (isPlain_decimal _))

theorem isNeutral_typesText {keyword : String} (hkeyword : IsNeutral keyword) {types : List ValueType} (h : ∀ t ∈ types, t ∈ ValueType.all) :
    IsNeutral (typesText keyword types) := by
  unfold typesText
  split_ifs
  · exact fun q => Keeps.nil _
  · have hplain : ∀ t ∈ ValueType.all, IsPlain t.name := by decide
    have htypes : IsNeutral (String.join (types.map fun t => " " ++ t.name)) :=
      .join (List.forall_mem_map.mpr fun t ht => .append (by decide) (.of_isPlain (hplain t (h t ht))))
    have hassoc : " (" ++ keyword ++ String.join (types.map fun t => " " ++ t.name) ++ ")" =
        " (" ++ (keyword ++ String.join (types.map fun t => " " ++ t.name)) ++ ")" := by simp only [String.append_assoc]
    rw [hassoc]
    exact .paren (s := " ") (by decide) (hkeyword.append htypes)

theorem isNeutral_instructionLine {x : Instruction} (h : x.WellFormed) : IsNeutral (instructionLine x) :=
  .paren (s := "\n    ") (by decide) (.of_isPlain (Instruction.isPlain_text h))

theorem isNeutral_functionTail {f : FunctionView} (h : f.WellFormed) : IsNeutral (functionTail f) :=
  .append (.append (isNeutral_typesText (by decide) h.type.params) (isNeutral_typesText (by decide) h.type.results))
    (.join (List.forall_mem_map.mpr fun x hx => isNeutral_instructionLine (h.code x hx)))

/-! ## Forms that are expressions -/

theorem isExpression_paren {s : String} : IsExpression ("(" ++ s ++ ")").toList ↔ Keeps outside s.toList := by
  have hlist : ("(" ++ s ++ ")").toList = '(' :: (s.toList ++ [')']) := by simp
  rw [hlist, isExpression_iff]
  constructor
  · rintro ⟨inner, heq, hkeeps⟩
    rwa [List.append_cancel_right (List.cons.inj heq).2]
  · exact fun hkeeps => ⟨s.toList, rfl, hkeeps⟩

/-- The form of a function is an expression if its name is kept outside of strings. -/
theorem isExpression_functionExpression_iff {f : FunctionView} (h : f.WellFormed) :
    IsExpression (functionExpression f).toList ↔ Keeps outside (nameText f.name).toList := by
  rw [functionExpression, isExpression_paren, String.toList_append, Keeps.append_iff_left ((isNeutral_functionTail h).keeps _), String.toList_append,
    Keeps.append_iff_right (by decide)]

/-- What comes after the name of an export is kept with it. -/
theorem keeps_exportTail {e : ExportView} (h : Keeps outside e.name.toList) : Keeps outside (exportTail e).toList := by
  have hlist : (exportTail e).toList = [' '] ++ '(' :: (e.kind.name.toList ++ (" " ++ nameMarker).toList ++ e.name.toList ++ [')']) := by
    simp [exportTail]
  rw [hlist]
  exact .append (by decide) (.paren (.append (.append (isNeutral_kindName e.kind false) (by decide)) h))

/-- The form of an export has its name outside of strings, and in one. -/
theorem isExpression_exportExpression_iff {e : ExportView} (h : Keeps outside e.name.toList) :
    IsExpression (exportExpression e).toList ↔ Keeps ⟨0, true⟩ e.name.toList := by
  have hquoted : ("\"" ++ e.name ++ "\"").toList = '"' :: (e.name.toList ++ ['"']) := by simp
  -- a name that is kept outside of strings has quotes in pairs, so its own string is closed after it
  have hstring : (after ⟨0, true⟩ e.name.toList).inString = true := by
    rw [show true = !false from rfl, inString_after_not 0 0, show after ⟨0, false⟩ e.name.toList = outside from h.1]
    rfl
  have hclosed : outside.after ("export " ++ ("\"" ++ e.name ++ "\"")).toList = ⟨(after ⟨0, true⟩ e.name.toList).depth, false⟩ := by
    have hstart : outside.after "export ".toList = outside := by decide
    rw [String.toList_append, after_append, hstart, hquoted, after_cons, after_append]
    exact congrArg (Nesting.mk _) (congrArg not hstring)
  have htail : Keeps (outside.after ("export " ++ ("\"" ++ e.name ++ "\"")).toList) (exportTail e).toList := by
    rw [hclosed]
    exact (keeps_exportTail h).of_depth _
  rw [exportExpression, isExpression_paren, String.toList_append, Keeps.append_iff_left htail, String.toList_append, Keeps.append_iff_right (by decide),
    hquoted]
  exact Keeps.quoted_iff

/-! ## The text -/

/-- The text is one expression and a line break, and the expressions in it are the given ones. -/
structure IsWellNested (text : String) (forms : List String) : Prop where
  expression : ∃ s, text.toList = s ++ ['\n'] ∧ IsExpression s
  children : children text.toList = forms.map String.toList

theorem toList_text (m : Model) :
    (text m).toList = '(' :: ("module".toList ++ ((expressions m).map String.toList).flatMap ("\n  ".toList ++ ·) ++ [')']) ++ ['\n'] := by
  have hstart : "(module".toList = '(' :: "module".toList := rfl
  have hend : ")\n".toList = [')'] ++ ['\n'] := rfl
  rw [text_eq_expressions, String.toList_append, String.toList_append, String.toList_join, List.flatMap_map, List.flatMap_map, hstart, hend]
  simp only [String.toList_append, List.cons_append, List.append_assoc]

/-- The text is well nested if all its forms are expressions. -/
theorem isWellNested_text {m : Model} (h : ∀ s ∈ expressions m, IsExpression s.toList) : IsWellNested (text m) (expressions m) := by
  have hforms : ∀ x ∈ (expressions m).map String.toList, IsExpression x := List.forall_mem_map.mpr h
  have hquiet : IsQuiet "\n  ".toList := by decide
  have hmodule : IsQuiet "module".toList := by decide
  constructor
  · refine ⟨_, toList_text m, isExpression_iff.mpr ⟨_, rfl, .append (.of_quiet hmodule) (.flatMap fun x hx => ?_)⟩⟩
    exact .append (.of_quiet hquiet) ((hforms x hx).keeps 0)
  · have hopen : outside.step '(' = ⟨1, false⟩ := rfl
    rw [toList_text, children, List.cons_append, within, hopen, if_neg (by decide), if_neg (by decide), List.append_assoc, List.append_assoc,
      within_quiet hmodule, within_separated hquiet hforms]
    exact List.append_nil _

/-- All forms of a well nested text are expressions. -/
theorem isExpression_of_isWellNested {m : Model} (h : IsWellNested (text m) (expressions m)) : ∀ s ∈ expressions m, IsExpression s.toList := by
  intro s hs
  refine isExpression_of_mem_children (s := (text m).toList) s.toList ?_
  rw [h.children]
  exact List.mem_map_of_mem hs

section

variable {m : Model}

/-- The text of a model is well nested if the names of its exports are neutral, and if its functions are named after these. -/
theorem isWellNested_of_isNeutral (hfunctions : ∀ f ∈ m.functions, f.WellFormed)
    (hnamed : ∀ f ∈ m.functions, ∀ n ∈ f.name, ∃ e ∈ m.exports, n = nameMarker ++ e.name) (h : ∀ e ∈ m.exports, IsNeutral e.name) :
    IsWellNested (text m) (expressions m) := by
  refine isWellNested_text (List.forall_mem_append.mpr ⟨List.forall_mem_map.mpr fun e he => ?_, List.forall_mem_map.mpr fun f hf => ?_⟩)
  · exact (isExpression_exportExpression_iff (h e he false)).mpr (h e he true)
  · refine (isExpression_functionExpression_iff (hfunctions f hf)).mpr ?_
    cases hname : f.name with
    | none => exact .nil _
    | some n =>
      obtain ⟨e, he, rfl⟩ := hnamed f hf n hname
      have hneutral : IsNeutral (" " ++ (nameMarker ++ e.name)) := .append (by decide) (.append (by decide) (h e he))
      exact hneutral false

/-- The name of an export that a function is named after is neutral if the text is well nested. -/
theorem isNeutral_of_isWellNested (hfunctions : ∀ f ∈ m.functions, f.WellFormed) (h : IsWellNested (text m) (expressions m)) {e : ExportView}
    (he : e ∈ m.exports) (hnamed : ∃ f ∈ m.functions, f.name = some (nameMarker ++ e.name)) : IsNeutral e.name := by
  have hforms := isExpression_of_isWellNested h
  obtain ⟨f, hf, hname⟩ := hnamed
  have hmarked := (isExpression_functionExpression_iff (hfunctions f hf)).mp (hforms _ (List.mem_append_right _ (List.mem_map_of_mem hf)))
  have hlist : (nameText f.name).toList = " $".toList ++ e.name.toList := by simp [hname, nameText, nameMarker]
  rw [hlist, Keeps.append_iff_right (by decide)] at hmarked
  have hstring := (isExpression_exportExpression_iff hmarked).mp (hforms _ (List.mem_append_left _ (List.mem_map_of_mem he)))
  exact Bool.forall_bool.mpr ⟨hmarked, hstring⟩

end

end SExpr

namespace Model

theorem exists_export_of_functionName {exports : List ExportView} {index : UInt32} {n : String} (h : functionName exports index = some n) :
    ∃ e ∈ exports, n = nameMarker ++ e.name := by
  obtain ⟨e, he, rfl⟩ := Option.map_eq_some_iff.mp h
  exact ⟨e, List.mem_of_find?_eq_some he, rfl⟩

variable {m : Module} {model : Model}

/-- The functions of both views are named after exports. -/
theorem exists_export_of_positional (h : m.WellFormed) (hmodel : positional m = .ok model) :
    ∀ f ∈ model.functions, ∀ n ∈ f.name, ∃ e ∈ model.exports, n = nameMarker ++ e.name := by
  rw [positional_eq h] at hmodel
  obtain rfl := Except.ok.inj hmodel
  exact List.forall_mem_map.mpr fun _ _ _ hn => exists_export_of_functionName hn

theorem exists_export_of_indexed (h : m.WellFormed) (hmodel : indexed m = .ok model) :
    ∀ f ∈ model.functions, ∀ n ∈ f.name, ∃ e ∈ model.exports, n = nameMarker ++ e.name := by
  rw [indexed_eq h] at hmodel
  obtain rfl := Except.ok.inj hmodel
  exact List.forall_mem_append.mpr ⟨List.forall_mem_map.mpr fun _ _ _ hn => exists_export_of_functionName hn,
    List.forall_mem_map.mpr fun _ _ _ hn => exists_export_of_functionName hn⟩

end Model

open SExpr in
/-- The text of a view is one expression with the forms of the exports and of the functions as the expressions in it, if the names of the exports
are neutral; they are written as they are. If a name is not, and a function is named after it, then the text is not. -/
theorem text_well_nested {b : Bytes} {m : Module} (h : (decode b).result = .ok m) :
    ∃ positional indexed, Model.positional m = .ok positional ∧ Model.indexed m = .ok indexed ∧ ∀ model ∈ [positional, indexed],
      ((∀ e ∈ model.exports, IsNeutral e.name) → IsWellNested (text model) (expressions model)) ∧
      (IsWellNested (text model) (expressions model) →
        ∀ e ∈ model.exports, (∃ f ∈ model.functions, f.name = some (nameMarker ++ e.name)) → IsNeutral e.name) := by
  have hwf := wellFormed_of_decode h
  have hpositional := Model.positional_eq hwf
  have hindexed := Model.indexed_eq hwf
  have hnamed := Model.exists_export_of_positional hwf hpositional
  have hnamed' := Model.exists_export_of_indexed hwf hindexed
  have hfunctions := Model.wellFormed_of_positional hwf hpositional
  have hfunctions' := Model.wellFormed_of_indexed hwf hindexed
  refine ⟨_, _, hpositional, hindexed, List.forall_mem_cons.mpr ⟨?_, List.forall_mem_singleton.mpr ?_⟩⟩
  · exact ⟨isWellNested_of_isNeutral hfunctions hnamed, fun hnested _ => isNeutral_of_isWellNested hfunctions hnested⟩
  · exact ⟨isWellNested_of_isNeutral hfunctions' hnamed', fun hnested _ => isNeutral_of_isWellNested hfunctions' hnested⟩

open SExpr in
/-- A module with a function that is exported under a name with a pair of parentheses. -/
theorem text_well_nested_pair :
    let b := Module.header ++ [1, 4, 1, 0x60, 0, 0] ++ [3, 2, 1, 0] ++ [7, 10, 1, 6, 0x66, 0x28, 0x69, 0x6e, 0x74, 0x29, 0, 0] ++
      [10, 5, 1, 3, 0, 1, 0x0b]
    let m := Module.ofSections [⟨.types, 4, 4, .types [⟨[], []⟩]⟩, ⟨.functions, 2, 2, .functions [0]⟩,
      ⟨.exports, 10, 10, .exports [⟨"f(int)", .function, 0⟩]⟩, ⟨.code, 5, 5, .code [⟨3, [], [⟨⟨0x01⟩, none⟩]⟩]⟩]
    let model : Model := ⟨1, [⟨0, "f(int)", .function⟩], [⟨some "$f(int)", [], [], false, [⟨⟨0x01⟩, none⟩]⟩]⟩
    (decode b).result = .ok m ∧ Model.positional m = .ok model ∧
      IsWellNested (text model) ["(export \"f(int)\" (Function $f(int)))", "(func $f(int)\n    (nop))"] := by
  intro b m model
  have hdecode : (decode b).result = .ok m := by decide +kernel
  have hmodel : Model.positional m = .ok model := by decide +kernel
  have hforms : expressions model = ["(export \"f(int)\" (Function $f(int)))", "(func $f(int)\n    (nop))"] := by decide +kernel
  have hneutral : ∀ e ∈ model.exports, IsNeutral e.name := by decide +kernel
  obtain ⟨positional, indexed, hpositional, -, hviews⟩ := text_well_nested hdecode
  obtain rfl : model = positional := Except.ok.inj (hmodel.symm.trans hpositional)
  exact ⟨hdecode, hmodel, hforms ▸ (hviews model List.mem_cons_self).1 hneutral⟩

open SExpr in
/-- An export named by a closing parenthesis: the text has one more of these than it opens. -/
theorem text_not_well_nested :
    let b := Module.header ++ [7, 5, 1, 1, 0x29, 0, 0]
    let m := Module.ofSections [⟨.exports, 5, 5, .exports [⟨")", .function, 0⟩]⟩]
    let model : Model := ⟨1, [⟨0, ")", .function⟩], []⟩
    (decode b).result = .ok m ∧ Model.positional m = .ok model ∧ Model.indexed m = .ok model ∧
      text model = "(module\n  (export \")\" (Function $))))\n" ∧ (outside.after (text model).toList).depth = -1 ∧
      ¬IsWellNested (text model) (expressions model) := by
  intro b m model
  have hdepth : (outside.after (text model).toList).depth = -1 := by decide +kernel
  refine ⟨by decide +kernel, by decide +kernel, by decide +kernel, by decide +kernel, hdepth, fun h => ?_⟩
  obtain ⟨s, htext, hexpression⟩ := h.expression
  rw [htext, after_append, hexpression.closes] at hdepth
  cases hdepth

end WasmInspect
