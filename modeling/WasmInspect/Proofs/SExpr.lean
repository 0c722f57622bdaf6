import WasmInspect.SExpr

/-!
# The text of a model, written out

The text of a model joins its pieces. Without a highlight it is what `text_eq` says: a line for each export, and for each function a head and a
line for each instruction, with the closing parentheses where something ends.
-/

namespace WasmInspect.SExpr

/-! ## Joining pieces -/

/-- The highlighted text of some pieces. -/
def shown (h : Highlight) (ps : List Piece) : String := String.join (ps.map h.apply)

section

variable {h : Highlight}

theorem shown_nil : shown h [] = "" := String.join_nil

theorem shown_cons (p : Piece) (ps : List Piece) : shown h (p :: ps) = h.apply p ++ shown h ps := by
  rw [shown, List.map_cons, String.join_cons, shown]

theorem shown_append (ps qs : List Piece) : shown h (ps ++ qs) = shown h ps ++ shown h qs := by
  rw [shown, List.map_append, String.join_append, shown, shown]

theorem shown_flatMap {α : Type} (f : α → List Piece) (xs : List α) : shown h (xs.flatMap f) = String.join (xs.map fun x => shown h (f x)) := by
  induction xs with
  | nil => rfl
  | cons x xs ih => rw [List.flatMap_cons, shown_append, ih, List.map_cons, String.join_cons]

/-- The text of a model is added piece by piece. -/
theorem append_eq (buffer : String) (m : Model) : append h buffer m = buffer ++ shown h (pieces m) := by
  unfold append
  generalize pieces m = ps
  induction ps generalizing buffer with
  | nil => exact (String.append_empty).symm
  | cons p ps ih => rw [List.foldl_cons, ih, shown_cons, String.append_assoc]

theorem render_eq (m : Model) : render h m = shown h (pieces m) := by
  rw [render, append_eq, String.empty_append]

theorem toList_shown (ps : List Piece) : (shown h ps).toList = ps.flatMap fun p => (h.apply p).toList := by
  rw [shown, String.toList_join, List.flatMap_map]

end

/-! ## The plain text -/

/-- The line of an export. -/
def exportText (e : ExportView) : String :=
  String.join ["\n  (export \"", e.name, "\" (", e.kind.name, " ", nameMarker ++ e.name, "))"]

/-- A name after a blank. -/
def nameText : Option String → String
  | some n => " " ++ n
  | none => ""

/-- A group of types, or nothing if there are none. -/
def typesText (keyword : String) (types : List ValueType) : String :=
  if types = [] then "" else " (" ++ keyword ++ String.join (types.map fun t => " " ++ t.name) ++ ")"

/-- The line on which a function starts. -/
def functionHead (f : FunctionView) : String :=
  "\n  (func" ++ nameText f.name ++ typesText "param" f.params ++ typesText "result" f.results

/-- The line of an instruction. -/
def instructionLine (x : Instruction) : String := "\n    (" ++ x.text ++ ")"

/-- The lines of a function. -/
def functionText (f : FunctionView) : String := functionHead f ++ String.join (f.code.map instructionLine) ++ ")"

/-- Without a highlight a piece is its text. -/
theorem apply_plain (p : Piece) : ({} : Highlight).apply p = p.text := by
  obtain ⟨style, text⟩ := p
  cases style <;> rfl

theorem shown_exportForm (e : ExportView) : shown {} (exportForm e) = exportText e := by
  simp only [shown, exportForm, plain, List.map_cons, List.map_nil, apply_plain, exportText]

theorem shown_nameGroup (n : Option String) : shown {} (nameGroup n) = nameText n := by
  cases n with
  | none => exact shown_nil
  | some n => simp only [nameGroup, plain, shown_cons, shown_nil, apply_plain, String.append_empty, nameText]

theorem shown_typeGroup (keyword : String) (types : List ValueType) : shown {} (typeGroup keyword types) = typesText keyword types := by
  unfold typeGroup typesText
  cases types with
  | nil => exact shown_nil
  | cons t ts =>
    simp only [List.isEmpty_cons, Bool.false_eq_true, if_false, reduceCtorEq, List.cons_append, shown_append, shown_cons, shown_nil, shown_flatMap,
      plain, apply_plain, String.append_empty, String.append_assoc]

theorem shown_instructionForm (x : Instruction) : shown {} (instructionForm x) = instructionLine x := by
  simp only [instructionForm, plain, shown_cons, shown_nil, apply_plain, String.append_empty, instructionLine, Instruction.text, String.append_assoc]

theorem shown_functionForm (f : FunctionView) : shown {} (functionForm f) = functionText f := by
  have hstart : ∀ s, "\n  (func" ++ s = "\n  (" ++ ("func" ++ s) := by
    intro s
    rw [← String.append_assoc]
    exact congrArg (· ++ s) (by decide)
  simp only [functionForm, List.cons_append, shown_cons, shown_nil, shown_append, shown_nameGroup, shown_typeGroup, shown_flatMap,
    shown_instructionForm, plain, apply_plain, String.append_empty, functionText, functionHead, String.append_assoc]
  exact (hstart _).symm

/-- The plain text of a model. -/
theorem text_eq (m : Model) :
    text m = "(module" ++ String.join (m.exports.map exportText) ++ String.join (m.functions.map functionText) ++ ")\n" := by
  simp only [text, render_eq, pieces, List.cons_append, shown_cons, shown_nil, shown_append, shown_flatMap, shown_exportForm, shown_functionForm, plain,
    apply_plain, String.append_empty, String.append_assoc]

end WasmInspect.SExpr
