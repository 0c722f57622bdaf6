import Mathlib.Algebra.BigOperators.Group.List.Basic
import Mathlib.Algebra.GroupWithZero.Nat
import WasmInspect.Proofs.SExpr
import WasmInspect.Proofs.Utf8

/-!
# Highlights

A highlight is asked for the text of each mnemonic, name and type, and for nothing else. If it puts texts around them (`Marks`), then the
highlighted text is the plain one with these texts in between: it is got back by deleting their characters, as long as the plain text has none
of these itself.
-/

namespace WasmInspect

namespace SExpr

/-! ## Marks -/

/-- The texts to put before and after the tokens of each style, if any. -/
structure Marks where
  mnemonic : Option (String × String) := none
  name : Option (String × String) := none
  type : Option (String × String) := none

namespace Marks

/-- Puts a pair of texts around a token. -/
def around : Option (String × String) → String → String
  | some (before, after) => Highlight.between before after
  | none => id

/-- The highlight that puts these texts around the tokens, and changes no token of the other styles. -/
def highlight (k : Marks) : Highlight := ⟨around k.mnemonic, around k.name, around k.type⟩

/-- The texts of a pair, if there is one. -/
def texts (pair : Option (String × String)) : List String := pair.toList.flatMap fun p => [p.1, p.2]

/-- The characters of all these texts. -/
def characters (k : Marks) : List Char := (texts k.mnemonic ++ texts k.name ++ texts k.type).flatMap String.toList

/-- How many characters a pair of texts has. -/
def width (pair : Option (String × String)) : Nat := ((texts pair).map String.length).sum

/-- The pair for the tokens of a style. -/
def of (k : Marks) : Style → Option (String × String)
  | .plain => none
  | .mnemonic => k.mnemonic
  | .name => k.name
  | .type => k.type

theorem apply_highlight (k : Marks) (p : Piece) : k.highlight.apply p = around (k.of p.style) p.text := by
  obtain ⟨style, text⟩ := p
  cases style <;> rfl

theorem length_around (pair : Option (String × String)) (s : String) : (around pair s).length = s.length + width pair := by
  cases pair with
  | none => rfl
  | some p =>
    simp only [around, Highlight.between, String.length_append, width, texts, Option.toList_some, List.flatMap_cons, List.flatMap_nil, List.append_nil,
      List.map_cons, List.map_nil, List.sum_cons, List.sum_nil]
    omega

/-- The characters of the texts for one style are among those of all. -/
theorem mem_characters {k : Marks} {style : Style} {t : String} (ht : t ∈ texts (k.of style)) {c : Char} (hc : c ∈ t.toList) : c ∈ k.characters := by
  refine List.mem_flatMap.mpr ⟨t, ?_, hc⟩
  cases style with
  | plain => cases ht
  | mnemonic => exact List.mem_append_left _ (List.mem_append_left _ ht)
  | name => exact List.mem_append_left _ (List.mem_append_right _ ht)
  | type => exact List.mem_append_right _ ht

/-- Deleting the characters of the marks leaves the piece, if it has none of these. -/
theorem filter_apply_highlight {k : Marks} {p : Piece} (h : ∀ c ∈ p.text.toList, c ∉ k.characters) :
    (k.highlight.apply p).toList.filter (· ∉ k.characters) = p.text.toList := by
  have hkeep : p.text.toList.filter (· ∉ k.characters) = p.text.toList := List.filter_eq_self.mpr fun c hc => decide_eq_true (h c hc)
  have hdrop : ∀ t ∈ texts (k.of p.style), t.toList.filter (· ∉ k.characters) = [] := fun t ht =>
    List.filter_eq_nil_iff.mpr fun c hc => by simpa using mem_characters ht hc
  rw [apply_highlight]
  cases hpair : k.of p.style with
  | none => exact hkeep
  | some pair =>
    rw [hpair] at hdrop
    have hbefore := hdrop pair.1 (by simp [texts])
    have hafter := hdrop pair.2 (by simp [texts])
    simp only [around, Highlight.between, String.toList_append, List.filter_append, hbefore, hafter, hkeep, List.nil_append, List.append_nil]

end Marks

/-! ## Tokens -/

/-- The tokens that the function of a style is asked for. -/
def tokens (style : Style) (m : Model) : List String := ((pieces m).filter fun p => p.style = style).map Piece.text

/-- How many pieces have a style. -/
def count (style : Style) (ps : List Piece) : Nat := ps.countP fun p => p.style = style

theorem length_tokens (style : Style) (m : Model) : (tokens style m).length = count style (pieces m) := by
  rw [tokens, List.length_map, ← List.countP_eq_length_filter, count]

section

variable {style : Style}

theorem count_cons (p : Piece) (ps : List Piece) : count style (p :: ps) = count style ps + if p.style = style then 1 else 0 := by
  rw [count, List.countP_cons, count]
  simp only [decide_eq_true_eq]

theorem count_append (ps qs : List Piece) : count style (ps ++ qs) = count style ps + count style qs := List.countP_append

theorem count_flatMap {α : Type} (f : α → List Piece) (xs : List α) : count style (xs.flatMap f) = (xs.map fun x => count style (f x)).sum :=
  List.countP_flatMap

/-- An export has a name. -/
theorem count_exportForm (e : ExportView) (hstyle : style ≠ .plain) : count style (exportForm e) = if style = .name then 1 else 0 := by
  cases style with
  | plain => exact absurd rfl hstyle
  | mnemonic => rfl
  | name => rfl
  | type => rfl

theorem count_nameGroup (n : Option String) (hstyle : style ≠ .plain) :
    count style (nameGroup n) = if style = .name ∧ n.isSome then 1 else 0 := by
  cases n with
  | none => simp [nameGroup, count]
  | some n =>
    have hplain : (plain " ").style ≠ style := hstyle.symm
    simp only [nameGroup, count_cons, if_neg hplain, Option.isSome_some, and_true, eq_comm (a := Style.name)]
    simp [count]

/-- A group of types has as many types. -/
theorem count_typeGroup (keyword : String) (types : List ValueType) (hstyle : style ≠ .plain) :
    count style (typeGroup keyword types) = if style = .type then types.length else 0 := by
  have hplain : ∀ s, (plain s).style ≠ style := fun _ => hstyle.symm
  have htypes : count style (types.flatMap fun t => [plain " ", ⟨.type, t.name⟩]) = if style = .type then types.length else 0 := by
    induction types with
    | nil => simp [count]
    | cons t ts ih =>
      simp only [List.flatMap_cons, count_append, ih, count_cons, if_neg (hplain _), List.length_cons, eq_comm (a := Style.type)]
      split <;> simp [count, Nat.add_comm]
  unfold typeGroup
  cases types with
  | nil => simp [count]
  | cons t ts =>
    simp only [List.isEmpty_cons, Bool.false_eq_true, if_false, List.cons_append, count_cons, count_append, if_neg (hplain _), Nat.add_zero, htypes]
    simp [count]

/-- An instruction has a mnemonic. -/
theorem count_instructionForm (x : Instruction) (hstyle : style ≠ .plain) :
    count style (instructionForm x) = if style = .mnemonic then 1 else 0 := by
  cases style with
  | plain => exact absurd rfl hstyle
  | mnemonic => rfl
  | name => rfl
  | type => rfl

/-- A function has a mnemonic for itself and one for each instruction, its name if it has one, and the types of its parameters and results. -/
theorem count_functionForm (f : FunctionView) (hstyle : style ≠ .plain) :
    count style (functionForm f) = (if style = .mnemonic then 1 + f.code.length else 0) + (if style = .name ∧ f.name.isSome then 1 else 0) +
      if style = .type then f.params.length + f.results.length else 0 := by
  have hplain : ∀ s, (plain s).style ≠ style := fun _ => hstyle.symm
  have hcode : count style (f.code.flatMap instructionForm) = if style = .mnemonic then f.code.length else 0 := by
    rw [count_flatMap]
    simp only [count_instructionForm _ hstyle]
    split <;> simp
  have hempty : count style ([] : List Piece) = 0 := rfl
  simp only [functionForm, List.cons_append, count_cons, count_append, if_neg (hplain _), count_nameGroup _ hstyle, count_typeGroup _ _ hstyle, hcode,
    hempty, eq_comm (a := Style.mnemonic)]
  cases style with
  | plain => exact absurd rfl hstyle
  | mnemonic => simp [Nat.add_comm]
  | name => simp
  | type => simp

theorem count_pieces (m : Model) (hstyle : style ≠ .plain) :
    count style (pieces m) = (if style = .name then m.exports.length else 0) + (m.functions.map fun f => count style (functionForm f)).sum := by
  have hplain : ∀ s, (plain s).style ≠ style := fun _ => hstyle.symm
  have hexports : count style (m.exports.flatMap exportForm) = if style = .name then m.exports.length else 0 := by
    rw [count_flatMap]
    simp only [count_exportForm _ hstyle]
    split <;> simp
  have hempty : count style ([] : List Piece) = 0 := rfl
  simp only [pieces, List.cons_append, count_cons, count_append, if_neg (hplain _), hexports, count_flatMap, hempty, Nat.add_zero]

end

/-- There is a mnemonic for each function and for each instruction. -/
theorem length_tokens_mnemonic (m : Model) :
    (tokens .mnemonic m).length = m.functions.length + (m.functions.map fun f => f.code.length).sum := by
  rw [length_tokens, count_pieces m (by decide)]
  simp [count_functionForm, List.sum_map_add]

/-- There is a name for each export, and for each function that has one. -/
theorem length_tokens_name (m : Model) : (tokens .name m).length = m.exports.length + m.functions.countP fun f => f.name.isSome := by
  have hnamed : ∀ fs : List FunctionView, (fs.map fun f => if f.name.isSome then 1 else 0).sum = fs.countP fun f => f.name.isSome := by
    intro fs
    induction fs with
    | nil => rfl
    | cons f fs ih => rw [List.map_cons, List.sum_cons, List.countP_cons, ih, Nat.add_comm]
  rw [length_tokens, count_pieces m (by decide)]
  simp [count_functionForm, hnamed]

/-- There is a type for each parameter and each result. -/
theorem length_tokens_type (m : Model) : (tokens .type m).length = (m.functions.map fun f => f.params.length + f.results.length).sum := by
  rw [length_tokens, count_pieces m (by decide)]
  simp [count_functionForm]

/-- The highlighted text is longer by the texts around each token. -/
theorem length_shown (k : Marks) (ps : List Piece) :
    (shown k.highlight ps).length = (shown {} ps).length + count .mnemonic ps * Marks.width k.mnemonic + count .name ps * Marks.width k.name +
      count .type ps * Marks.width k.type := by
  induction ps with
  | nil => simp [shown_nil, count]
  | cons p ps ih =>
    rw [shown_cons, shown_cons, String.length_append, String.length_append, ih, Marks.apply_highlight, Marks.length_around, apply_plain]
    simp only [count_cons, Nat.add_mul]
    obtain ⟨style, text⟩ := p
    cases style with
    | plain =>
      simp [Marks.of, Marks.width, Marks.texts]
      omega
    | mnemonic =>
      simp [Marks.of]
      omega
    | name =>
      simp [Marks.of]
      omega
    | type =>
      simp [Marks.of]
      omega

/-! ## What a highlight does -/

/-- Adds the highlighted text of a model to a buffer of any bytes, piece by piece. -/
def appendBytes (h : Highlight) (buffer : Bytes) (m : Model) : Bytes := (pieces m).foldl (fun bytes p => bytes ++ Text.utf8 (h.apply p)) buffer

theorem appendBytes_eq (h : Highlight) (buffer : Bytes) (m : Model) : appendBytes h buffer m = buffer ++ Text.utf8 (render h m) := by
  rw [render_eq]
  unfold appendBytes
  generalize pieces m = ps
  induction ps generalizing buffer with
  | nil => exact (List.append_nil _).symm
  | cons p ps ih => rw [List.foldl_cons, ih, shown_cons, Text.utf8_append, List.append_assoc]

/-- Deleting the characters of the marks from the highlighted text leaves the plain text, if this has none of them. -/
theorem filter_render_highlight {k : Marks} {m : Model} (h : ∀ c ∈ k.characters, c ∉ (text m).toList) :
    String.ofList ((render k.highlight m).toList.filter (· ∉ k.characters)) = text m := by
  rw [← String.toList_inj, String.toList_ofList, text, render_eq, render_eq, toList_shown, toList_shown, List.filter_flatMap]
  refine List.flatMap_congr fun p hp => ?_
  rw [apply_plain]
  refine Marks.filter_apply_highlight fun c hc hmark => h c hmark ?_
  rw [text, render_eq, toList_shown]
  exact List.mem_flatMap.mpr ⟨p, hp, by rwa [apply_plain]⟩

end SExpr

open SExpr in
/-- Whatever the model, a highlight only decorates. What is in the buffer stays in front, also if it is no text. Marks can be deleted again, if
the plain text has none of their characters. There is a mnemonic for each function and each instruction, a name for each export and each
function that has one, and a type for each parameter and each result; these are marked, and nothing else makes the text longer. Without a
highlight the line of an instruction is its text in parentheses. -/
theorem highlight_decorates (m : Model) :
    (∀ h buffer, append h buffer m = buffer ++ append h "" m) ∧
    (∀ h buffer, appendBytes h buffer m = buffer ++ Text.utf8 (append h "" m)) ∧
    (∀ k : Marks, (∀ c ∈ k.characters, c ∉ (text m).toList) →
      String.ofList ((append k.highlight "" m).toList.filter (· ∉ k.characters)) = text m) ∧
    (tokens .mnemonic m).length = m.functions.length + (m.functions.map fun f => f.code.length).sum ∧
    (tokens .name m).length = m.exports.length + m.functions.countP (fun f => f.name.isSome) ∧
    (tokens .type m).length = (m.functions.map fun f => f.params.length + f.results.length).sum ∧
    (∀ k : Marks, (append k.highlight "" m).length = (text m).length + (tokens .mnemonic m).length * Marks.width k.mnemonic +
      (tokens .name m).length * Marks.width k.name + (tokens .type m).length * Marks.width k.type) ∧
    text m = "(module" ++ String.join (m.exports.map exportText) ++
      String.join (m.functions.map fun f => functionHead f ++ String.join (f.code.map fun x => "\n    (" ++ x.text ++ ")") ++ ")") ++ ")\n" := by
  refine ⟨fun h buffer => ?_, fun h buffer => appendBytes_eq h buffer m, fun k => filter_render_highlight, length_tokens_mnemonic m,
    length_tokens_name m, length_tokens_type m, fun k => ?_, text_eq m⟩
  · rw [append_eq, append_eq, String.empty_append]
  · rw [length_tokens, length_tokens, length_tokens, append_eq, String.empty_append, text, render_eq]
    exact length_shown k (pieces m)

/-- Brackets around mnemonics and a star after names, in the text of an exported function with a parameter and an instruction. -/
theorem highlight_decorates_brackets :
    let m : Model := ⟨1, [⟨0, "f", .function⟩], [⟨some "$f", [⟨0x7f⟩], [], false, [⟨⟨0x01⟩, none⟩]⟩]⟩
    let k : SExpr.Marks := ⟨some ("[", "]"), some ("", "*"), none⟩
    (∀ c ∈ k.characters, c ∉ (SExpr.text m).toList) ∧
      SExpr.append k.highlight "" m = "(module\n  (export \"f\" (Function $f*))\n  ([func] $f* (param i32)\n    ([nop])))\n" ∧
      String.ofList ((SExpr.append k.highlight "" m).toList.filter (· ∉ k.characters)) = SExpr.text m := by
  intro m k
  have hall : (k.characters.all fun c => !(SExpr.text m).toList.contains c) = true := by decide +kernel
  have hfree : ∀ c ∈ k.characters, c ∉ (SExpr.text m).toList := by
    intro c hc
    simpa using List.all_eq_true.mp hall c hc
  exact ⟨hfree, by decide +kernel, (highlight_decorates m).2.2.1 k hfree⟩

end WasmInspect
