import WasmInspect.Proofs.RoundTrip
import WasmInspect.Proofs.Views
import WasmInspect.SExpr

/-!
# No step without a meaning

From bytes to text there is no fault. Reading takes bytes only where there are some, cuts the input only inside of it, and does not run out
of rounds in a loop; a module that was read is well-formed, so each section holds what its id stands for; and what is looked up is there.

The text of a model is made without steps that could fail, since an operand has one of ten forms. The same text is made here in steps of
which one could: `Operand.textOf` is asked for the text of an operand that may be missing. It is asked only where there is an operand,
so the steps never fail, and they come to the same text.
-/

namespace WasmInspect

/-! ## The text in steps -/

/-- The text of what stands in the place of an operand. Where nothing stands there it is a fault. -/
def Operand.textOf : Option Operand → Except Fault String
  | some o => .ok o.text
  | none => .error .operand

namespace Instruction

/-- What stands after the mnemonic, in steps. -/
def tailSteps (x : Instruction) : Except Fault String := do
  if x.operand = none then pure ""
  else
    let t ← Operand.textOf x.operand
    pure (" " ++ t)

/-- The text of an instruction, in steps. -/
def textSteps (x : Instruction) : Except Fault String := do
  let t ← x.tailSteps
  pure (x.op.name ++ t)

theorem tailSteps_eq (x : Instruction) : x.tailSteps = .ok x.tail := by
  obtain ⟨op, o⟩ := x
  cases o <;> rfl

theorem textSteps_eq (x : Instruction) : x.textSteps = .ok x.text := by
  rw [textSteps, tailSteps_eq]
  rfl

end Instruction

namespace SExpr

/-- The form of an instruction, in steps. -/
def instructionSteps (x : Instruction) : Except Fault (List Piece) := do
  let t ← x.tailSteps
  pure [plain "\n    (", ⟨.mnemonic, x.op.name⟩, plain t, plain ")"]

/-- The form of a function, in steps. -/
def functionSteps (f : FunctionView) : Except Fault (List Piece) := do
  let code ← f.code.mapM instructionSteps
  pure (plain "\n  (" :: ⟨.mnemonic, "func"⟩ :: nameGroup f.name ++ typeGroup "param" f.params ++ typeGroup "result" f.results ++
    code.flatten ++ [plain ")"])

/-- Adds the highlighted text of a model to a buffer, in steps. -/
def appendSteps (h : Highlight) (buffer : String) (m : Model) : Except Fault String := do
  let functions ← m.functions.mapM functionSteps
  let pieces := plain "(module" :: m.exports.flatMap exportForm ++ functions.flatten ++ [plain ")\n"]
  pure (pieces.foldl (fun text p => text ++ h.apply p) buffer)

theorem instructionSteps_eq (x : Instruction) : instructionSteps x = .ok (instructionForm x) := by
  rw [instructionSteps, x.tailSteps_eq]
  rfl

theorem functionSteps_eq (f : FunctionView) : functionSteps f = .ok (functionForm f) := by
  rw [functionSteps, mapM_eq_ok_map instructionSteps_eq, functionForm, List.flatMap_def]
  rfl

/-- No step of a model's text fails, whatever the model and the highlight, and the steps come to its text. -/
theorem appendSteps_eq (h : Highlight) (buffer : String) (m : Model) : appendSteps h buffer m = .ok (append h buffer m) := by
  rw [appendSteps, mapM_eq_ok_map functionSteps_eq, append, pieces, List.flatMap_def (l := m.functions)]
  rfl

end SExpr

/-! ## Reading -/

open Reader Grammar

/-- A module is read further on as here. -/
theorem Grammar.moves_module {k : Nat} : Moves k module module := by
  refine Moves.bind (Moves.located (moves_uint32.orElseFail rfl)) fun magic => ?_
  refine Moves.bind (Moves.located (Moves.ensure _ rfl)) fun _ => ?_
  refine Moves.bind (Moves.located (moves_uint32.within rfl)) fun version => ?_
  refine Moves.bind (Moves.located (Moves.ensure _ rfl)) fun _ => ?_
  exact Moves.bind moves_sections fun s => Moves.pure _

/-- Reading a module below the bound is without a fault. -/
theorem decode_ne_fault {b : Bytes} (hlen : b.length < lengthBound) (f : Fault) : (decode b).result ≠ .error (.fault f) := by
  intro h
  have hstop : Input.stop ⟨0, b⟩ + 0 < lengthBound := by
    simp only [Input.stop]
    omega
  have hvalue : (module .checked ⟨0, b⟩).value = .error (.fault f) := h
  cases hr : (module .checked ⟨0, b⟩).result with
  | ok v => simp [Outcome.value, hr, Except.map, mapError_ok] at hvalue
  | error x =>
    obtain ⟨e, pos⟩ := x
    simp only [Outcome.value, hr, Except.map, mapError_error, Except.error.injEq] at hvalue
    rw [hvalue] at hr
    exact (moves_module (k := 0) .checked ⟨0, b⟩ hstop).noFault f pos hr

/-- What was read is well-formed. -/
theorem wellFormed_of_decode {b : Bytes} {m : Module} (h : (decode b).result = .ok m) : m.WellFormed := by
  obtain ⟨hmagic, hversion, i, j, _, hss⟩ := gives_sections_of_decode h
  exact ⟨hmagic, hversion, fun s hs => ((length_sections_le hss).1 s hs).1⟩

/-- A comparison is without a fault, whatever the engine sees. -/
theorem Agreement.runWith_ne_fault {b : Bytes} (hlen : b.length < lengthBound) (typeName : ValueType → String)
    (view? : Bytes → Option (List (String × Engine.Signature))) (f : Fault) :
    Agreement.runWith typeName view? b ≠ .error (.unreadable (.fault f)) := by
  unfold Agreement.runWith
  cases hd : (decode b).result with
  | error e =>
    cases e with
    | fault f' => exact absurd hd (decode_ne_fault hlen f')
    | error e =>
      intro h
      cases h
  | ok m =>
    obtain ⟨model, hmodel⟩ : ∃ model, Model.indexed m = .ok model := ⟨_, Model.indexed_eq (wellFormed_of_decode hd)⟩
    show Agreement.reportWith typeName (view? b) m ≠ _
    unfold Agreement.reportWith
    simp only [hmodel, mapError_ok, Bind.bind, Except.bind]
    cases view? b with
    | none =>
      intro h
      cases h
    | some theirs =>
      simp only [Agreement.compareNaming_eq, mapError_ok]
      intro h
      cases h

/-- From bytes to text there is no fault: none in reading, whatever the bytes, and if a module was read, then none in its two models,
in their texts with whatever highlight, in the text of an instruction, or in a comparison with whatever an engine says of its
functions and whatever names it has for their types. -/
theorem decode_views_without_fault {b : Bytes} (hlen : b.length < lengthBound) :
    (∀ f, (decode b).result ≠ .error (.fault f)) ∧
    (∀ typeName view? f, Agreement.runWith typeName view? b ≠ .error (.unreadable (.fault f))) ∧
    ∀ m, (decode b).result = .ok m →
      ∃ positional indexed, Model.positional m = .ok positional ∧ Model.indexed m = .ok indexed ∧
        (∀ model ∈ [positional, indexed], ∀ h buffer, SExpr.appendSteps h buffer model = .ok (SExpr.append h buffer model)) ∧
        (∀ x : Instruction, x.textSteps = .ok x.text) ∧
        ∀ typeName theirs, ∃ mismatches, Agreement.compareNaming typeName indexed theirs = .ok mismatches := by
  refine ⟨decode_ne_fault hlen, Agreement.runWith_ne_fault hlen, ?_⟩
  intro m hm
  have hwf := wellFormed_of_decode hm
  refine ⟨_, _, Model.positional_eq hwf, Model.indexed_eq hwf, ?_, Instruction.textSteps_eq, ?_⟩
  · intro model _ h buffer
    exact SExpr.appendSteps_eq h buffer model
  · intro typeName theirs
    exact ⟨_, Agreement.compareNaming_eq typeName _ theirs⟩

/-- A function of a type that does not exist and without a body, and an export of a function that does not exist. -/
theorem decode_views_without_fault_dangling_indices :
    let m := Module.ofSections [⟨.functions, 2, 2, .functions [5]⟩, ⟨.exports, 5, 5, .exports [⟨"a", .function, 9⟩]⟩]
    (decode (Module.header ++ [3, 2, 1, 5, 7, 5, 1, 1, 0x61, 0, 9])).result = .ok m ∧
      ∃ indexed, Model.indexed m = .ok indexed ∧
        ∀ typeName theirs, ∃ mismatches, Agreement.compareNaming typeName indexed theirs = .ok mismatches := by
  refine ⟨rfl, ?_⟩
  have hlen : (Module.header ++ [3, 2, 1, 5, 7, 5, 1, 1, 0x61, 0, 9]).length < lengthBound := by decide
  obtain ⟨_, indexed, _, hindexed, _, _, hcompare⟩ := (decode_views_without_fault hlen).2.2 _ rfl
  exact ⟨indexed, hindexed, hcompare⟩

end WasmInspect
