import WasmInspect.Agreement
import WasmInspect.Proofs.WellFormed

/-!
# The views of a well-formed module

A view takes entries out of sections and looks types and bodies up. In a well-formed module the payload of each section is the one that
its id stands for, and a lookup stands behind a check that there are so many entries, so no step of it is a fault. What is left is
said here without the steps that could fail: `Module.entries` are the entries of the first section of an id, `Model.positional_eq` and
`Model.indexed_eq` give the two views, and `Agreement.compareNaming_eq` what comes of comparing a view with that of an engine.
-/

namespace WasmInspect

/-! ## Looking entries up -/

section

variable {α β ε : Type}

/-- A list of steps that all succeed gives the list of their values. -/
theorem mapM_eq_ok_map {f : α → Except ε β} {g : α → β} (h : ∀ x, f x = .ok (g x)) (xs : List α) :
    xs.mapM f = .ok (xs.map g) := by
  have hf : f = fun x => pure (g x) := funext h
  rw [hf, List.mapM_pure]
  rfl

theorem entryAt_eq_ok {xs : List α} {n : Nat} {x : α} (h : xs[n]? = some x) : entryAt xs n = .ok x := by
  rw [entryAt, h]

end

namespace Model

/-- The code at a place is that of the body there, or none. -/
theorem codeAt_eq (bodies : List FuncBody) (n : Nat) :
    codeAt bodies n = .ok ((bodies[n]?.map FuncBody.code).getD []) := by
  unfold codeAt
  by_cases hn : bodies.length ≤ n
  · rw [if_pos hn, List.getElem?_eq_none hn]
    rfl
  · have hsome : bodies[n]? = some bodies[n] := List.getElem?_eq_getElem (by omega)
    rw [if_neg hn, entryAt_eq_ok hsome, hsome]
    rfl

/-- The type of an index is the one there, or the one without parameters and results. -/
theorem typeAt_eq (types : List FuncType) (index : UInt32) :
    typeAt types index = .ok (types[index.toNat]?.getD ⟨[], []⟩) := by
  unfold typeAt
  by_cases hn : types.length ≤ index.toNat
  · rw [if_pos hn, List.getElem?_eq_none hn]
    rfl
  · have hsome : types[index.toNat]? = some types[index.toNat] := List.getElem?_eq_getElem (by omega)
    rw [if_neg hn, entryAt_eq_ok hsome, hsome]
    rfl

end Model

/-! ## The entries of a section -/

/-- The entries of the first section of an id; none, if there is no such section. -/
def Module.entries {α : Type} (m : Module) (id : SectionId) (view : Payload → Option (List α)) : List α :=
  ((m.find? id).bind fun s => view s.payload).getD []

/-- In a well-formed module the first section of an id holds what this id stands for. -/
theorem Module.WellFormed.id?_of_find? {m : Module} (h : m.WellFormed) {id : SectionId} (hid : id.isKnown = true) {s : Section}
    (hs : m.find? id = some s) : s.payload.id? = some id := by
  have hmem : s ∈ m.sections := List.mem_of_find?_eq_some hs
  have hfound := List.find?_some (p := fun s : Section => decide (s.id = id)) hs
  have heq : s.id = id := of_decide_eq_true hfound
  have hpayload := (h.sections s hmem).id?
  rwa [heq, if_pos hid] at hpayload

/-- A view of the payloads of an id finds the entries of the first section of that id, without a fault. -/
theorem Module.WellFormed.entriesOf_eq {α : Type} {m : Module} (h : m.WellFormed) {id : SectionId} (hid : id.isKnown = true)
    {view : Payload → Option (List α)} (hview : ∀ a, a.id? = some id → (view a).isSome) :
    entriesOf (m.find? id) view = .ok (m.entries id view) := by
  unfold entriesOf Module.entries
  cases hs : m.find? id with
  | none => rfl
  | some s =>
    obtain ⟨xs, hxs⟩ := Option.isSome_iff_exists.mp (hview s.payload (h.id?_of_find? hid hs))
    simp only [hxs, Option.bind_some, Option.getD_some]

/-- What all entries of a well-formed payload have, those of a well-formed module have. -/
theorem Module.WellFormed.forall_mem_entries {α : Type} {m : Module} (h : m.WellFormed) {id : SectionId} {view : Payload → Option (List α)}
    {P : α → Prop} (hview : ∀ a xs, view a = some xs → a.WellFormed → ∀ x ∈ xs, P x) : ∀ x ∈ m.entries id view, P x := by
  intro x hx
  unfold Module.entries at hx
  cases hs : m.find? id with
  | none => simp [hs] at hx
  | some s =>
    cases hxs : view s.payload with
    | none => simp [hs, hxs] at hx
    | some xs =>
      rw [hs, Option.bind_some, hxs, Option.getD_some] at hx
      exact hview s.payload xs hxs (h.sections s (List.mem_of_find?_eq_some hs)).payload x hx

namespace Payload

variable {a : Payload}

theorem isSome_types? (h : a.id? = some .types) : a.types?.isSome := by
  cases a <;> cases h
  rfl

theorem isSome_imports? (h : a.id? = some .imports) : a.imports?.isSome := by
  cases a <;> cases h
  rfl

theorem isSome_functions? (h : a.id? = some .functions) : a.functions?.isSome := by
  cases a <;> cases h
  rfl

theorem isSome_exports? (h : a.id? = some .exports) : a.exports?.isSome := by
  cases a <;> cases h
  rfl

theorem isSome_code? (h : a.id? = some .code) : a.code?.isSome := by
  cases a <;> cases h
  rfl

theorem WellFormed.types (h : a.WellFormed) {entries : List FuncType} (hview : a.types? = some entries) : ∀ t ∈ entries, t.WellFormed := by
  cases a <;> cases hview
  exact h

theorem WellFormed.imports (h : a.WellFormed) {entries : List Import} (hview : a.imports? = some entries) : ∀ i ∈ entries, i.WellFormed := by
  cases a <;> cases hview
  exact h

theorem WellFormed.code (h : a.WellFormed) {bodies : List FuncBody} (hview : a.code? = some bodies) : ∀ f ∈ bodies, f.WellFormed := by
  cases a <;> cases hview
  exact h

end Payload

/-! ## The two views -/

/-- The positional view has a function for each type. -/
theorem Model.positional_eq {m : Module} (h : m.WellFormed) :
    Model.positional m = .ok ⟨m.version, exportsOf (m.entries .exports Payload.exports?),
      (m.entries .types Payload.types?).zipIdx.map fun (t, n) =>
        ⟨functionName (exportsOf (m.entries .exports Payload.exports?)) (.ofNat n), t.params, t.results, false,
          ((m.entries .code Payload.code?)[n]?.map FuncBody.code).getD []⟩⟩ := by
  unfold Model.positional
  rw [h.entriesOf_eq rfl fun _ => Payload.isSome_exports?, h.entriesOf_eq rfl fun _ => Payload.isSome_types?,
    h.entriesOf_eq rfl fun _ => Payload.isSome_code?]
  simp only [Bind.bind, Except.bind, codeAt_eq, Pure.pure, Except.pure]
  rw [mapM_eq_ok_map fun _ => rfl]

/-- The indexed view has a function for each imported one and then for each defined one. -/
theorem Model.indexed_eq {m : Module} (h : m.WellFormed) :
    Model.indexed m = .ok ⟨m.version, exportsOf (m.entries .exports Payload.exports?),
      (((m.entries .imports Payload.imports?).filterMap fun i => i.type.function?).zipIdx.map fun (index, k) =>
        let t := (m.entries .types Payload.types?)[index.toNat]?.getD ⟨[], []⟩
        ⟨functionName (exportsOf (m.entries .exports Payload.exports?)) (.ofNat k), t.params, t.results, true, []⟩) ++
      ((m.entries .functions Payload.functions?).zipIdx.map fun (index, n) =>
        let t := (m.entries .types Payload.types?)[index.toNat]?.getD ⟨[], []⟩
        ⟨functionName (exportsOf (m.entries .exports Payload.exports?))
            (.ofNat (((m.entries .imports Payload.imports?).filterMap fun i => i.type.function?).length + n)),
          t.params, t.results, false, ((m.entries .code Payload.code?)[n]?.map FuncBody.code).getD []⟩)⟩ := by
  unfold Model.indexed
  rw [h.entriesOf_eq rfl fun _ => Payload.isSome_exports?, h.entriesOf_eq rfl fun _ => Payload.isSome_types?,
    h.entriesOf_eq rfl fun _ => Payload.isSome_imports?, h.entriesOf_eq rfl fun _ => Payload.isSome_functions?,
    h.entriesOf_eq rfl fun _ => Payload.isSome_code?]
  simp only [Bind.bind, Except.bind, codeAt_eq, typeAt_eq, Pure.pure, Except.pure]
  rw [mapM_eq_ok_map fun _ => rfl]
  simp only
  rw [mapM_eq_ok_map fun _ => rfl]

/-! ## Comparing a view with that of an engine -/

namespace Agreement

section

variable (typeName : ValueType → String)

/-- The mismatches of the signature of an exported function. -/
def signatureMismatches (functions : List FunctionView) (e : ExportView) (theirs : Engine.Signature) : List Mismatch :=
  match functions[e.index.toNat]? with
  | none => [⟨e.name, "function", "out of range", Text.decimal theirs.index.toNat⟩]
  | some f =>
    differing e.name "params" (typeNames typeName f.params) (typeNames typeName theirs.params) ++
      differing e.name "results" (typeNames typeName f.results) (typeNames typeName theirs.results)

/-- The mismatches of an export. -/
def exportMismatches (functions : List FunctionView) (theirs : List (String × Engine.Signature)) (e : ExportView) : List Mismatch :=
  if e.kind = .function then
    match theirs.lookup e.name with
    | none => [⟨e.name, "missing", "present", "absent"⟩]
    | some s =>
      differing e.name "index" (Text.decimal e.index.toNat) (Text.decimal s.index.toNat) ++ signatureMismatches typeName functions e s
  else []

theorem compareSignature_eq (functions : List FunctionView) (e : ExportView) (theirs : Engine.Signature) :
    compareSignature typeName functions e theirs = .ok (signatureMismatches typeName functions e theirs) := by
  unfold compareSignature signatureMismatches
  by_cases hn : functions.length ≤ e.index.toNat
  · rw [if_pos hn, List.getElem?_eq_none hn]
    rfl
  · have hsome : functions[e.index.toNat]? = some functions[e.index.toNat] := List.getElem?_eq_getElem (by omega)
    rw [if_neg hn, entryAt_eq_ok hsome, hsome]
    rfl

theorem compareExport_eq (functions : List FunctionView) (theirs : List (String × Engine.Signature)) (e : ExportView) :
    compareExport typeName functions theirs e = .ok (exportMismatches typeName functions theirs e) := by
  unfold compareExport exportMismatches
  by_cases hkind : e.kind = .function
  · rw [if_neg (not_not_intro hkind), if_pos hkind]
    cases theirs.lookup e.name with
    | none => rfl
    | some s =>
      simp only [compareSignature_eq]
      rfl
  · rw [if_pos hkind, if_neg hkind]
    rfl

/-- The mismatches of a model, in the order in which they are found: those of its exports, and then the functions that it does not export. -/
def mismatches (m : Model) (theirs : List (String × Engine.Signature)) : List Mismatch :=
  m.exports.flatMap (exportMismatches typeName m.functions theirs) ++ unknown m.exports theirs

/-- A comparison sorts the mismatches. -/
theorem compareNaming_eq (m : Model) (theirs : List (String × Engine.Signature)) :
    compareNaming typeName m theirs = .ok ((mismatches typeName m theirs).mergeSort Mismatch.le) := by
  unfold compareNaming mismatches
  rw [mapM_eq_ok_map (compareExport_eq typeName m.functions theirs), List.flatMap_def]
  rfl

end

end Agreement

end WasmInspect
