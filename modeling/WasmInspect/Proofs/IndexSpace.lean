import Mathlib.Algebra.Order.BigOperators.Group.List
import WasmInspect.Proofs.Agreement

/-!
# The function index space

The indexed view of a module lists its functions by their indices: first those that are imported, in the order of the imports among which they
stand, then those that are defined. An index is a number of 32 bits, and a module that was read from fewer bytes than there are such numbers has
fewer functions than these, so each place in the list is an index.
-/

namespace WasmInspect

open Reader Grammar

/-! ## How many functions there are -/

namespace Encode

/-- The imports and the defined functions of a section take at least a byte each. -/
theorem length_entries_le (id : SectionId) (p : Payload) :
    (p.imports?.getD []).length + (p.functions?.getD []).length ≤ (sectionOf id (payload p)).length := by
  have hlist : ∀ {α : Type} {entry : α → Bytes} (xs : List α), (∀ x, 0 < (entry x).length) → xs.length ≤ (list entry xs).length := by
    intro α entry xs h
    have hle := length_le_flatMap h xs
    rw [list, List.length_append]
    omega
  have hsection : (payload p).length ≤ (sectionOf id (payload p)).length := by
    rw [sectionOf, sized, List.length_cons, List.length_append]
    omega
  refine Nat.le_trans ?_ hsection
  cases p with
  | imports entries =>
    refine hlist entries fun i => ?_
    rw [importEntry, List.length_append, List.length_cons]
    omega
  | functions types =>
    simp only [Payload.imports?, Payload.functions?, Option.getD_none, Option.getD_some, List.length_nil, Nat.zero_add]
    exact hlist types fun n => Leb128.length_encodeUnsigned_pos n.toNat
  | _ => exact Nat.zero_le _

end Encode

/-- The entries of the first section of an id are among those of all sections. -/
theorem Module.length_entries_le_sum {α : Type} (m : Module) (id : SectionId) (view : Payload → Option (List α)) :
    (m.entries id view).length ≤ (m.sections.map fun s => ((view s.payload).getD []).length).sum := by
  unfold Module.entries
  cases hs : m.find? id with
  | none => exact Nat.zero_le _
  | some s =>
    refine List.single_le_sum (fun _ _ => Nat.zero_le _) _ ?_
    exact List.mem_map.mpr ⟨s, List.mem_of_find?_eq_some hs, rfl⟩

/-- A module does not have more functions than bytes. -/
theorem Module.length_functions_le {b : Bytes} {m : Module} (h : (decode b).result = .ok m) :
    (m.entries .imports Payload.imports?).length + (m.entries .functions Payload.functions?).length ≤ b.length := by
  obtain ⟨_, _, i, j, hi, hss⟩ := gives_sections_of_decode h
  have hbytes : (Encode.sections m.sections).length ≤ b.length := Nat.le_trans (length_sections_le hss).2 (by omega)
  calc (m.entries .imports Payload.imports?).length + (m.entries .functions Payload.functions?).length
      ≤ (m.sections.map fun s => (s.payload.imports?.getD []).length).sum + (m.sections.map fun s => (s.payload.functions?.getD []).length).sum :=
        Nat.add_le_add (m.length_entries_le_sum _ _) (m.length_entries_le_sum _ _)
    _ = (m.sections.map fun s => (s.payload.imports?.getD []).length + (s.payload.functions?.getD []).length).sum :=
        List.sum_map_add.symm
    _ ≤ (m.sections.map fun s => (Encode.sectionOf s.id (Encode.payload s.payload)).length).sum :=
        List.sum_le_sum fun s _ => Encode.length_entries_le s.id s.payload
    _ = (Encode.sections m.sections).length := List.length_flatMap.symm
    _ ≤ b.length := hbytes

/-! ## What a function of the view is -/

/-- The imports of functions, in order. -/
def Module.functionImports (m : Module) : List Import := (m.entries .imports Payload.imports?).filter fun i => i.kind = .function

/-- The export is one of the function with index `k`. -/
def Export.OfFunction (e : Export) (k : Nat) : Prop := e.kind = .function ∧ e.index.toNat = k

namespace FunctionView

/-- The function has the type of an index, or an empty one if there is no such type. -/
structure HasType (f : FunctionView) (types : List FuncType) (index : UInt32) : Prop where
  inside : ∀ t, types[index.toNat]? = some t → f.type = t
  outside : types.length ≤ index.toNat → f.type = ⟨[], []⟩

/-- The function has the code of the body at a place, or none if there is no such body. -/
structure HasCode (f : FunctionView) (bodies : List FuncBody) (n : Nat) : Prop where
  inside : ∀ body, bodies[n]? = some body → f.code = body.code
  outside : bodies.length ≤ n → f.code = []

/-- The function is named for the first export of the function with index `k`, and has no name if there is none. -/
structure NamedAmong (f : FunctionView) (exports : List Export) (k : Nat) : Prop where
  first : ∀ before e after, exports = before ++ e :: after → e.OfFunction k → (∀ e' ∈ before, ¬e'.OfFunction k) →
    f.name = some ("$" ++ e.field)
  unnamed_iff : f.name = none ↔ ∀ e ∈ exports, ¬e.OfFunction k

end FunctionView

/-- The model lists the functions of a module by index: the imported ones, then the defined ones, with their types, code and names. -/
structure Model.ListsFunctions (model : Model) (m : Module) : Prop where
  length_eq : model.functions.length = m.functionImports.length + (m.entries .functions Payload.functions?).length
  imported : ∀ (k : Nat) (i : Import), m.functionImports[k]? = some i → ∃ (t : UInt32) (f : FunctionView),
    i.type = .function t ∧ model.functions[k]? = some f ∧ f.isImported = true ∧ f.code = [] ∧ f.HasType (m.entries .types Payload.types?) t
  defined : ∀ (j : Nat) (t : UInt32), (m.entries .functions Payload.functions?)[j]? = some t → ∃ f : FunctionView,
    model.functions[m.functionImports.length + j]? = some f ∧ f.isImported = false ∧ f.HasType (m.entries .types Payload.types?) t ∧
      f.HasCode (m.entries .code Payload.code?) j
  named : ∀ (k : Nat) (f : FunctionView), model.functions[k]? = some f → f.NamedAmong (m.entries .exports Payload.exports?) k
  exports_eq : model.exports = (m.entries .exports Payload.exports?).map fun e => ⟨e.index, e.field, e.kind⟩

/-! ## Types, code and names -/

/-- An import is one of a function exactly when what is imported is a function. -/
theorem Import.WellFormed.kind_eq_function_iff {i : Import} (h : i.WellFormed) : i.kind = .function ↔ ∃ t, i.type = .function t := by
  rw [h.kind]
  cases i.type with
  | function t => simp [ImportType.kind]
  | table t => simp [ImportType.kind, ExternalKind.table, ExternalKind.function]
  | memory t => simp [ImportType.kind, ExternalKind.memory, ExternalKind.function]
  | global t => simp [ImportType.kind, ExternalKind.global, ExternalKind.function]

/-- The imports of a well-formed module are well-formed. -/
theorem Module.WellFormed.imports {m : Module} (h : m.WellFormed) : ∀ i ∈ m.entries .imports Payload.imports?, i.WellFormed :=
  h.forall_mem_entries fun _ _ hview ha => ha.imports hview

/-- The types of imported functions, one for each import of a function. -/
theorem Module.WellFormed.importedTypes_eq {m : Module} (h : m.WellFormed) :
    (m.entries .imports Payload.imports?).filterMap (fun i => i.type.function?) =
      m.functionImports.map fun i => i.type.function?.getD 0 := by
  have hall := h.imports
  unfold Module.functionImports
  generalize m.entries .imports Payload.imports? = imports at *
  induction imports with
  | nil => rfl
  | cons i imports ih =>
    obtain ⟨hi, hrest⟩ := List.forall_mem_cons.mp hall
    by_cases hkind : i.kind = .function
    · obtain ⟨t, ht⟩ := hi.kind_eq_function_iff.mp hkind
      have hsome : i.type.function? = some t := by rw [ht]; rfl
      simp [hkind, hsome, ih hrest]
    · have hnone : i.type.function? = none := by
        cases htype : i.type with
        | function t => exact absurd (hi.kind_eq_function_iff.mpr ⟨t, htype⟩) hkind
        | _ => rfl
      simp [hkind, hnone, ih hrest]

/-- The name of the function with an index, by the number that the index stands for. -/
theorem Model.functionName_eq (exports : List Export) {k : Nat} (hk : k < UInt32.size) :
    functionName (exportsOf exports) (.ofNat k) =
      (exports.find? fun e => e.kind = .function && e.index.toNat = k).map fun e => "$" ++ e.field := by
  have hindex : ∀ e : Export, e.index = .ofNat k ↔ e.index.toNat = k := by
    intro e
    rw [← UInt32.toNat_inj, UInt32.toNat_ofNat_of_lt' hk]
  rw [functionName, exportsOf, List.find?_map, Option.map_map]
  simp only [Function.comp_def, hindex]
  rfl

namespace FunctionView

variable {f : FunctionView}

theorem hasType_of_eq {types : List FuncType} {index : UInt32} (h : f.type = types[index.toNat]?.getD ⟨[], []⟩) : f.HasType types index where
  inside t ht := by rw [h, ht, Option.getD_some]
  outside hle := by rw [h, List.getElem?_eq_none hle, Option.getD_none]

theorem hasCode_of_eq {bodies : List FuncBody} {n : Nat} (h : f.code = (bodies[n]?.map FuncBody.code).getD []) : f.HasCode bodies n where
  inside body hbody := by rw [h, hbody, Option.map_some, Option.getD_some]
  outside hle := by rw [h, List.getElem?_eq_none hle, Option.map_none, Option.getD_none]

/-- A search of the exports names a function. -/
theorem namedAmong_of_eq {exports : List Export} {k : Nat} (hk : k < UInt32.size)
    (h : f.name = Model.functionName (Model.exportsOf exports) (.ofNat k)) : f.NamedAmong exports k := by
  rw [Model.functionName_eq exports hk] at h
  have hof : ∀ e : Export, (e.kind = .function && e.index.toNat = k : Bool) = true ↔ e.OfFunction k := by simp [Export.OfFunction]
  refine ⟨fun before e after hexports he hbefore => ?_, ?_⟩
  · have hfind : (exports.find? fun e => e.kind = .function && e.index.toNat = k) = some e := by
      refine List.find?_eq_some_iff_append.mpr ⟨(hof e).mpr he, before, after, hexports, fun e' he' => ?_⟩
      rw [Bool.not_eq_true', ← Bool.not_eq_true, hof]
      exact hbefore e' he'
    rw [h, hfind, Option.map_some]
  · rw [h, Option.map_eq_none_iff, List.find?_eq_none]
    simp only [hof]

end FunctionView

/-! ## The functions of the indexed view -/

namespace Model

variable {m : Module} {model : Model}

theorem length_functions_indexed (h : m.WellFormed) (hmodel : indexed m = .ok model) :
    model.functions.length = m.functionImports.length + (m.entries .functions Payload.functions?).length := by
  rw [indexed_eq h] at hmodel
  obtain rfl := Except.ok.inj hmodel
  simp [h.importedTypes_eq]

/-- The function at the place of an import. -/
theorem getElem?_functions_of_import (h : m.WellFormed) (hmodel : indexed m = .ok model) {k : Nat} {i : Import} {f : FunctionView}
    (hi : m.functionImports[k]? = some i) (hf : model.functions[k]? = some f) :
    f.name = functionName (exportsOf (m.entries .exports Payload.exports?)) (.ofNat k) ∧ f.isImported = true ∧ f.code = [] ∧
      ∃ t, i.type = .function t ∧ f.type = (m.entries .types Payload.types?)[t.toNat]?.getD ⟨[], []⟩ := by
  obtain ⟨hmem, hkind⟩ := List.mem_filter.mp (List.mem_of_getElem? hi)
  obtain ⟨t, ht⟩ := (h.imports i hmem).kind_eq_function_iff.mp (of_decide_eq_true hkind)
  have hsome : i.type.function? = some t := by rw [ht]; rfl
  obtain ⟨hlt, _⟩ := List.getElem?_eq_some_iff.mp hi
  rw [indexed_eq h, h.importedTypes_eq] at hmodel
  obtain rfl := Except.ok.inj hmodel
  rw [List.getElem?_append_left (by simpa using hlt), List.getElem?_map, List.getElem?_zipIdx, List.getElem?_map, hi] at hf
  simp only [Option.map_some, hsome, Option.getD_some, Nat.zero_add, Option.some.injEq] at hf
  subst hf
  exact ⟨rfl, rfl, rfl, t, ht, rfl⟩

/-- The function at the place of an entry of the functions section, which comes after those of the imports. -/
theorem getElem?_functions_of_entry (h : m.WellFormed) (hmodel : indexed m = .ok model) {j : Nat} {t : UInt32} {f : FunctionView}
    (ht : (m.entries .functions Payload.functions?)[j]? = some t) (hf : model.functions[m.functionImports.length + j]? = some f) :
    f.name = functionName (exportsOf (m.entries .exports Payload.exports?)) (.ofNat (m.functionImports.length + j)) ∧
      f.isImported = false ∧ f.code = ((m.entries .code Payload.code?)[j]?.map FuncBody.code).getD [] ∧
      f.type = (m.entries .types Payload.types?)[t.toNat]?.getD ⟨[], []⟩ := by
  rw [indexed_eq h, h.importedTypes_eq] at hmodel
  obtain rfl := Except.ok.inj hmodel
  rw [List.getElem?_append_right (by simp), List.getElem?_map, List.getElem?_zipIdx] at hf
  simp only [List.length_map, List.length_zipIdx, Nat.add_sub_cancel_left, ht, Option.map_some, Nat.zero_add, Option.some.injEq] at hf
  subst hf
  exact ⟨rfl, rfl, rfl, rfl⟩

/-- The index for which a function is named is the place at which it stands. -/
theorem name_of_getElem?_functions (h : m.WellFormed) (hmodel : indexed m = .ok model) {k : Nat} {f : FunctionView}
    (hf : model.functions[k]? = some f) : f.name = functionName (exportsOf (m.entries .exports Payload.exports?)) (.ofNat k) := by
  have hk : k < model.functions.length := (List.getElem?_eq_some_iff.mp hf).1
  rw [length_functions_indexed h hmodel] at hk
  rcases Nat.lt_or_ge k m.functionImports.length with hlt | hge
  · exact (getElem?_functions_of_import h hmodel (List.getElem?_eq_getElem hlt) hf).1
  · obtain ⟨j, rfl⟩ := Nat.exists_eq_add_of_le hge
    exact (getElem?_functions_of_entry h hmodel (List.getElem?_eq_getElem (show j < _ by omega)) hf).1

end Model

/-- A module that was read from fewer bytes than there are indices has an indexed view, and this lists its functions by index: each one at the
place that is its index has the type, the code and the name that the sections give for it. -/
theorem indexed_lists_functions {b : Bytes} {m : Module} (hlen : b.length < 2 ^ 32) (h : (decode b).result = .ok m) :
    ∃ model, Model.indexed m = .ok model ∧ model.ListsFunctions m := by
  have hwf := wellFormed_of_decode h
  have hmodel := Model.indexed_eq hwf
  have hlength := Model.length_functions_indexed hwf hmodel
  refine ⟨_, hmodel, ⟨hlength, ?_, ?_, ?_, rfl⟩⟩
  · intro k i hi
    have hk := (List.getElem?_eq_some_iff.mp hi).1
    have hf := List.getElem?_eq_getElem (Nat.lt_of_lt_of_le hk (hlength ▸ Nat.le_add_right _ _))
    obtain ⟨_, himported, hcode, t, ht, htype⟩ := Model.getElem?_functions_of_import hwf hmodel hi hf
    exact ⟨t, _, ht, hf, himported, hcode, FunctionView.hasType_of_eq htype⟩
  · intro j t ht
    have hj := (List.getElem?_eq_some_iff.mp ht).1
    have hf := List.getElem?_eq_getElem (Nat.lt_of_lt_of_eq (Nat.add_lt_add_left hj _) hlength.symm)
    obtain ⟨_, himported, hcode, htype⟩ := Model.getElem?_functions_of_entry hwf hmodel ht hf
    exact ⟨_, hf, himported, FunctionView.hasType_of_eq htype, FunctionView.hasCode_of_eq hcode⟩
  · intro k f hf
    -- each place is an index: there are not more functions than bytes
    have hk := (List.getElem?_eq_some_iff.mp hf).1
    rw [hlength] at hk
    have hfilter : m.functionImports.length ≤ (m.entries .imports Payload.imports?).length := List.length_filter_le _ _
    have hbytes := Module.length_functions_le h
    exact FunctionView.namedAmong_of_eq (show k < 2 ^ 32 by omega) (Model.name_of_getElem?_functions hwf hmodel hf)

/-- A memory is imported before the functions, one of which has a type that does not exist, and there is no body for the second defined function.
The first defined function, with the index 2, is exported twice, first under an empty name. -/
theorem indexed_lists_functions_after_memory :
    let b := Module.header ++ [1, 9, 2, 0x60, 1, 0x7f, 0, 0x60, 0, 1, 0x7f] ++
      [2, 20, 3, 1, 0x6d, 1, 0x67, 2, 0, 1, 1, 0x6d, 1, 0x66, 0, 1, 1, 0x6d, 1, 0x68, 0, 7] ++ [3, 3, 2, 0, 1] ++
      [7, 16, 4, 1, 0x6d, 2, 0, 0, 0, 2, 1, 0x61, 0, 2, 1, 0x62, 0, 1] ++ [10, 5, 1, 3, 0, 0x01, 0x0b]
    let m := Module.ofSections [⟨.types, 9, 9, .types [⟨[⟨0x7f⟩], []⟩, ⟨[], [⟨0x7f⟩]⟩]⟩,
      ⟨.imports, 20, 20, .imports [⟨"m", "g", .memory, .memory ⟨⟨0, 1, -1⟩⟩⟩, ⟨"m", "f", .function, .function 1⟩,
        ⟨"m", "h", .function, .function 7⟩]⟩,
      ⟨.functions, 3, 3, .functions [0, 1]⟩,
      ⟨.exports, 16, 16, .exports [⟨"m", .memory, 0⟩, ⟨"", .function, 2⟩, ⟨"a", .function, 2⟩, ⟨"b", .function, 1⟩]⟩,
      ⟨.code, 5, 5, .code [⟨3, [], [⟨⟨0x01⟩, none⟩]⟩]⟩]
    let model : Model := ⟨1, [⟨0, "m", .memory⟩, ⟨2, "", .function⟩, ⟨2, "a", .function⟩, ⟨1, "b", .function⟩],
      [⟨none, [], [⟨0x7f⟩], true, []⟩, ⟨some "$b", [], [], true, []⟩, ⟨some "$", [⟨0x7f⟩], [], false, [⟨⟨0x01⟩, none⟩]⟩,
        ⟨none, [], [⟨0x7f⟩], false, []⟩]⟩
    b.length < 2 ^ 32 ∧ (decode b).result = .ok m ∧ Model.indexed m = .ok model ∧ model.ListsFunctions m := by
  intro b m model
  have hlen : b.length < 2 ^ 32 := by decide
  have hdecode : (decode b).result = .ok m := by decide +kernel
  have hmodel : Model.indexed m = .ok model := by decide +kernel
  obtain ⟨model', hmodel', hlists⟩ := indexed_lists_functions hlen hdecode
  obtain rfl : model = model' := Except.ok.inj (hmodel.symm.trans hmodel')
  exact ⟨hlen, hdecode, hmodel, hlists⟩

end WasmInspect
