import WasmInspect.Proofs.IndexSpace

/-!
# Where the two views agree

The positional view takes each type for a function; the indexed view goes by the imports and the entries of the functions section. They are
the same view if no function is imported and the functions are of all the types in their order. Otherwise they may list different functions,
but still the same version and exports, and a function has the same name as the one at its place in the other view: a name belongs to a place.
-/

namespace WasmInspect

/-- No function is imported, and the functions have all the types, each once and in their order. -/
structure Module.OneFunctionPerType (m : Module) : Prop where
  no_import : ∀ i ∈ m.entries .imports Payload.imports?, i.kind ≠ .function
  types_in_order : (m.entries .functions Payload.functions?).map UInt32.toNat = List.range (m.entries .types Payload.types?).length

namespace Model

variable {m : Module} {model : Model} {k : Nat}

/-- The function at the place of a type. -/
theorem getElem?_functions_of_type (h : m.WellFormed) (hmodel : positional m = .ok model) :
    model.functions[k]? = (m.entries .types Payload.types?)[k]?.map fun t =>
      ⟨functionName (exportsOf (m.entries .exports Payload.exports?)) (.ofNat k), t.params, t.results, false,
        ((m.entries .code Payload.code?)[k]?.map FuncBody.code).getD []⟩ := by
  rw [positional_eq h] at hmodel
  obtain rfl := Except.ok.inj hmodel
  simp only [List.getElem?_map, List.getElem?_zipIdx, Option.map_map, Nat.zero_add]
  rfl

/-- In the positional view, too, the index for which a function is named is the place at which it stands. -/
theorem name_of_getElem?_positional (h : m.WellFormed) (hmodel : positional m = .ok model) {f : FunctionView}
    (hf : model.functions[k]? = some f) : f.name = functionName (exportsOf (m.entries .exports Payload.exports?)) (.ofNat k) := by
  rw [getElem?_functions_of_type h hmodel, Option.map_eq_some_iff] at hf
  obtain ⟨_, _, rfl⟩ := hf
  rfl

/-- Without an imported function, the function at the place of an entry of the functions section. -/
theorem getElem?_functions_of_no_import (h : m.WellFormed) (hnone : m.functionImports = []) (hmodel : indexed m = .ok model) :
    model.functions[k]? = (m.entries .functions Payload.functions?)[k]?.map fun index =>
      let t := (m.entries .types Payload.types?)[index.toNat]?.getD ⟨[], []⟩
      ⟨functionName (exportsOf (m.entries .exports Payload.exports?)) (.ofNat k), t.params, t.results, false,
        ((m.entries .code Payload.code?)[k]?.map FuncBody.code).getD []⟩ := by
  rw [indexed_eq h, h.importedTypes_eq, hnone] at hmodel
  obtain rfl := Except.ok.inj hmodel
  simp only [List.map_nil, List.zipIdx_nil, List.nil_append, List.length_nil, List.getElem?_map, List.getElem?_zipIdx, Option.map_map,
    Nat.zero_add]
  rfl

/-- The two views have the same functions if each type is that of one function. -/
theorem functions_eq_of_oneFunctionPerType {model' : Model} (h : m.WellFormed) (hone : m.OneFunctionPerType)
    (hmodel : positional m = .ok model) (hmodel' : indexed m = .ok model') : model.functions = model'.functions := by
  have hnone : m.functionImports = [] := List.filter_eq_nil_iff.mpr fun i hi => by simpa using hone.no_import i hi
  refine List.ext_getElem? fun k => ?_
  rw [getElem?_functions_of_type h hmodel, getElem?_functions_of_no_import h hnone hmodel']
  -- the entry at place `k` is `k` itself, so its type is the one at place `k`
  have hentry : (m.entries .functions Payload.functions?)[k]?.map UInt32.toNat = (List.range (m.entries .types Payload.types?).length)[k]? := by
    rw [← List.getElem?_map, hone.types_in_order]
  cases hindex : (m.entries .functions Payload.functions?)[k]? with
  | none =>
    rw [hindex, Option.map_none] at hentry
    have hle : (m.entries .types Payload.types?).length ≤ k := by simpa using hentry.symm
    rw [List.getElem?_eq_none hle]
    rfl
  | some index =>
    rw [hindex, Option.map_some] at hentry
    obtain ⟨hlt, hk⟩ := List.getElem?_eq_some_iff.mp hentry.symm
    rw [List.getElem_range] at hk
    rw [List.length_range] at hlt
    simp only [Option.map_some, ← hk, List.getElem?_eq_getElem hlt, Option.getD_some]

end Model

/-- Every module that was read has the two views. They show the same version and the same exports, and functions at one place have one name.
If each type is that of one function, then they are the same view, with one text. -/
theorem views_agree {b : Bytes} {m : Module} (h : (decode b).result = .ok m) :
    ∃ positional indexed, Model.positional m = .ok positional ∧ Model.indexed m = .ok indexed ∧
      positional.version = indexed.version ∧ positional.exports = indexed.exports ∧
      (∀ (k : Nat) (f g : FunctionView), positional.functions[k]? = some f → indexed.functions[k]? = some g → f.name = g.name) ∧
      (m.OneFunctionPerType → positional = indexed ∧ SExpr.text positional = SExpr.text indexed) := by
  have hwf := wellFormed_of_decode h
  have hpositional := Model.positional_eq hwf
  have hindexed := Model.indexed_eq hwf
  refine ⟨_, _, hpositional, hindexed, rfl, rfl, fun k f g hf hg => ?_, fun hone => ?_⟩
  · rw [Model.name_of_getElem?_positional hwf hpositional hf, Model.name_of_getElem?_functions hwf hindexed hg]
  · have hfunctions := Model.functions_eq_of_oneFunctionPerType hwf hone hpositional hindexed
    have hmodel := congrArg (Model.mk m.version (Model.exportsOf (m.entries .exports Payload.exports?))) hfunctions
    exact ⟨hmodel, congrArg SExpr.text hmodel⟩

/-- Two types and two functions of these types in order. A memory is imported; there is a body for the first function only; and a second types
section, with one type, counts for neither view. -/
theorem views_agree_second_types :
    let b := Module.header ++ [1, 9, 2, 0x60, 1, 0x7f, 0, 0x60, 0, 1, 0x7f] ++ [2, 8, 1, 1, 0x6d, 1, 0x67, 2, 0, 1] ++ [3, 3, 2, 0, 1] ++
      [7, 5, 1, 1, 0x61, 0, 1] ++ [10, 5, 1, 3, 0, 0x01, 0x0b] ++ [1, 4, 1, 0x60, 0, 0]
    let m := Module.ofSections [⟨.types, 9, 9, .types [⟨[⟨0x7f⟩], []⟩, ⟨[], [⟨0x7f⟩]⟩]⟩,
      ⟨.imports, 8, 8, .imports [⟨"m", "g", .memory, .memory ⟨⟨0, 1, -1⟩⟩⟩]⟩, ⟨.functions, 3, 3, .functions [0, 1]⟩,
      ⟨.exports, 5, 5, .exports [⟨"a", .function, 1⟩]⟩, ⟨.code, 5, 5, .code [⟨3, [], [⟨⟨0x01⟩, none⟩]⟩]⟩,
      ⟨.types, 4, 4, .types [⟨[], []⟩]⟩]
    let model : Model := ⟨1, [⟨1, "a", .function⟩],
      [⟨none, [⟨0x7f⟩], [], false, [⟨⟨0x01⟩, none⟩]⟩, ⟨some "$a", [], [⟨0x7f⟩], false, []⟩]⟩
    (decode b).result = .ok m ∧ m.OneFunctionPerType ∧ Model.positional m = .ok model ∧ Model.indexed m = .ok model := by
  intro b m model
  have hdecode : (decode b).result = .ok m := by decide +kernel
  have hone : m.OneFunctionPerType := ⟨by decide, by decide⟩
  have hmodel : Model.positional m = .ok model := by decide +kernel
  obtain ⟨positional, indexed, hpositional, hindexed, _, _, _, hagree⟩ := views_agree hdecode
  obtain rfl : model = positional := Except.ok.inj (hmodel.symm.trans hpositional)
  exact ⟨hdecode, hone, hmodel, (hagree hone).1 ▸ hindexed⟩

end WasmInspect
