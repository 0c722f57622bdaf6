import Mathlib.Data.List.Nodup
import WasmInspect.Proofs.Text
import WasmInspect.Proofs.Views

/-!
# The mismatches of a model and an engine's view

What is said here of mismatches does not hang on the order in which an engine lists its functions, as long as it lists no name twice. There are
none exactly when both sides have the same functions (`SameFunctions`), and no two of them are about the same thing of the same export
(`nodup_keys`).
-/

namespace WasmInspect

/-! ## Lists of names and values -/

section

variable {β : Type} {l l' : List (String × β)} {k : String}

/-- A list in which no key occurs twice has what it holds under its key. -/
theorem lookup_eq_some_of_mem {v : β} (h : (k, v) ∈ l) (hnodup : (l.map Prod.fst).Nodup) : l.lookup k = some v := by
  obtain ⟨before, after, rfl⟩ := List.mem_iff_append.mp h
  refine List.lookup_eq_some_iff.mpr ⟨before, after, rfl, fun p hp => ?_⟩
  rw [List.map_append, List.nodup_append] at hnodup
  have hne : p.1 ≠ k := hnodup.2.2 p.1 (List.mem_map_of_mem hp) k (by simp)
  simpa using hne.symm

theorem lookup_eq_some_iff_mem {v : β} (hnodup : (l.map Prod.fst).Nodup) : l.lookup k = some v ↔ (k, v) ∈ l := by
  refine ⟨fun h => ?_, fun h => lookup_eq_some_of_mem h hnodup⟩
  obtain ⟨before, after, rfl, _⟩ := List.lookup_eq_some_iff.mp h
  exact List.mem_append_right _ List.mem_cons_self

/-- What is found under a key does not hang on the order. -/
theorem lookup_perm (h : l.Perm l') (hnodup : (l.map Prod.fst).Nodup) : l.lookup k = l'.lookup k := by
  ext v
  rw [lookup_eq_some_iff_mem hnodup, lookup_eq_some_iff_mem ((h.map Prod.fst).nodup_iff.mp hnodup), h.mem_iff]

end

namespace Agreement

variable {typeName : ValueType → String} {model : Model} {functions : List FunctionView} {theirs theirs' : List (String × Engine.Signature)}
  {e : ExportView}

/-! ## Single differences -/

theorem differing_eq_nil_iff {name what ours theirs : String} : differing name what ours theirs = [] ↔ ours = theirs := by
  unfold differing
  split <;> simpa

/-- A difference is about what it is asked for. -/
theorem whats_differing_sublist (name what ours theirs : String) : ((differing name what ours theirs).map Mismatch.what).Sublist [what] := by
  unfold differing
  split
  · exact List.nil_sublist _
  · exact List.Sublist.refl _

theorem name_of_mem_differing {name what ours theirs : String} {x : Mismatch} (h : x ∈ differing name what ours theirs) : x.name = name := by
  unfold differing at h
  split at h
  · cases h
  · rw [List.mem_singleton.mp h]

/-- The names of types in brackets say which names they are, if these are words. -/
theorem typeNames_eq_iff (hword : ∀ t, Text.IsWord (typeName t)) {ts ts' : List ValueType} :
    typeNames typeName ts = typeNames typeName ts' ↔ ts.map typeName = ts'.map typeName := by
  refine ⟨fun h => ?_, fun h => by rw [typeNames, h, typeNames]⟩
  rw [typeNames, typeNames, String.append_left_inj, String.append_right_inj] at h
  exact Text.intercalate_word_inj (List.forall_mem_map.mpr fun t _ => hword t) (List.forall_mem_map.mpr fun t _ => hword t) h

/-! ## When there are none -/

/-- The names under which a model exports functions. -/
def functionNames (exports : List ExportView) : List String := (exports.filter fun e => e.kind = .function).map ExportView.name

theorem mem_functionNames {exports : List ExportView} {name : String} :
    name ∈ functionNames exports ↔ ∃ e ∈ exports, e.kind = .function ∧ e.name = name := by
  simp only [functionNames, List.mem_map, List.mem_filter, decide_eq_true_eq, and_assoc]

/-- A model and an engine's view have the same exported functions: those with the same names; and under each name one with the same index, which
the model lists, and with types of the same names. -/
structure SameFunctions (typeName : ValueType → String) (model : Model) (theirs : List (String × Engine.Signature)) : Prop where
  names : ∀ name, name ∈ functionNames model.exports ↔ name ∈ theirs.map Prod.fst
  functions : ∀ e ∈ model.exports, e.kind = .function → ∀ s, (e.name, s) ∈ theirs → e.index = s.index ∧
    ∃ f, model.functions[e.index.toNat]? = some f ∧ f.params.map typeName = s.params.map typeName ∧ f.results.map typeName = s.results.map typeName

/-- An exported function has no mismatch if the engine has it too, and the same. -/
theorem exportMismatches_eq_nil_iff (hkind : e.kind = .function) :
    exportMismatches typeName functions theirs e = [] ↔ ∃ s, theirs.lookup e.name = some s ∧ e.index = s.index ∧
      ∃ f, functions[e.index.toNat]? = some f ∧ typeNames typeName f.params = typeNames typeName s.params ∧
        typeNames typeName f.results = typeNames typeName s.results := by
  unfold exportMismatches
  rw [if_pos hkind]
  cases theirs.lookup e.name with
  | none => simp
  | some s =>
    unfold signatureMismatches
    cases functions[e.index.toNat]? with
    | none => simp
    | some f =>
      simp only [List.append_eq_nil_iff, differing_eq_nil_iff, Text.decimal_inj, UInt32.toNat_inj, Option.some.injEq, exists_eq_left']

/-- The functions that only the engine has are those of its names that are none of the model's. -/
theorem unknown_eq (exports : List ExportView) (theirs : List (String × Engine.Signature)) :
    unknown exports theirs =
      ((theirs.map Prod.fst).filter fun name => name ∉ functionNames exports).map fun name => ⟨name, "missing", "absent", "present"⟩ := by
  have hany : ∀ name, (exports.any fun e => e.kind = .function && e.name = name) = decide (name ∈ functionNames exports) := by
    intro name
    rw [Bool.eq_iff_iff, List.any_eq_true, decide_eq_true_eq, mem_functionNames]
    simp only [Bool.and_eq_true, decide_eq_true_eq]
  unfold unknown
  simp only [hany, List.filter_map, List.map_map]
  rw [← List.filterMap_eq_map, List.filterMap_filter]
  refine List.filterMap_congr fun x _ => ?_
  by_cases hmem : x.1 ∈ functionNames exports <;> simp [hmem]

theorem unknown_eq_nil_iff {exports : List ExportView} :
    unknown exports theirs = [] ↔ ∀ name ∈ theirs.map Prod.fst, name ∈ functionNames exports := by
  rw [unknown_eq, List.map_eq_nil_iff, List.filter_eq_nil_iff]
  simp only [decide_eq_true_eq, not_not]

/-- The same functions have no mismatches. -/
theorem SameFunctions.mismatches_eq_nil (h : SameFunctions typeName model theirs) (hnodup : (theirs.map Prod.fst).Nodup) :
    mismatches typeName model theirs = [] := by
  refine List.append_eq_nil_iff.mpr ⟨List.flatMap_eq_nil_iff.mpr fun e he => ?_, unknown_eq_nil_iff.mpr fun name => (h.names name).mpr⟩
  by_cases hkind : e.kind = .function
  · obtain ⟨⟨name, s⟩, hs, rfl⟩ := List.mem_map.mp ((h.names e.name).mp (mem_functionNames.mpr ⟨e, he, hkind, rfl⟩))
    obtain ⟨hindex, f, hf, hparams, hresults⟩ := h.functions e he hkind s hs
    refine (exportMismatches_eq_nil_iff hkind).mpr ⟨s, lookup_eq_some_of_mem hs hnodup, hindex, f, hf, ?_, ?_⟩
    · rw [typeNames, hparams, typeNames]
    · rw [typeNames, hresults, typeNames]
  · exact if_neg hkind

/-- Without mismatches the functions are the same. -/
theorem sameFunctions_of_mismatches_eq_nil (hword : ∀ t, Text.IsWord (typeName t)) (hnodup : (theirs.map Prod.fst).Nodup)
    (h : mismatches typeName model theirs = []) : SameFunctions typeName model theirs := by
  obtain ⟨hours, hunknown⟩ := List.append_eq_nil_iff.mp h
  have hexport := List.flatMap_eq_nil_iff.mp hours
  refine ⟨fun name => ⟨fun hname => ?_, unknown_eq_nil_iff.mp hunknown name⟩, fun e he hkind s hs => ?_⟩
  · obtain ⟨e, he, hkind, rfl⟩ := mem_functionNames.mp hname
    obtain ⟨s, hs, _⟩ := (exportMismatches_eq_nil_iff hkind).mp (hexport e he)
    exact List.mem_map_of_mem ((lookup_eq_some_iff_mem hnodup).mp hs)
  · obtain ⟨s', hs', hindex, f, hf, hparams, hresults⟩ := (exportMismatches_eq_nil_iff hkind).mp (hexport e he)
    obtain rfl : s = s' := Option.some.inj ((lookup_eq_some_of_mem hs hnodup).symm.trans hs')
    exact ⟨hindex, f, hf, (typeNames_eq_iff hword).mp hparams, (typeNames_eq_iff hword).mp hresults⟩

/-! ## What they are about -/

/-- What a mismatch is about: an export, and something of it. -/
def Mismatch.key (x : Mismatch) : String × String := (x.name, x.what)

/-- The mismatches of an export are about that export. -/
theorem name_of_mem_exportMismatches {x : Mismatch} (h : x ∈ exportMismatches typeName functions theirs e) : x.name = e.name := by
  unfold exportMismatches signatureMismatches at h
  split at h
  · split at h
    · rw [List.mem_singleton.mp h]
    · obtain h | h := List.mem_append.mp h
      · exact name_of_mem_differing h
      split at h
      · rw [List.mem_singleton.mp h]
      · obtain h | h := List.mem_append.mp h <;> exact name_of_mem_differing h
  · cases h

theorem kind_of_mem_exportMismatches {x : Mismatch} (h : x ∈ exportMismatches typeName functions theirs e) : e.kind = .function := by
  unfold exportMismatches at h
  split at h
  · assumption
  · cases h

/-- An export is either missing, or its index may differ and then it is either out of range or its types may differ: no two mismatches of an
export are about the same thing. -/
theorem whats_exportMismatches_sublist :
    ((exportMismatches typeName functions theirs e).map Mismatch.what).Sublist ["missing", "index", "function", "params", "results"] := by
  have hindex : ∀ {ours theirs : String} {xs : List Mismatch}, (xs.map Mismatch.what).Sublist ["function", "params", "results"] →
      ((differing e.name "index" ours theirs ++ xs).map Mismatch.what).Sublist ["missing", "index", "function", "params", "results"] := by
    intro _ _ xs hxs
    rw [List.map_append]
    exact ((whats_differing_sublist e.name "index" _ _).append hxs).cons "missing"
  unfold exportMismatches signatureMismatches
  split
  · split
    · exact List.Sublist.cons_cons "missing" (List.nil_sublist _)
    · split
      · exact hindex (List.Sublist.cons_cons "function" (List.nil_sublist _))
      · refine hindex ?_
        rw [List.map_append]
        exact ((whats_differing_sublist e.name "params" _ _).append (whats_differing_sublist e.name "results" _ _)).cons "function"
  · exact List.nil_sublist _

theorem nodup_keys_exportMismatches : ((exportMismatches typeName functions theirs e).map Mismatch.key).Nodup := by
  refine List.Nodup.of_map Prod.snd ?_
  rw [List.map_map]
  exact whats_exportMismatches_sublist.nodup (by decide)

/-- No two mismatches are about the same thing of the same export, if neither side has a name twice. -/
theorem nodup_keys (hours : (functionNames model.exports).Nodup) (htheirs : (theirs.map Prod.fst).Nodup) :
    ((mismatches typeName model theirs).map Mismatch.key).Nodup := by
  rw [mismatches, List.map_append, List.map_flatMap]
  refine List.nodup_append.mpr ⟨List.nodup_flatMap.mpr ⟨fun e _ => nodup_keys_exportMismatches, ?_⟩, ?_, ?_⟩
  · -- two exports of functions have different names
    have hnames : model.exports.Pairwise fun e e' => e.kind = .function → e'.kind = .function → e.name ≠ e'.name := by
      simpa [functionNames, List.Nodup, List.pairwise_map, List.pairwise_filter] using hours
    refine hnames.imp fun {e e'} hne key hkey hkey' => ?_
    obtain ⟨x, hx, rfl⟩ := List.mem_map.mp hkey
    obtain ⟨x', hx', heq⟩ := List.mem_map.mp hkey'
    refine hne (kind_of_mem_exportMismatches hx) (kind_of_mem_exportMismatches hx') ?_
    rw [← name_of_mem_exportMismatches hx, ← name_of_mem_exportMismatches hx']
    exact (congrArg Prod.fst heq).symm
  · refine List.Nodup.of_map Prod.fst ?_
    rw [unknown_eq, List.map_map, List.map_map]
    simpa [Function.comp_def, Mismatch.key] using htheirs.filter _
  · rintro key hkey key' hkey' rfl
    obtain ⟨e, he, hkey⟩ := List.mem_flatMap.mp hkey
    obtain ⟨x, hx, rfl⟩ := List.mem_map.mp hkey
    obtain ⟨x', hx', heq⟩ := List.mem_map.mp hkey'
    rw [unknown_eq, List.mem_map] at hx'
    obtain ⟨name, hname, rfl⟩ := hx'
    have hsame : e.name = name := ((congrArg Prod.fst heq).trans (name_of_mem_exportMismatches hx)).symm
    refine of_decide_eq_true (List.mem_filter.mp hname).2 ?_
    exact mem_functionNames.mpr ⟨e, he, kind_of_mem_exportMismatches hx, hsame⟩

/-- In which order the engine lists its functions matters for the order of the mismatches only. -/
theorem mismatches_perm (h : theirs.Perm theirs') (hnodup : (theirs.map Prod.fst).Nodup) :
    (mismatches typeName model theirs).Perm (mismatches typeName model theirs') := by
  have hexports : exportMismatches typeName model.functions theirs = exportMismatches typeName model.functions theirs' := by
    funext e
    unfold exportMismatches
    rw [lookup_perm h hnodup]
  rw [mismatches, mismatches, hexports]
  exact List.Perm.append_left _ (h.filterMap _)

end Agreement

end WasmInspect
