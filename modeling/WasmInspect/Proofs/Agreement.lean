import WasmInspect.Proofs.Faults
import WasmInspect.Proofs.Mismatches

/-!
# When a model and an engine agree

A comparison with an engine's view reports nothing for an ordinary module: one in which no id with a meaning of its own occurs twice, and in
which the names of exported functions are made of ASCII characters. Then the first section of an id, which a model uses, is also the last
one, which an engine uses; a name is the same text in both; and both find a function by its index among the imported functions and then
the defined ones.

What is assumed of the engine is `Engine.Sees`. The view that `Engine.view?` gives is one that an engine may have (`Engine.sees_of_view?`).
-/

namespace WasmInspect

/-! ## Steps that may give nothing -/

section

variable {α β : Type} {f : α → Option β} {xs : List α} {ys : List β}

/-- All steps give a value when the list of their values is there. -/
theorem mapM_eq_some_iff : xs.mapM f = some ys ↔ xs.map f = ys.map some := by
  induction xs generalizing ys with
  | nil => cases ys <;> simp
  | cons x xs ih =>
    cases hx : f x with
    | none => cases ys <;> simp [hx]
    | some y =>
      have hcons : (x :: xs).mapM f = (xs.mapM f).map (y :: ·) := by
        rw [List.mapM_cons, hx]
        cases xs.mapM f <;> rfl
      cases ys with
      | nil => simp [hcons]
      | cons y' ys =>
        simp only [hcons, Option.map_eq_some_iff, ih, List.map_cons, hx, List.cons.injEq, Option.some.injEq]
        constructor
        · rintro ⟨_, hxs, rfl, rfl⟩
          exact ⟨rfl, hxs⟩
        · rintro ⟨rfl, hxs⟩
          exact ⟨ys, hxs, rfl, rfl⟩

theorem getElem?_of_mapM (h : xs.mapM f = some ys) (k : Nat) : ys[k]? = xs[k]?.bind f := by
  have hk := congrArg (fun l : List (Option β) => l[k]?) (mapM_eq_some_iff.mp h)
  simp only [List.getElem?_map] at hk
  cases hx : xs[k]? with
  | none => simpa [hx] using hk.symm
  | some x => cases hy : ys[k]? <;> simp_all

theorem mem_of_mapM (h : xs.mapM f = some ys) {y : β} : y ∈ ys ↔ ∃ x ∈ xs, f x = some y := by
  have hmem : y ∈ ys ↔ some y ∈ ys.map some := by simp
  rw [hmem, ← mapM_eq_some_iff.mp h, List.mem_map]

theorem exists_of_mapM (h : xs.mapM f = some ys) {x : α} (hx : x ∈ xs) : ∃ y ∈ ys, f x = some y := by
  have hmem : f x ∈ ys.map some := by
    rw [← mapM_eq_some_iff.mp h]
    exact List.mem_map_of_mem hx
  obtain ⟨y, hy, hfx⟩ := List.mem_map.mp hmem
  exact ⟨y, hy, hfx.symm⟩

end

/-! ## First and last sections -/

/-- What `view` looks for are the entries of the payloads of an id. -/
def Payload.ViewOf {α : Type} (id : SectionId) (view : Payload → Option (List α)) : Prop := ∀ a, (view a).isSome ↔ a.id? = some id

namespace Payload

theorem viewOf_types : ViewOf .types types? := by
  intro a
  cases a <;> simp [types?, id?] <;> decide

theorem viewOf_imports : ViewOf .imports imports? := by
  intro a
  cases a <;> simp [imports?, id?] <;> decide

theorem viewOf_functions : ViewOf .functions functions? := by
  intro a
  cases a <;> simp [functions?, id?] <;> decide

theorem viewOf_exports : ViewOf .exports exports? := by
  intro a
  cases a <;> simp [exports?, id?] <;> decide

end Payload

section

variable {m : Module} {α : Type} {id : SectionId} {view : Payload → Option (List α)}

/-- In a well-formed module the sections of an id are those that hold its entries. -/
theorem Module.WellFormed.isSome_view_iff (h : m.WellFormed) (hid : id.isKnown = true) (hview : Payload.ViewOf id view) {s : Section}
    (hs : s ∈ m.sections) : (view s.payload).isSome ↔ s.id = id := by
  rw [hview, (h.sections s hs).id?]
  constructor
  · intro hpayload
    split at hpayload
    · exact Option.some.inj hpayload
    · cases hpayload
  · rintro rfl
    rw [if_pos hid]

/-- If no id occurs twice, then the last section of an id is the first one. -/
theorem Module.WellFormed.lastEntries_eq (h : m.WellFormed) (hids : (m.ids.filter SectionId.isKnown).Nodup) (hid : id.isKnown = true)
    (hview : Payload.ViewOf id view) : Engine.lastEntries m view = m.entries id view := by
  have hnone : ∀ ss : List Section, (∀ s ∈ ss, s ∈ m.sections ∧ s.id ≠ id) → ss.filterMap (fun s => view s.payload) = [] := by
    intro ss hss
    refine List.filterMap_eq_nil_iff.mpr fun s hs => ?_
    rw [← Option.not_isSome_iff_eq_none, h.isSome_view_iff hid hview (hss s hs).1]
    exact (hss s hs).2
  unfold Engine.lastEntries Module.entries
  cases hs : m.find? id with
  | none =>
    have hall := List.find?_eq_none.mp hs
    rw [hnone m.sections fun s hs => ⟨hs, by simpa using hall s hs⟩]
    rfl
  | some s =>
    obtain ⟨hp, before, after, hsplit, hbefore⟩ := List.find?_eq_some_iff_append.mp hs
    have heq : s.id = id := of_decide_eq_true hp
    have hmem : ∀ t ∈ before ++ s :: after, t ∈ m.sections := by
      intro t ht
      rw [hsplit]
      exact ht
    have hnotAfter : ∀ t ∈ after, t.id ≠ id := by
      -- the id of `s` would occur once more
      rintro t ht rfl
      rw [Module.ids, hsplit, List.map_append, List.map_cons, List.filter_append, List.filter_cons_of_pos (by rw [heq]; exact hid)] at hids
      refine (List.nodup_cons.mp (List.nodup_append.mp hids).2.1).1 ?_
      rw [heq]
      exact List.mem_filter.mpr ⟨List.mem_map_of_mem ht, hid⟩
    have hfirst : before.filterMap (fun s => view s.payload) = [] :=
      hnone before fun t ht => ⟨hmem t (by simp [ht]), by simpa using hbefore t ht⟩
    have hlast : after.filterMap (fun s => view s.payload) = [] :=
      hnone after fun t ht => ⟨hmem t (by simp [ht]), hnotAfter t ht⟩
    obtain ⟨xs, hxs⟩ := Option.isSome_iff_exists.mp ((h.isSome_view_iff hid hview (hmem s (by simp))).mpr heq)
    rw [hsplit, List.filterMap_append, hfirst]
    simp [hxs, hlast]

end

/-! ## Names -/

/-- A name of ASCII characters is the same text in UTF-8. -/
theorem Engine.decodeName_of_ascii {name : String} (h : ∀ c ∈ name.toList, c.toNat < 128) : Engine.decodeName name = some name := by
  have hencode : name.toList.flatMap String.utf8EncodeChar = name.toList.map fun c => UInt8.ofNat c.toNat := by
    rw [List.map_eq_flatMap, List.flatMap_def, List.flatMap_def]
    refine congrArg List.flatten (List.map_congr_left fun c hc => ?_)
    have hle : c.val.toNat ≤ 127 := Nat.le_of_lt_succ (h c hc)
    simp only [String.utf8EncodeChar, hle, if_true]
    rfl
  have hbytes : (name.toList.map fun c => UInt8.ofNat c.toNat).toByteArray = name.toByteArray := by
    rw [← hencode]
    exact congrArg String.toByteArray String.ofList_toList
  rw [decodeName, hbytes, String.fromUTF8?, dif_pos name.isValidUTF8]
  rfl

/-! ## What an engine sees -/

namespace Engine

/-- The type indices of the functions by index: the imported functions, then the defined ones. -/
def functionSpace (imports : List Import) (defined : List UInt32) : List UInt32 :=
  (imports.filterMap fun i => i.type.function?) ++ defined

/-- The type of the function with an index in an engine's view of a module, in which the last section of a kind counts. -/
def typeOf? (m : Module) (index : UInt32) : Option FuncType :=
  (functionSpace (lastEntries m Payload.imports?) (lastEntries m Payload.functions?))[index.toNat]?.bind fun t =>
    (lastEntries m Payload.types?)[t.toNat]?

/-- What is known of an engine that accepts a module: which exported functions it has, by name, in whatever order. -/
structure Sees (m : Module) (theirs : List (String × Signature)) : Prop where
  /-- Names are distinct. -/
  nodup : (theirs.map Prod.fst).Nodup
  /-- The name of an exported function is text in UTF-8. -/
  named : ∀ e ∈ lastEntries m Payload.exports?, e.kind = .function → (decodeName e.field).isSome
  /-- Exported functions exist, and have types that exist. -/
  typed : ∀ e ∈ lastEntries m Payload.exports?, e.kind = .function → (typeOf? m e.index).isSome
  /-- The functions are those that the module exports, under their names, with their indices and types. -/
  mem_iff : ∀ name s, (name, s) ∈ theirs ↔ ∃ e ∈ lastEntries m Payload.exports?, e.kind = .function ∧ decodeName e.field = some name ∧
    ∃ t, typeOf? m e.index = some t ∧ s = ⟨e.index, t.params, t.results⟩

/-- The exported functions that are found, if all names are text and all indices those of functions. -/
theorem exportedFunctions_eq_some {functions : List FuncType} {exports : List Export} {theirs : List (String × Signature)}
    (h : exportedFunctions functions exports = some theirs) :
    (∀ e ∈ exports, e.kind = .function → (decodeName e.field).isSome ∧ functions[e.index.toNat]?.isSome) ∧
    ∀ name s, (name, s) ∈ theirs ↔ ∃ e ∈ exports, e.kind = .function ∧ decodeName e.field = some name ∧
      ∃ t, functions[e.index.toNat]? = some t ∧ s = ⟨e.index, t.params, t.results⟩ := by
  obtain ⟨named, hnamed, htheirs⟩ := Option.bind_eq_some_iff.mp h
  have hours : (named.filter fun x => x.2.kind = .function).mapM
      (fun x => functions[x.2.index.toNat]?.map fun t => (x.1, ⟨x.2.index, t.params, t.results⟩)) = some theirs := htheirs
  have hmem : ∀ n e, (n, e) ∈ named.filter (fun x => x.2.kind = .function) ↔
      e ∈ exports ∧ decodeName e.field = some n ∧ e.kind = .function := by
    intro n e
    rw [List.mem_filter, mem_of_mapM hnamed]
    simp only [Option.map_eq_some_iff, Prod.mk.injEq, decide_eq_true_eq]
    constructor
    · rintro ⟨⟨e', he', _, hname, rfl, rfl⟩, hkind⟩
      exact ⟨he', hname, hkind⟩
    · rintro ⟨he, hname, hkind⟩
      exact ⟨⟨e, he, n, hname, rfl, rfl⟩, hkind⟩
  constructor
  · intro e he hkind
    obtain ⟨_, _, hname⟩ := exists_of_mapM hnamed he
    obtain ⟨name, hname, _⟩ := Option.map_eq_some_iff.mp hname
    obtain ⟨_, _, htype⟩ := exists_of_mapM hours ((hmem name e).mpr ⟨he, hname, hkind⟩)
    obtain ⟨t, ht, _⟩ := Option.map_eq_some_iff.mp htype
    exact ⟨Option.isSome_iff_exists.mpr ⟨name, hname⟩, Option.isSome_iff_exists.mpr ⟨t, ht⟩⟩
  · intro name s
    rw [mem_of_mapM hours]
    simp only [Prod.exists, hmem, Option.map_eq_some_iff, Prod.mk.injEq]
    constructor
    · rintro ⟨_, e, ⟨he, hname, hkind⟩, t, ht, rfl, rfl⟩
      exact ⟨e, he, hkind, hname, t, ht, rfl⟩
    · rintro ⟨e, he, hkind, hname, t, ht, rfl⟩
      exact ⟨name, e, ⟨he, hname, hkind⟩, t, ht, rfl, rfl⟩

/-- The order in which an engine lists the functions is of no account. -/
theorem Sees.perm {m : Module} {theirs theirs' : List (String × Signature)} (h : Sees m theirs) (hperm : theirs.Perm theirs') :
    Sees m theirs' where
  nodup := (hperm.map Prod.fst).nodup_iff.mp h.nodup
  named := h.named
  typed := h.typed
  mem_iff name s := by
    rw [← hperm.mem_iff]
    exact h.mem_iff name s

/-- An engine may have the view that is computed for it. -/
theorem sees_of_view? {m : Module} {theirs : List (String × Signature)} (h : view? m = some theirs) : Sees m theirs := by
  unfold view? at h
  obtain ⟨functions, hfunctions, h⟩ := Option.bind_eq_some_iff.mp h
  split at h
  · cases h
  obtain ⟨named, hnamed, h⟩ := Option.bind_eq_some_iff.mp h
  split at h
  case isFalse => cases h
  case isTrue hnodup =>
    obtain rfl := Option.some.inj h
    have htype : ∀ e : Export, functions[e.index.toNat]? = typeOf? m e.index := fun e => getElem?_of_mapM hfunctions e.index.toNat
    obtain ⟨hvalid, hmem⟩ := exportedFunctions_eq_some hnamed
    simp only [htype] at hvalid hmem
    exact ⟨hnodup, fun e he hkind => (hvalid e he hkind).1, fun e he hkind => (hvalid e he hkind).2, hmem⟩

end Engine

/-! ## What a model has -/

/-- No id with a meaning of its own occurs twice, and the names of exported functions are made of ASCII characters. -/
structure Module.Ordinary (m : Module) : Prop where
  ids_nodup : (m.ids.filter SectionId.isKnown).Nodup
  ascii : ∀ e ∈ m.entries .exports Payload.exports?, e.kind = .function → ∀ c ∈ e.field.toList, c.toNat < 128

/-- An engine finds the type of a function where the model does. -/
theorem Module.WellFormed.typeOf?_eq {m : Module} (h : m.WellFormed) (ho : m.Ordinary) (index : UInt32) :
    Engine.typeOf? m index =
      (Engine.functionSpace (m.entries .imports Payload.imports?) (m.entries .functions Payload.functions?))[index.toNat]?.bind fun t =>
        (m.entries .types Payload.types?)[t.toNat]? := by
  rw [Engine.typeOf?, h.lastEntries_eq ho.ids_nodup rfl Payload.viewOf_imports,
    h.lastEntries_eq ho.ids_nodup rfl Payload.viewOf_functions, h.lastEntries_eq ho.ids_nodup rfl Payload.viewOf_types]

/-- The type of a function as a model lists it. -/
def FunctionView.type (f : FunctionView) : FuncType := ⟨f.params, f.results⟩

/-- The indexed model has the functions of the function index space, each with its type; a type that does not exist has no parameters and
no results. -/
theorem Model.types_indexed {m : Module} (h : m.WellFormed) {model : Model} (hmodel : Model.indexed m = .ok model) :
    model.functions.map FunctionView.type =
      (Engine.functionSpace (m.entries .imports Payload.imports?) (m.entries .functions Payload.functions?)).map fun index =>
        (m.entries .types Payload.types?)[index.toNat]?.getD ⟨[], []⟩ := by
  rw [Model.indexed_eq h] at hmodel
  obtain rfl := Except.ok.inj hmodel
  -- the number of a function matters for its name and its code, but not for its type
  have hfirst : ∀ xs : List UInt32,
      xs.zipIdx.map (fun x => (m.entries .types Payload.types?)[x.1.toNat]?.getD ⟨[], []⟩) =
        xs.map fun index => (m.entries .types Payload.types?)[index.toNat]?.getD ⟨[], []⟩ := by
    intro xs
    conv_rhs => rw [← List.zipIdx_map_fst 0 xs, List.map_map]
    rfl
  simp only [Engine.functionSpace, List.map_append, List.map_map]
  exact congrArg₂ (· ++ ·) (hfirst _) (hfirst _)

namespace Agreement

variable {m : Module} {model : Model} {theirs : List (String × Engine.Signature)}

/-- The model of an ordinary module has the functions that an engine sees which accepts the module. -/
theorem sameFunctions_of_ordinary (h : m.WellFormed) (ho : m.Ordinary) (hmodel : Model.indexed m = .ok model) (hsees : Engine.Sees m theirs)
    (typeName : ValueType → String) : SameFunctions typeName model theirs := by
  have hexports : model.exports = Model.exportsOf (m.entries .exports Payload.exports?) := by
    rw [Model.indexed_eq h] at hmodel
    rw [← Except.ok.inj hmodel]
  have hlast := h.lastEntries_eq ho.ids_nodup rfl Payload.viewOf_exports
  have hmem := hsees.mem_iff
  have htyped := hsees.typed
  rw [hlast] at hmem htyped
  -- an exported function has one entry, under its own name
  have hentry : ∀ e ∈ m.entries .exports Payload.exports?, e.kind = .function →
      ∃ t, Engine.typeOf? m e.index = some t ∧ (e.field, ⟨e.index, t.params, t.results⟩) ∈ theirs := by
    intro e he hkind
    obtain ⟨t, ht⟩ := Option.isSome_iff_exists.mp (htyped e he hkind)
    exact ⟨t, ht, (hmem _ _).mpr ⟨e, he, hkind, Engine.decodeName_of_ascii (ho.ascii e he hkind), t, ht, rfl⟩⟩
  refine ⟨fun name => ⟨fun hname => ?_, fun hname => ?_⟩, fun view hview hkind s hs => ?_⟩
  · obtain ⟨view, hview, hkind, rfl⟩ := mem_functionNames.mp hname
    rw [hexports] at hview
    obtain ⟨e, he, rfl⟩ := List.mem_map.mp hview
    obtain ⟨t, _, hs⟩ := hentry e he hkind
    exact List.mem_map_of_mem hs
  · obtain ⟨⟨name, s⟩, hs, rfl⟩ := List.mem_map.mp hname
    obtain ⟨e, he, hkind, hfield, _⟩ := (hmem name s).mp hs
    rw [Engine.decodeName_of_ascii (ho.ascii e he hkind)] at hfield
    rw [hexports]
    exact mem_functionNames.mpr ⟨_, List.mem_map_of_mem he, hkind, Option.some.inj hfield⟩
  · rw [hexports] at hview
    obtain ⟨e, he, rfl⟩ := List.mem_map.mp hview
    obtain ⟨t, ht, hs'⟩ := hentry e he hkind
    obtain rfl : s = ⟨e.index, t.params, t.results⟩ :=
      Option.some.inj ((lookup_eq_some_of_mem hs hsees.nodup).symm.trans (lookup_eq_some_of_mem hs' hsees.nodup))
    have htype : (model.functions.map FunctionView.type)[e.index.toNat]? = some t := by
      rw [Model.types_indexed h hmodel, List.getElem?_map]
      rw [h.typeOf?_eq ho, Option.bind_eq_some_iff] at ht
      obtain ⟨index, hindex, ht⟩ := ht
      rw [hindex, Option.map_some, ht, Option.getD_some]
    rw [List.getElem?_map, Option.map_eq_some_iff] at htype
    obtain ⟨f, hf, rfl⟩ := htype
    exact ⟨rfl, f, hf, rfl, rfl⟩

/-- The model of an ordinary module agrees with whatever an engine sees that accepts the module. -/
theorem compareNaming_eq_nil (h : m.WellFormed) (ho : m.Ordinary) (hmodel : Model.indexed m = .ok model) (hsees : Engine.Sees m theirs)
    (typeName : ValueType → String) : compareNaming typeName model theirs = .ok [] := by
  rw [compareNaming_eq, (sameFunctions_of_ordinary h ho hmodel hsees _).mismatches_eq_nil hsees.nodup, List.mergeSort_nil]

end Agreement

/-- An ordinary module raises no false alarm. Its model agrees with whatever an engine sees that accepts it, and so a comparison with that
engine reports no mismatch, whatever names it has for the types. The view that is computed for an engine is a case of this. -/
theorem agreement_of_ordinary {b : Bytes} {m : Module} (h : (decode b).result = .ok m) (ho : m.Ordinary) :
    (∃ model, Model.indexed m = .ok model ∧
      ∀ typeName theirs, Engine.Sees m theirs → Agreement.compareNaming typeName model theirs = .ok []) ∧
    (∀ typeName view? theirs, view? b = some theirs → Engine.Sees m theirs →
      ∃ r, Agreement.runWith typeName view? b = .ok r ∧ r.mismatches = []) ∧
    ∀ theirs, Engine.view? m = some theirs → ∃ r, Agreement.run b = .ok r ∧ r.mismatches = [] := by
  have hwf := wellFormed_of_decode h
  have hmodel := Model.indexed_eq hwf
  have hrun : ∀ typeName view? theirs, view? b = some theirs → Engine.Sees m theirs →
      ∃ r, Agreement.runWith typeName view? b = .ok r ∧ r.mismatches = [] := by
    intro typeName view? theirs hview hsees
    have hcompare := Agreement.compareNaming_eq_nil hwf ho hmodel hsees typeName
    unfold Agreement.runWith Agreement.reportWith
    simp only [h, Reader.mapError_ok, Bind.bind, Except.bind, hmodel, hview, hcompare]
    exact ⟨_, rfl, rfl⟩
  refine ⟨⟨_, hmodel, fun typeName theirs hsees => Agreement.compareNaming_eq_nil hwf ho hmodel hsees typeName⟩, hrun, fun theirs hview => ?_⟩
  have hviewOf : Engine.viewOf? b = some theirs := by
    rw [Engine.viewOf?, h]
    exact hview
  exact hrun ValueType.name Engine.viewOf? theirs hviewOf (Engine.sees_of_view? hview)

/-- A function and a memory that are imported, and a defined function; both functions are exported. An engine may list them in the other order, and
have a name for a type that is none. -/
theorem agreement_of_ordinary_import :
    let b := Module.header ++ [1, 5, 1, 0x60, 1, 0x7f, 0] ++
      [2, 14, 2, 1, 0x6d, 1, 0x66, 0, 0, 1, 0x6d, 1, 0x67, 2, 0, 1] ++ [3, 2, 1, 0] ++ [7, 9, 2, 1, 0x61, 0, 1, 1, 0x62, 0, 0] ++
      [10, 4, 1, 2, 0, 0x0b]
    let m := Module.ofSections [⟨.types, 5, 5, .types [⟨[⟨0x7f⟩], []⟩]⟩,
      ⟨.imports, 14, 14, .imports [⟨"m", "f", .function, .function 0⟩, ⟨"m", "g", .memory, .memory ⟨⟨0, 1, -1⟩⟩⟩]⟩,
      ⟨.functions, 2, 2, .functions [0]⟩, ⟨.exports, 9, 9, .exports [⟨"a", .function, 1⟩, ⟨"b", .function, 0⟩]⟩,
      ⟨.code, 4, 4, .code [⟨2, [], []⟩]⟩]
    let typeName : ValueType → String := fun t => if t ∈ ValueType.all then t.name else "unknown"
    let theirs : List (String × Engine.Signature) := [("b", ⟨0, [⟨0x7f⟩], []⟩), ("a", ⟨1, [⟨0x7f⟩], []⟩)]
    let view? : Bytes → Option (List (String × Engine.Signature)) := fun b' => if b' = b then some theirs else none
    (decode b).result = .ok m ∧ m.Ordinary ∧ view? b = some theirs ∧ Engine.Sees m theirs ∧
      (∃ r, Agreement.runWith typeName view? b = .ok r ∧ r.mismatches = []) ∧
      Engine.view? m = some theirs.reverse ∧ ∃ r, Agreement.run b = .ok r ∧ r.mismatches = [] := by
  intro b m typeName theirs view?
  have hdecode : (decode b).result = .ok m := by decide +kernel
  have hordinary : m.Ordinary := by
    refine ⟨by decide, fun e he _ c hc => ?_⟩
    have hentries : m.entries .exports Payload.exports? = [⟨"a", .function, 1⟩, ⟨"b", .function, 0⟩] := rfl
    rw [hentries, List.mem_pair] at he
    rcases he with rfl | rfl
    · obtain rfl := List.mem_singleton.mp hc
      decide
    · obtain rfl := List.mem_singleton.mp hc
      decide
  have hcomputed : Engine.view? m = some theirs.reverse := by decide
  have hview : view? b = some theirs := if_pos rfl
  have hsees : Engine.Sees m theirs := (Engine.sees_of_view? hcomputed).perm (List.reverse_perm theirs)
  obtain ⟨_, hrun, hrunComputed⟩ := agreement_of_ordinary hdecode hordinary
  exact ⟨hdecode, hordinary, hview, hsees, hrun typeName view? theirs hview hsees, hcomputed, hrunComputed _ hcomputed⟩

end WasmInspect
