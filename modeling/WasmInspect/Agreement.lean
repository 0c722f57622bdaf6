import WasmInspect.Engine

/-!
# Comparing the exported functions with an engine's view

The indexed model of a module and an engine's view of it should agree on the exported functions. `compareNaming` lists where they do
not, sorted by the name of the export and by what differs, so the order in which the engine lists its functions is of no
account.

The engine is a parameter: its names of the value types, and what it sees in the bytes of a module, if it accepts them. `run` is the
comparison with the view that is computed here for an engine.
-/

namespace WasmInspect.Agreement

/-- A point in which the two views differ. -/
structure Mismatch where
  name : String
  what : String
  ours : String
  theirs : String
  deriving DecidableEq

/-- The text of a mismatch. -/
def Mismatch.text (m : Mismatch) : String :=
  m.name ++ ": " ++ m.what ++ ": ours " ++ m.ours ++ ", wazero " ++ m.theirs

/-- Reports a difference between two texts, if there is one. -/
def differing (name what ours theirs : String) : List Mismatch := if ours = theirs then [] else [⟨name, what, ours, theirs⟩]

section

variable (typeName : ValueType → String)

/-- The names of types in brackets. -/
def typeNames (types : List ValueType) : String := "[" ++ " ".intercalate (types.map typeName) ++ "]"

/-- What differs in the signature of an exported function that the engine has too. A function that the model does not list has no
signature to compare. -/
def compareSignature (functions : List FunctionView) (e : ExportView) (theirs : Engine.Signature) :
    Except Fault (List Mismatch) := do
  if functions.length ≤ e.index.toNat then pure [⟨e.name, "function", "out of range", Text.decimal theirs.index.toNat⟩]
  else
    let f ← entryAt functions e.index.toNat
    pure (differing e.name "params" (typeNames typeName f.params) (typeNames typeName theirs.params) ++
      differing e.name "results" (typeNames typeName f.results) (typeNames typeName theirs.results))

/-- What differs for an export of the model: only functions are compared. -/
def compareExport (functions : List FunctionView) (theirs : List (String × Engine.Signature)) (e : ExportView) :
    Except Fault (List Mismatch) := do
  if e.kind ≠ .function then pure []
  else match theirs.lookup e.name with
    | none => pure [⟨e.name, "missing", "present", "absent"⟩]
    | some s =>
      let signature ← compareSignature typeName functions e s
      pure (differing e.name "index" (Text.decimal e.index.toNat) (Text.decimal s.index.toNat) ++ signature)

end

/-- The functions of the engine that the model does not export. -/
def unknown (exports : List ExportView) (theirs : List (String × Engine.Signature)) : List Mismatch :=
  theirs.filterMap fun (name, _) =>
    if exports.any fun e => e.kind = .function && e.name = name then none
    else some ⟨name, "missing", "absent", "present"⟩

/-- The order of the report: by export, then by what differs, character by character. -/
def Mismatch.le (a b : Mismatch) : Bool := if a.name = b.name then decide (a.what ≤ b.what) else decide (a.name ≤ b.name)

/-- All points in which a model and an engine's view differ, where types are compared by the names that the engine has for them. -/
def compareNaming (typeName : ValueType → String) (m : Model) (theirs : List (String × Engine.Signature)) :
    Except Fault (List Mismatch) := do
  let ours ← m.exports.mapM (compareExport typeName m.functions theirs)
  pure ((ours.flatten ++ unknown m.exports theirs).mergeSort Mismatch.le)

/-- The result of a comparison, with the numbers of exports of the model and of functions of the engine. -/
structure Report where
  exports : Nat
  theirs : Nat
  mismatches : List Mismatch

/-- Why there is no comparison: the module could not be read, or the engine refuses it. -/
inductive Obstacle where
  | unreadable (f : Failure)
  | refused

/-- Compares the indexed model of a module with an engine's view of it, if there is one. -/
def reportWith (typeName : ValueType → String) (theirs? : Option (List (String × Engine.Signature))) (m : Module) :
    Except Obstacle Report := do
  let model ← (Model.indexed m).mapError fun f => .unreadable (.fault f)
  match theirs? with
  | none => .error .refused
  | some theirs =>
    let mismatches ← (compareNaming typeName model theirs).mapError fun f => .unreadable (.fault f)
    pure ⟨model.exports.length, theirs.length, mismatches⟩

/-- Compares the indexed model of a module with the view that is computed for an engine. The value types have the same names for both. -/
def report (m : Module) : Except Obstacle Report := reportWith ValueType.name (Engine.view? m) m

/-- Reads a module and compares the two views of it, of which `view?` gives the engine's. -/
def runWith (typeName : ValueType → String) (view? : Bytes → Option (List (String × Engine.Signature))) (b : Bytes) :
    Except Obstacle Report := do
  let m ← (decode b).result.mapError fun f => .unreadable (f.within (.part "decode"))
  reportWith typeName (view? b) m

/-- Reads a module and compares its model with the view that is computed for an engine. -/
def run (b : Bytes) : Except Obstacle Report := runWith ValueType.name Engine.viewOf? b

end WasmInspect.Agreement
