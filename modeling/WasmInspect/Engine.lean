import WasmInspect.Grammar.Section
import WasmInspect.Model

/-!
# What an engine sees in a module

An engine that runs modules keeps one section of each kind, so of several sections with one id the last counts. Its names are
text in UTF-8. It refuses a module whose functions have no type or no body, or whose export names are not text or not distinct.
Its view of the exported functions is a list of names with index and signature.
-/

namespace WasmInspect.Engine

/-- A function in an engine's view: its index and its signature. -/
structure Signature where
  index : UInt32
  params : List ValueType
  results : List ValueType
  deriving DecidableEq

/-- The text that the bytes of a name are in UTF-8. -/
def decodeName (name : String) : Option String :=
  String.fromUTF8? (name.toList.map fun c => UInt8.ofNat c.toNat).toByteArray

/-- The entries of the last section that holds entries of a kind. -/
def lastEntries {α : Type} (m : Module) (view : Payload → Option (List α)) : List α :=
  ((m.sections.filterMap fun s => view s.payload).getLast?).getD []

/-- The types of the functions by index, the imported ones first; none if one of them has a type that does not exist. -/
def functionTypes (types : List FuncType) (imports : List Import) (defined : List UInt32) : Option (List FuncType) :=
  ((imports.filterMap fun i => i.type.function?) ++ defined).mapM fun t => types[t.toNat]?

/-- The exported functions by name; none if a name is not text, or an index is that of no function. -/
def exportedFunctions (functions : List FuncType) (exports : List Export) : Option (List (String × Signature)) := do
  let named ← exports.mapM fun e => (decodeName e.field).map fun n => (n, e)
  let ours := named.filter fun (_, e) => e.kind = .function
  ours.mapM fun (n, e) => functions[e.index.toNat]?.map fun t => (n, ⟨e.index, t.params, t.results⟩)

/-- The exported functions of a module in an engine's view; none if the engine refuses the module. -/
def view? (m : Module) : Option (List (String × Signature)) := do
  let defined := lastEntries m Payload.functions?
  let functions ← functionTypes (lastEntries m Payload.types?) (lastEntries m Payload.imports?) defined
  if defined.length ≠ (lastEntries m Payload.code?).length then none
  else
    let named ← exportedFunctions functions (lastEntries m Payload.exports?)
    if (named.map Prod.fst).Nodup then some named else none

/-- The exported functions in an engine's view of some bytes, which it reads for itself; none if it refuses them. -/
def viewOf? (b : Bytes) : Option (List (String × Signature)) := (decode b).result.toOption.bind view?

end WasmInspect.Engine
