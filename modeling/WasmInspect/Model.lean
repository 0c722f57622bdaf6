import WasmInspect.Error
import WasmInspect.Module

/-!
# Views of a module's functions

A model lists what a reader of a module looks for: its exports, and its functions with names, signatures and code. There are
two. The positional model takes every type for a function, with the body at the same place. The indexed model follows the
function index space: the imported functions, then the defined ones, whose types and bodies are looked up.

Both use the first section of each id. They rely on the payload being the one that the section's id stands for; any other one
is a fault. Types and bodies are looked up behind a check that there are so many; without it, it would be a fault to take one that is
not there.
-/

namespace WasmInspect

/-- An export as a model lists it. -/
structure ExportView where
  index : UInt32
  name : String
  kind : ExternalKind
  deriving DecidableEq

/-- A function as a model lists it. -/
structure FunctionView where
  /-- The name, with its marker in front, if the function is exported. -/
  name : Option String
  params : List ValueType
  results : List ValueType
  /-- Whether the function is imported; such a function has no code. -/
  isImported : Bool
  code : Code
  deriving DecidableEq

/-- A view of a module. -/
structure Model where
  version : UInt32
  exports : List ExportView
  functions : List FunctionView
  deriving DecidableEq

/-- What stands in front of the names of exported items. -/
def nameMarker : String := "$"

namespace Payload

/-- The function types of a payload, if it holds these. -/
def types? : Payload → Option (List FuncType)
  | types entries => some entries
  | _ => none

/-- The imports of a payload, if it holds these. -/
def imports? : Payload → Option (List Import)
  | imports entries => some entries
  | _ => none

/-- The functions of a payload, if it holds these. -/
def functions? : Payload → Option (List UInt32)
  | functions indices => some indices
  | _ => none

/-- The exports of a payload, if it holds these. -/
def exports? : Payload → Option (List Export)
  | exports entries => some entries
  | _ => none

/-- The bodies of a payload, if it holds these. -/
def code? : Payload → Option (List FuncBody)
  | code bodies => some bodies
  | _ => none

end Payload

/-- Takes the entry at a place of a list. Where the list has none it is a fault. -/
def entryAt {α : Type} (xs : List α) (n : Nat) : Except Fault α :=
  match xs[n]? with
  | some x => .ok x
  | none => .error .entry

/-- The entries of a section if there is one; its payload must be of the kind that `view` looks for. -/
def entriesOf {α : Type} (s : Option Section) (view : Payload → Option (List α)) : Except Fault (List α) :=
  match s with
  | none => .ok []
  | some s =>
    match view s.payload with
    | some entries => .ok entries
    | none => .error .payload

namespace ImportType

/-- The type index of an imported function. -/
def function? : ImportType → Option UInt32
  | function type => some type
  | _ => none

end ImportType

namespace Model

/-- The exports of a module in order. -/
def exportsOf (entries : List Export) : List ExportView := entries.map fun e => ⟨e.index, e.field, e.kind⟩

/-- The name of the function of an index: that of the first export of a function with this index. -/
def functionName (exports : List ExportView) (index : UInt32) : Option String :=
  (exports.find? fun e => e.kind = .function && e.index = index).map fun e => nameMarker ++ e.name

/-- The code of the body at a place; none if there are not so many bodies. -/
def codeAt (bodies : List FuncBody) (n : Nat) : Except Fault Code := do
  if bodies.length ≤ n then pure []
  else
    let f ← entryAt bodies n
    pure f.code

/-- The type of an index; without parameters and results if there are not so many types. -/
def typeAt (types : List FuncType) (index : UInt32) : Except Fault FuncType :=
  if types.length ≤ index.toNat then pure ⟨[], []⟩ else entryAt types index.toNat

/-- The view over the types: each type is a function. -/
def positional (m : Module) : Except Fault Model := do
  let exports ← entriesOf (m.find? .exports) Payload.exports?
  let types ← entriesOf (m.find? .types) Payload.types?
  let bodies ← entriesOf (m.find? .code) Payload.code?
  let views := exportsOf exports
  let functions ← types.zipIdx.mapM fun (t, n) => do
    let code ← codeAt bodies n
    pure ⟨functionName views (.ofNat n), t.params, t.results, false, code⟩
  pure ⟨m.version, views, functions⟩

/-- The view over the function index space: imported functions, then defined ones. -/
def indexed (m : Module) : Except Fault Model := do
  let exports ← entriesOf (m.find? .exports) Payload.exports?
  let types ← entriesOf (m.find? .types) Payload.types?
  let imports ← entriesOf (m.find? .imports) Payload.imports?
  let defined ← entriesOf (m.find? .functions) Payload.functions?
  let bodies ← entriesOf (m.find? .code) Payload.code?
  let views := exportsOf exports
  let imported := imports.filterMap fun i => i.type.function?
  let outer ← imported.zipIdx.mapM fun (index, k) => do
    let t ← typeAt types index
    pure ⟨functionName views (.ofNat k), t.params, t.results, true, []⟩
  let inner ← defined.zipIdx.mapM fun (index, n) => do
    let t ← typeAt types index
    let code ← codeAt bodies n
    pure ⟨functionName views (.ofNat (imported.length + n)), t.params, t.results, false, code⟩
  pure ⟨m.version, views, outer ++ inner⟩

end Model

end WasmInspect
