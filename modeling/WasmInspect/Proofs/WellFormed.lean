import Mathlib.Tactic.MkIffOfInductiveProp
import WasmInspect.Encode

/-!
# Well-formed modules

The types of a module leave room for more than its binary form can say: a byte that is no value type, limits with a flag that does not
fit their maximum, a section whose id does not belong to its payload. `Module.WellFormed` says what every module has that was read, part
by part. It can be decided.

A well-formed module can be written if the payload of each section has a size of 32 bits (`Module.Encodable`). The sizes that a
section and a body hold in themselves are free; `Module.canonical` puts those there that are written.
-/

namespace WasmInspect

/-! ## Types -/

/-- All types are value types, and there is one result at most. -/
@[mk_iff] structure FuncType.WellFormed (t : FuncType) : Prop where
  params : ∀ v ∈ t.params, v ∈ ValueType.all
  results : ∀ v ∈ t.results, v ∈ ValueType.all
  length_results : t.results.length ≤ 1

/-- The sizes are numbers of 32 bits, and the flags say whether there is a maximum. -/
@[mk_iff] structure Limits.WellFormed (l : Limits) : Prop where
  initial_nonneg : 0 ≤ l.initial
  initial_lt : l.initial < UInt32.size
  maximum : l.flags = 0 ∧ l.maximum = -1 ∨ l.flags = 1 ∧ 0 ≤ l.maximum ∧ l.maximum < UInt32.size

/-- The elements of a table are functions. -/
@[mk_iff] structure TableType.WellFormed (t : TableType) : Prop where
  element : t.element = .anyFunc
  limits : t.limits.WellFormed

def MemoryType.WellFormed (t : MemoryType) : Prop := t.limits.WellFormed

def GlobalType.WellFormed (t : GlobalType) : Prop := t.value ∈ ValueType.all

def LocalGroup.WellFormed (l : LocalGroup) : Prop := l.type ∈ ValueType.all

instance (t : FuncType) : Decidable t.WellFormed := decidable_of_iff _ t.wellFormed_iff.symm

instance (l : Limits) : Decidable l.WellFormed := decidable_of_iff _ l.wellFormed_iff.symm

instance (t : TableType) : Decidable t.WellFormed := decidable_of_iff _ t.wellFormed_iff.symm

instance (t : MemoryType) : Decidable t.WellFormed := inferInstanceAs (Decidable t.limits.WellFormed)

instance (t : GlobalType) : Decidable t.WellFormed := inferInstanceAs (Decidable (t.value ∈ ValueType.all))

instance (l : LocalGroup) : Decidable l.WellFormed := inferInstanceAs (Decidable (l.type ∈ ValueType.all))

/-! ## Code -/

/-- A block type is one of the seven, and a reserved value is a number of 7 bits. -/
def Operand.WellFormed : Operand → Prop
  | .block t => t ∈ BlockType.all
  | .indirectCall _ v => v < 128
  | .reserved v => v < 128
  | _ => True

instance : (o : Operand) → Decidable o.WellFormed
  | .block t => inferInstanceAs (Decidable (t ∈ BlockType.all))
  | .indirectCall _ v => inferInstanceAs (Decidable (v < 128))
  | .reserved v => inferInstanceAs (Decidable (v < 128))
  | .index _ => isTrue trivial
  | .branchTable _ _ => isTrue trivial
  | .memory _ _ => isTrue trivial
  | .i32 _ => isTrue trivial
  | .i64 _ => isTrue trivial
  | .f32 _ => isTrue trivial
  | .f64 _ => isTrue trivial

/-- The opcode has a meaning, and the operand is of the kind that the table gives it, or missing if it gives none. -/
@[mk_iff] structure Instruction.WellFormed (x : Instruction) : Prop where
  kind : x.op.entry?.map Opcode.Entry.operand = some (x.operand.map Operand.kind)
  operand : ∀ o ∈ x.operand, o.WellFormed

instance (x : Instruction) : Decidable x.WellFormed := decidable_of_iff _ x.wellFormed_iff.symm

/-- An expression has `end` as its last instruction, and only there. -/
@[mk_iff] structure Code.IsExpression (c : Code) : Prop where
  instructions : ∀ x ∈ c, x.WellFormed
  last : c.getLast?.map Instruction.op = some .blockEnd
  before : ∀ x ∈ c.dropLast, x.op ≠ .blockEnd

instance (c : Code) : Decidable (Code.IsExpression c) := decidable_of_iff _ (Code.isExpression_iff c).symm

theorem Code.not_isExpression_nil : ¬Code.IsExpression [] := by
  intro h
  cases h.last

/-- An expression is an `end`, or another instruction and an expression. -/
theorem Code.isExpression_cons {x : Instruction} {c : Code} :
    Code.IsExpression (x :: c) ↔ x.WellFormed ∧ if x.op = .blockEnd then c = [] else Code.IsExpression c := by
  cases c with
  | nil => simp [isExpression_iff]
  | cons y c =>
    rw [isExpression_iff, isExpression_iff, List.getLast?_cons_cons, List.dropLast_cons_cons, List.forall_mem_cons (a := x),
      List.forall_mem_cons (a := x)]
    by_cases hx : x.op = .blockEnd
    · simp [hx]
    · simp [hx, and_assoc]

/-! ## Entries -/

/-- Each character of a name is that of a byte. -/
def IsName (s : String) : Prop := ∀ c ∈ s.toList, c.toNat < 256

instance (s : String) : Decidable (IsName s) := List.decidableBAll (fun c : Char => c.toNat < 256) s.toList

def ImportType.WellFormed : ImportType → Prop
  | .function _ => True
  | .table t => t.WellFormed
  | .memory t => t.WellFormed
  | .global t => t.WellFormed

instance : (t : ImportType) → Decidable t.WellFormed
  | .function _ => isTrue trivial
  | .table t => inferInstanceAs (Decidable t.WellFormed)
  | .memory t => inferInstanceAs (Decidable t.WellFormed)
  | .global t => inferInstanceAs (Decidable t.WellFormed)

/-- What is imported has one of the four kinds. -/
theorem ImportType.kind_le (t : ImportType) : t.kind.byte ≤ ExternalKind.global.byte := by
  cases t with
  | function => exact (by decide : ExternalKind.function.byte ≤ ExternalKind.global.byte)
  | table => exact (by decide : ExternalKind.table.byte ≤ ExternalKind.global.byte)
  | memory => exact (by decide : ExternalKind.memory.byte ≤ ExternalKind.global.byte)
  | global => exact (by decide : ExternalKind.global.byte ≤ ExternalKind.global.byte)

/-- The kind of an import is that of what is imported. -/
@[mk_iff] structure Import.WellFormed (i : Import) : Prop where
  moduleName : IsName i.moduleName
  field : IsName i.field
  kind : i.kind = i.type.kind
  type : i.type.WellFormed

/-- The kind of an export is one of the four. -/
@[mk_iff] structure Export.WellFormed (e : Export) : Prop where
  field : IsName e.field
  kind : e.kind.byte ≤ ExternalKind.global.byte

@[mk_iff] structure Global.WellFormed (g : Global) : Prop where
  type : g.type.WellFormed
  init : Code.IsExpression g.init

def Element.WellFormed (e : Element) : Prop := Code.IsExpression e.offset

def Data.WellFormed (d : Data) : Prop := Code.IsExpression d.offset

/-- The code of a body may be any; blocks are not followed. -/
@[mk_iff] structure FuncBody.WellFormed (f : FuncBody) : Prop where
  locals : ∀ l ∈ f.locals, l.WellFormed
  code : ∀ x ∈ f.code, x.WellFormed

instance (i : Import) : Decidable i.WellFormed := decidable_of_iff _ i.wellFormed_iff.symm

instance (e : Export) : Decidable e.WellFormed := decidable_of_iff _ e.wellFormed_iff.symm

instance (g : Global) : Decidable g.WellFormed := decidable_of_iff _ g.wellFormed_iff.symm

instance (e : Element) : Decidable e.WellFormed := inferInstanceAs (Decidable (Code.IsExpression e.offset))

instance (d : Data) : Decidable d.WellFormed := inferInstanceAs (Decidable (Code.IsExpression d.offset))

instance (f : FuncBody) : Decidable f.WellFormed := decidable_of_iff _ f.wellFormed_iff.symm

/-! ## Sections and modules -/

namespace Payload

/-- The id of the sections that hold such a payload; `none` for a custom section, which has no id of its own. -/
def id? : Payload → Option SectionId
  | .types _ => some .types
  | .imports _ => some .imports
  | .functions _ => some .functions
  | .tables _ => some .tables
  | .memories _ => some .memories
  | .globals _ => some .globals
  | .exports _ => some .exports
  | .start _ => some .start
  | .elements _ => some .elements
  | .code _ => some .code
  | .data _ => some .data
  | .custom _ _ => none

/-- All entries are well-formed, and a custom section has a name. -/
def WellFormed : Payload → Prop
  | .types entries => ∀ t ∈ entries, t.WellFormed
  | .imports entries => ∀ i ∈ entries, i.WellFormed
  | .functions _ => True
  | .tables entries => ∀ t ∈ entries, t.WellFormed
  | .memories entries => ∀ t ∈ entries, t.WellFormed
  | .globals entries => ∀ g ∈ entries, g.WellFormed
  | .exports entries => ∀ e ∈ entries, e.WellFormed
  | .start _ => True
  | .elements entries => ∀ e ∈ entries, e.WellFormed
  | .code bodies => ∀ f ∈ bodies, f.WellFormed
  | .data entries => ∀ d ∈ entries, d.WellFormed
  | .custom name _ => IsName name

instance : (p : Payload) → Decidable p.WellFormed
  | .types entries => inferInstanceAs (Decidable (∀ t ∈ entries, t.WellFormed))
  | .imports entries => inferInstanceAs (Decidable (∀ i ∈ entries, i.WellFormed))
  | .functions _ => isTrue trivial
  | .tables entries => inferInstanceAs (Decidable (∀ t ∈ entries, t.WellFormed))
  | .memories entries => inferInstanceAs (Decidable (∀ t ∈ entries, t.WellFormed))
  | .globals entries => inferInstanceAs (Decidable (∀ g ∈ entries, g.WellFormed))
  | .exports entries => inferInstanceAs (Decidable (∀ e ∈ entries, e.WellFormed))
  | .start _ => isTrue trivial
  | .elements entries => inferInstanceAs (Decidable (∀ e ∈ entries, e.WellFormed))
  | .code bodies => inferInstanceAs (Decidable (∀ f ∈ bodies, f.WellFormed))
  | .data entries => inferInstanceAs (Decidable (∀ d ∈ entries, d.WellFormed))
  | .custom name _ => inferInstanceAs (Decidable (IsName name))

end Payload

/-- The id is a number of 7 bits, and the payload is the one that the id stands for: that of a custom section for every id without a
meaning of its own. -/
@[mk_iff] structure Section.WellFormed (s : Section) : Prop where
  id_lt : s.id.byte < 128
  id? : s.payload.id? = if s.id.isKnown then some s.id else none
  payload : s.payload.WellFormed

instance (s : Section) : Decidable s.WellFormed := decidable_of_iff _ s.wellFormed_iff.symm

/-- The header is the one that is understood, and all sections are well-formed, in any order. -/
@[mk_iff] structure Module.WellFormed (m : Module) : Prop where
  magic : m.magic = magicWord
  version : m.version = supportedVersion
  sections : ∀ s ∈ m.sections, s.WellFormed

instance (m : Module) : Decidable m.WellFormed := decidable_of_iff _ m.wellFormed_iff.symm

/-- A well-formed module whose sections have sizes of 32 bits. -/
@[mk_iff] structure Module.Encodable (m : Module) : Prop where
  wellFormed : m.WellFormed
  length_payload : ∀ s ∈ m.sections, (Encode.payload s.payload).length < UInt32.size

instance (m : Module) : Decidable m.Encodable := decidable_of_iff _ m.encodable_iff.symm

/-! ## Written sizes -/

/-- The body with the size that is written for it. -/
def FuncBody.canonical (f : FuncBody) : FuncBody := { f with size := (Encode.bodyContent f).length }

/-- The payload with the sizes that are written for its bodies. -/
def Payload.canonical : Payload → Payload
  | .code bodies => .code (bodies.map FuncBody.canonical)
  | p => p

/-- The section with the sizes that are written for it. -/
def Section.canonical (s : Section) : Section :=
  ⟨s.id, (Encode.payload s.payload).length, (Encode.payload s.payload).length, s.payload.canonical⟩

/-- The module with the sizes that are written for its sections and their bodies; all else is as before. -/
def Module.canonical (m : Module) : Module := { m with sections := m.sections.map Section.canonical }

end WasmInspect
