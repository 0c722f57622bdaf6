import WasmInspect.Cursor
import WasmInspect.Proofs.Grammar.Moves
import WasmInspect.Proofs.Grammar.Takes

/-!
# What a production depends on

The value of a production depends on the bytes that it is read from, and on nothing else: not on where these bytes stand, nor on what
stands before or after them. The one production that looks further is the payload of a custom section, which ends where the input does.
-/

namespace WasmInspect

open Reader Grammar

/-- All productions but one take a byte or more and look no further than that. -/
theorem Production.takes_read : ∀ {q : Production}, q ≠ .custom → Takes 1 q.read
  | .byte, _ => takes_byte
  | .uint8, _ => takes_uint8
  | .uint16, _ => takes_uint16.mono (by decide)
  | .uint32, _ => takes_uint32.mono (by decide)
  | .uint64, _ => takes_uint64.mono (by decide)
  | .varuint1, _ => takes_varuint1
  | .varuint7, _ => takes_varuint7
  | .varuint32, _ => takes_varuint32
  | .varuint64, _ => takes_varuint64
  | .varint7, _ => takes_varint7
  | .varint16, _ => takes_varint16
  | .varint32, _ => takes_varint32
  | .varint64, _ => takes_varint64
  | .count, _ => takes_count
  | .name, _ => takes_name
  | .nameText, _ => takes_nameText
  | .valueType, _ => takes_valueType
  | .blockType, _ => takes_blockType
  | .elementType, _ => takes_elementType
  | .externalKind, _ => takes_externalKind
  | .limits, _ => takes_limits.mono (by decide)
  | .instruction, _ => takes_instruction
  | .expression, _ => takes_expression
  | .initializer, _ => takes_expression
  | .funcType, _ => takes_funcType.mono (by decide)
  | .tableType, _ => takes_tableType.mono (by decide)
  | .memoryType, _ => takes_memoryType.mono (by decide)
  | .globalType, _ => takes_globalType.mono (by decide)
  | .importEntry, _ => takes_importEntry.mono (by decide)
  | .exportEntry, _ => takes_exportEntry.mono (by decide)
  | .globalEntry, _ => takes_globalEntry.mono (by decide)
  | .element, _ => takes_element.mono (by decide)
  | .dataSegment, _ => takes_dataSegment.mono (by decide)
  | .localGroup, _ => takes_localGroup.mono (by decide)
  | .funcBody, _ => takes_funcBody.mono (by decide)
  | .wholeSection, _ => takes_anySection.mono (by decide)
  | .custom, h => absurd rfl h
  | .types, _ => takes_types
  | .imports, _ => takes_imports
  | .functions, _ => takes_functions
  | .tables, _ => takes_tables
  | .memories, _ => takes_memories
  | .globals, _ => takes_globals
  | .exports, _ => takes_exports
  | .start, _ => takes_start
  | .elements, _ => takes_elements
  | .code, _ => takes_code
  | .data, _ => takes_data

/-- All productions are read further on as here. -/
theorem Production.moves_read {k : Nat} : ∀ q : Production, Moves k q.read q.read
  | .byte => moves_byte
  | .uint8 => moves_uint8
  | .uint16 => moves_uint16
  | .uint32 => moves_uint32
  | .uint64 => moves_uint64
  | .varuint1 => moves_varuint1
  | .varuint7 => moves_varuint7
  | .varuint32 => moves_varuint32
  | .varuint64 => moves_varuint64
  | .varint7 => moves_varint7
  | .varint16 => moves_varint16
  | .varint32 => moves_varint32
  | .varint64 => moves_varint64
  | .count => moves_count
  | .name => moves_name
  | .nameText => moves_nameText
  | .valueType => moves_valueType
  | .blockType => moves_blockType
  | .elementType => moves_elementType
  | .externalKind => moves_externalKind
  | .limits => moves_limits
  | .instruction => moves_instruction
  | .expression => moves_expression
  | .initializer => moves_expression
  | .funcType => moves_funcType
  | .tableType => moves_tableType
  | .memoryType => moves_memoryType
  | .globalType => moves_globalType
  | .importEntry => moves_importEntry
  | .exportEntry => moves_exportEntry
  | .globalEntry => moves_globalEntry
  | .element => moves_element
  | .dataSegment => moves_dataSegment
  | .localGroup => moves_localGroup
  | .funcBody => moves_funcBody
  | .wholeSection => moves_anySection
  | .custom => moves_custom
  | .types => moves_types
  | .imports => moves_imports
  | .functions => moves_functions
  | .tables => moves_tables
  | .memories => moves_memories
  | .globals => moves_globals
  | .exports => moves_exports
  | .start => moves_start
  | .elements => moves_elements
  | .code => moves_code
  | .data => moves_data

namespace Cursor

variable {α : Type} {r : Reader α}

/-- At a position that is not before the bytes the input is what is left of them there. -/
theorem inputAt_natCast (b : Bytes) (pos : Nat) : inputAt b pos = Input.at b pos := by
  unfold inputAt
  rw [if_neg (by omega), Int.toNat_natCast]

/-- A read at any position gives a value when the reader does so on the input there. -/
theorem readAt_eq_ok {b : Bytes} {st pos : Int} {v : α} :
    readAt r b st = ⟨pos, .ok v⟩ ↔ ∃ j, r.Gives .checked (inputAt b st) v j ∧ j.pos = pos := by
  cases hr : (r .checked (inputAt b st)).result with
  | error s => simp [readAt, Gives, hr]
  | ok w =>
    obtain ⟨a, j⟩ := w
    simp only [readAt, Gives, hr, Located.mk.injEq, Except.ok.injEq, Prod.mk.injEq]
    constructor
    · rintro ⟨hpos, rfl⟩
      exact ⟨j, ⟨rfl, rfl⟩, hpos⟩
    · rintro ⟨_, ⟨rfl, rfl⟩, hpos⟩
      exact ⟨hpos, rfl⟩

/-- A read at a position of a byte string gives a value and another position when the reader does so from there on. -/
theorem readAt_eq_ok_iff {b : Bytes} {pos pos' : Nat} {v : α} :
    readAt r b pos = ⟨pos', .ok v⟩ ↔ ∃ rest, r.Gives .checked ⟨pos, b.drop pos⟩ v ⟨pos', rest⟩ := by
  rw [readAt_eq_ok, inputAt_natCast]
  constructor
  · rintro ⟨⟨jpos, rest⟩, hg, hpos⟩
    obtain rfl : jpos = pos' := Int.natCast_inj.mp hpos
    exact ⟨rest, hg⟩
  · rintro ⟨rest, hg⟩
    exact ⟨⟨pos', rest⟩, hg, rfl⟩

/-- A reader that looks no further than it reads, and reads further on as here, reads `w` between other bytes as it reads `w` alone. -/
theorem gives_between_iff {n : Nat} (ht : Takes n r) (hm : ∀ k, Moves k r r) {pre w suf : Bytes} {v : α}
    (hlen : pre.length + w.length + suf.length < lengthBound) :
    (∃ rest, r.Gives .checked ⟨pre.length, w ++ suf⟩ v ⟨pre.length + w.length, rest⟩) ↔
      ∃ rest, r.Gives .checked ⟨0, w⟩ v ⟨w.length, rest⟩ := by
  constructor
  · rintro ⟨rest, h⟩
    obtain ⟨w', _, hw, hj, hr⟩ := ht _ _ _ _ h
    simp only at hw hj
    obtain ⟨rfl, rfl⟩ := List.append_inj hw (by omega)
    have halone := hr .checked []
    rw [List.append_nil] at halone
    -- the same bytes at the start of the input
    have hstop : Input.stop ⟨0, w⟩ + pre.length < lengthBound := by
      simp only [Input.stop]
      omega
    have hmoved := (hm pre.length .checked ⟨0, w⟩ hstop).moved
    simp only [Input.moved, Nat.zero_add] at hmoved
    rw [Gives, hmoved, Outcome.moved] at halone
    cases hres : (r .checked ⟨0, w⟩).result with
    | error e => simp [hres] at halone
    | ok x =>
      obtain ⟨a, l, rest⟩ := x
      simp only [hres, Input.moved, Except.ok.injEq, Prod.mk.injEq, Input.mk.injEq] at halone
      obtain ⟨rfl, hl, rfl⟩ := halone
      refine ⟨[], ?_⟩
      rw [Gives, hres, show l = w.length by omega]
  · rintro ⟨rest, h⟩
    obtain ⟨w', _, hw, hj, hr⟩ := ht _ _ _ _ h
    simp only [Nat.zero_add] at hw hj
    have hrest : rest = [] := by
      have hl := congrArg List.length hw
      rw [List.length_append] at hl
      exact List.eq_nil_of_length_eq_zero (by omega)
    subst hrest
    rw [List.append_nil] at hw
    subst hw
    have hhere := hr .checked suf
    have hstop : Input.stop ⟨0, w ++ suf⟩ + pre.length < lengthBound := by
      simp only [Input.stop, List.length_append]
      omega
    have hmoved := (hm pre.length .checked ⟨0, w ++ suf⟩ hstop).moved
    simp only [Input.moved, Nat.zero_add] at hmoved
    refine ⟨suf, ?_⟩
    rw [Gives, hmoved, Outcome.moved, show (r .checked ⟨0, w ++ suf⟩).result = _ from hhere]
    simp only [Input.moved, Nat.add_comm]

/-- A production is read from the bytes `w`, wherever they stand and whatever stands around them, exactly when it is read from `w`
alone. -/
theorem readAt_between_iff (q : Production) (hq : q ≠ .custom) (pre w suf : Bytes) (v : q.Value)
    (hlen : (pre ++ w ++ suf).length < lengthBound) :
    readAt q.read (pre ++ w ++ suf) pre.length = ⟨(pre.length + w.length : Nat), .ok v⟩ ↔
      readAt q.read w 0 = ⟨w.length, .ok v⟩ := by
  rw [List.length_append, List.length_append] at hlen
  have hzero : (0 : Int) = ((0 : Nat) : Int) := rfl
  rw [readAt_eq_ok_iff, hzero, readAt_eq_ok_iff, List.append_assoc, List.drop_left, List.drop_zero]
  exact gives_between_iff (Production.takes_read hq) (fun _ => Production.moves_read q) hlen

/-- A body with a padded index is read between other bytes. -/
theorem readAt_between_padded_body :
    readAt Production.funcBody.read ([0x01] ++ [0x05, 0x00, 0x10, 0x83, 0x00, 0x0b] ++ [0x0b, 0xff]) 1 =
      ⟨7, .ok ⟨5, [], [⟨⟨0x10⟩, some (.index 3)⟩]⟩⟩ :=
  (readAt_between_iff .funcBody (by decide) [0x01] [0x05, 0x00, 0x10, 0x83, 0x00, 0x0b] [0x0b, 0xff] _ (by decide)).mpr rfl

end Cursor

end WasmInspect
