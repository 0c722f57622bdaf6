import WasmInspect.Production
import WasmInspect.Proofs.Grammar.Success
import WasmInspect.Proofs.Reader.Failure

/-!
# How the productions fail

Where there is nothing to read every production fails because the input ends; it is enough to look at the first thing that it reads. And
however far a production had come when it failed, the position that it gives back is the one where it began. Most of them put it back
themselves; the others only pass on what one of these gives back, or fail before they have taken anything.
-/

namespace WasmInspect

/-! ## Nothing to read -/

namespace Grammar

open Reader

theorem starves_byte : Starves byte := fun _ _ _ => ⟨_, _, rfl, rfl⟩

/-- Bytes that are not there are missed unless none is asked for. -/
theorem starves_bytes {n : Nat} (hpos : 0 < n) (hn : n < UInt32.size) : Starves (bytes n) := by
  intro p pos hbound
  have hreaches : (reaches n).Gives p ⟨pos, []⟩ false ⟨pos, []⟩ := by
    rw [gives_reaches]
    refine ⟨decide_eq_false ?_, rfl⟩
    simp only [lengthBound, UInt32.size, positionBound, List.length_nil] at hbound hn ⊢
    omega
  exact hreaches.fails_bind (fails_ensure (.ofCause .outOfBounds)).bind

theorem starves_leb128 {bits : Nat} (h : 0 < Leb128.limit bits) : Starves (leb128 bits) := by
  obtain ⟨n, hn⟩ : ∃ n, Leb128.limit bits = n + 1 := ⟨Leb128.limit bits - 1, by omega⟩
  rw [leb128, hn, groups]
  exact starves_byte.bind

theorem starves_word {n : Nat} (hpos : 0 < n) (hn : n < UInt32.size) : Starves (word n) := (starves_bytes hpos hn).bind

theorem starves_varuint {bits : Nat} (h : 0 < Leb128.limit bits) : Starves (varuint bits) := (starves_leb128 h).bind.restoring

theorem starves_varint {bits : Nat} (h : 0 < Leb128.limit bits) : Starves (varint bits) := (starves_leb128 h).bind.restoring

theorem starves_uint8 : Starves uint8 := (starves_word (by decide) (by decide)).bind

theorem starves_varuint1 : Starves varuint1 := (starves_varuint (by decide)).bind

theorem starves_varuint7 : Starves varuint7 := (starves_varuint (by decide)).bind

theorem starves_varuint32 : Starves varuint32 := (starves_varuint (by decide)).bind

theorem starves_count : Starves count := starves_varuint32.bind

theorem starves_name : Starves name := starves_count.bind.restoring

theorem starves_nameText : Starves nameText := starves_name.bind

theorem starves_vector {α : Type} (item : String) (least : Nat) (r : Reader α) : Starves (vector item least r) :=
  (starves_count.within _).bind.restoring

theorem starves_tag {α : Type} (site : TagSite) {r : Reader UInt8} (accept : UInt8 → Option α) (h : Starves r) :
    Starves (tag site r accept) :=
  (Starves.position_bind fun _ => h.bind).restoring

theorem starves_valueType : Starves valueType := starves_tag _ _ starves_varuint7

theorem starves_elementType : Starves elementType := starves_tag _ _ starves_uint8

theorem starves_limits : Starves limits := (starves_tag _ _ (starves_varuint1.within _)).bind.restoring

theorem starves_globalType : Starves globalType := starves_valueType.bind.restoring

theorem starves_instruction : Starves instruction :=
  (Starves.position_bind fun _ => (Starves.position_bind fun _ => starves_byte.bind).captured.bind).restoring

/-- Without a byte an expression has no fuel, and fails as an instruction does. -/
theorem starves_expression : Starves expression := fun p pos hpos =>
  ((gives_remaining.mpr ⟨rfl, rfl⟩).fails_bind (starves_instruction.bind p pos hpos)).restoring

end Grammar

open Reader Grammar

/-- Every production fails where there is nothing to read, because the input ends. -/
theorem Production.starves_read : ∀ q : Production, Starves q.read
  | .byte => starves_byte
  | .uint8 => starves_uint8
  | .uint16 => (starves_word (by decide) (by decide)).bind
  | .uint32 => (starves_word (by decide) (by decide)).bind
  | .uint64 => (starves_word (by decide) (by decide)).bind
  | .varuint1 => starves_varuint1
  | .varuint7 => starves_varuint7
  | .varuint32 => starves_varuint32
  | .varuint64 => (starves_varuint (by decide)).bind
  | .varint7 => (starves_varint (by decide)).bind
  | .varint16 => (starves_varint (by decide)).bind
  | .varint32 => (starves_varint (by decide)).bind
  | .varint64 => (starves_varint (by decide)).bind
  | .count => starves_count
  | .name => starves_name
  | .nameText => starves_nameText
  | .valueType => starves_valueType
  | .blockType => starves_tag _ _ starves_varuint7
  | .elementType => starves_elementType
  | .externalKind => starves_tag _ _ starves_uint8
  | .limits => starves_limits
  | .instruction => starves_instruction
  | .expression => starves_expression
  | .initializer => starves_expression
  | .funcType => (starves_tag _ _ starves_uint8).bind.restoring
  | .tableType => starves_elementType.bind.restoring
  | .memoryType => (starves_limits.within _).bind.restoring
  | .globalType => starves_globalType
  | .importEntry => (starves_nameText.within _).bind.restoring
  | .exportEntry => (starves_nameText.within _).bind.restoring
  | .globalEntry => starves_globalType.bind.restoring
  | .element => (starves_varuint32.within _).bind.restoring
  | .dataSegment => (starves_varuint32.within _).bind.restoring
  | .localGroup => (starves_varuint32.within _).bind.restoring
  | .funcBody => (starves_count.within _).bind.restoring
  | .wholeSection => (Starves.position_bind fun _ => (starves_varuint7.within _).bind).restoring
  | .custom => (starves_nameText.within _).followed.restoring
  | .types => starves_vector _ _ _
  | .imports => starves_vector _ _ _
  | .functions => starves_vector _ _ _
  | .tables => starves_vector _ _ _
  | .memories => starves_vector _ _ _
  | .globals => starves_vector _ _ _
  | .exports => starves_vector _ _ _
  | .start => (starves_varuint32.within _).restoring
  | .elements => starves_vector _ _ _
  | .code => starves_vector _ _ _
  | .data => starves_vector _ _ _

/-! ## Positions -/

namespace Grammar

theorem restores_byte : Restores byte := by
  refine Restores.bind_idle (fun _ _ _ h => nomatch h) (fun _ _ _ _ h => (gives_hasRoom.mp h).2) fun more => ?_
  refine Restores.bind_idle (Restores.ensure _ _) (fun _ _ _ _ h => (gives_ensure.mp h).2) fun _ => ?_
  intro p i s h
  obtain ⟨pos, rest⟩ := i
  cases rest with
  | nil =>
    obtain rfl := Except.error.inj h
    rfl
  | cons x rest => cases h

theorem restores_bytes (n : Nat) : Restores (bytes n) := by
  refine Restores.bind_idle (fun _ _ _ h => nomatch h) (fun _ _ _ _ h => (gives_reaches.mp h).2) fun fits => ?_
  refine Restores.bind_idle (Restores.ensure _ _) (fun _ _ _ _ h => (gives_ensure.mp h).2) fun _ => ?_
  intro p i s h
  unfold slice at h
  split at h
  · cases h
  · obtain rfl := Except.error.inj h
    rfl

theorem restores_word (n : Nat) : Restores (word n) := (restores_bytes n).bind_pure

theorem restores_varuint32 : Restores varuint32 := (Restores.restoring _).bind_pure

theorem restores_count : Restores count := restores_varuint32.bind_pure

end Grammar

/-- Every production that fails gives the position back at which it began, however far it had come. -/
theorem Production.restores_read : ∀ q : Production, Restores q.read
  | .byte => restores_byte
  | .uint8 => (restores_word 1).bind_pure
  | .uint16 => (restores_word 2).bind_pure
  | .uint32 => (restores_word 4).bind_pure
  | .uint64 => (restores_word 8).bind_pure
  | .varuint1 => (Restores.restoring _).bind_pure
  | .varuint7 => (Restores.restoring _).bind_pure
  | .varuint32 => restores_varuint32
  | .varuint64 => (Restores.restoring _).bind_pure
  | .varint7 => (Restores.restoring _).bind_pure
  | .varint16 => (Restores.restoring _).bind_pure
  | .varint32 => (Restores.restoring _).bind_pure
  | .varint64 => (Restores.restoring _).bind_pure
  | .count => restores_count
  | .name => Restores.restoring _
  | .nameText => (Restores.restoring _).bind_pure
  | .valueType => Restores.restoring _
  | .blockType => Restores.restoring _
  | .elementType => Restores.restoring _
  | .externalKind => Restores.restoring _
  | .limits => Restores.restoring _
  | .instruction => Restores.restoring _
  | .expression => Restores.restoring _
  | .initializer => Restores.restoring _
  | .funcType => Restores.restoring _
  | .tableType => Restores.restoring _
  | .memoryType => Restores.restoring _
  | .globalType => Restores.restoring _
  | .importEntry => Restores.restoring _
  | .exportEntry => Restores.restoring _
  | .globalEntry => Restores.restoring _
  | .element => Restores.restoring _
  | .dataSegment => Restores.restoring _
  | .localGroup => Restores.restoring _
  | .funcBody => Restores.restoring _
  | .wholeSection => Restores.restoring _
  | .custom => Restores.restoring _
  | .types => Restores.restoring _
  | .imports => Restores.restoring _
  | .functions => Restores.restoring _
  | .tables => Restores.restoring _
  | .memories => Restores.restoring _
  | .globals => Restores.restoring _
  | .exports => Restores.restoring _
  | .start => Restores.restoring _
  | .elements => Restores.restoring _
  | .code => Restores.restoring _
  | .data => Restores.restoring _

end WasmInspect
