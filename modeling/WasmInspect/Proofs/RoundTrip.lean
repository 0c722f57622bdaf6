import WasmInspect.Proofs.Grammar.Reads
import WasmInspect.Proofs.Grammar.Yields
import WasmInspect.Proofs.Stream

/-!
# Writing and reading modules

A module that can be written is read again from what was written, with the sizes that were written. A module that was read is
well-formed and can be written, in no more bytes than it was read from; so it is read again from what is written for it, and differs
from what was read at first in sizes alone.
-/

namespace WasmInspect

open Reader Grammar

namespace Encode

/-- The sections of a module, one after the other. -/
def sections (ss : List Section) : Bytes := ss.flatMap fun s => sectionOf s.id (payload s.payload)

/-- A module that is understood is written as its header and its sections. -/
theorem module_eq {m : Module} (h : m.WellFormed) : module m = Module.header ++ sections m.sections := by
  rw [module, h.magic, h.version]
  rfl

end Encode

/-! ## Reading what was written -/

/-- Sections are read as they were written, to the last one. -/
theorem Grammar.gives_written_sections {ss : List Section} (p : CountPolicy) (pos : Nat)
    (h : ∀ s ∈ ss, s.WellFormed ∧ (Encode.payload s.payload).length < UInt32.size)
    (hpos : pos + (Encode.sections ss).length < positionBound) :
    sections.Gives p ⟨pos, Encode.sections ss⟩ (ss.map Section.canonical) ⟨pos + (Encode.sections ss).length, []⟩ := by
  induction ss generalizing pos with
  | nil => exact gives_sections.mpr (Or.inl ⟨rfl, rfl, rfl⟩)
  | cons s ss ih =>
    obtain ⟨hs, hss⟩ := List.forall_mem_cons.mp h
    rw [Encode.sections, List.flatMap_cons, ← Encode.sections] at hpos ⊢
    rw [List.length_append] at hpos ⊢
    have hfirst := gives_written_section hs.1 hs.2 p pos (Encode.sections ss) (by omega)
    have hrest := ih (pos + (Encode.sectionOf s.id (Encode.payload s.payload)).length) hss (by omega)
    rw [Nat.add_assoc] at hrest
    exact gives_sections.mpr (Or.inr ⟨s.canonical, ss.map Section.canonical, _, List.cons_ne_nil _ _, rfl, hfirst, hrest⟩)

/-- After the header, sections are read as they were written. -/
theorem decode_written_sections {ss : List Section}
    (h : ∀ s ∈ ss, s.WellFormed ∧ (Encode.payload s.payload).length < UInt32.size)
    (hlen : (Module.header ++ Encode.sections ss).length < positionBound) :
    (decode (Module.header ++ Encode.sections ss)).result = .ok (Module.ofSections (ss.map Section.canonical)) := by
  rw [List.length_append, length_header] at hlen
  exact decode_header_eq_ok.mpr ⟨_, gives_written_sections .checked _ h hlen, rfl⟩

/-- The canonical form of a well-formed module is that of its sections. -/
theorem Module.canonical_eq {m : Module} (h : m.WellFormed) : m.canonical = ofSections (m.sections.map Section.canonical) := by
  rw [canonical, h.magic, h.version]
  rfl

/-- Reading undoes writing: every module that can be written is read from its bytes, whatever its sections, their order and their
payloads. Only the sizes are those of what was written. -/
theorem decode_encode {m : Module} (h : m.Encodable) (hlen : (Encode.module m).length < positionBound) :
    (decode (Encode.module m)).result = .ok m.canonical := by
  have hsections : ∀ s ∈ m.sections, s.WellFormed ∧ (Encode.payload s.payload).length < UInt32.size :=
    fun s hs => ⟨h.wellFormed.sections s hs, h.length_payload s hs⟩
  rw [Encode.module_eq h.wellFormed] at hlen ⊢
  rw [Module.canonical_eq h.wellFormed]
  exact decode_written_sections hsections hlen

/-- Sections of code, of custom data, of types and of imports, in this order: the code is first and has an `end` inside, and an id without
a meaning is used twice. -/
theorem decode_encode_unordered_sections :
    let m := Module.ofSections
      [⟨.code, 0, 0, .code [⟨0, [⟨2, .i32⟩], [⟨⟨0x41⟩, some (.i32 (-129))⟩, ⟨.blockEnd, none⟩, ⟨⟨0x1a⟩, none⟩]⟩]⟩,
       ⟨⟨12⟩, 0, 0, .custom "a" [1, 2]⟩,
       ⟨⟨12⟩, 0, 0, .custom "" []⟩,
       ⟨.types, 0, 0, .types [⟨[.i32, .f64], [.i64]⟩, ⟨[], []⟩]⟩,
       ⟨.imports, 0, 0, .imports [⟨"m", "f", .function, .function 300⟩, ⟨"m", "n", .memory, .memory ⟨⟨1, 1, 300⟩⟩⟩]⟩]
    m.Encodable ∧ (decode (Encode.module m)).result = .ok m.canonical :=
  ⟨by decide +kernel, decode_encode (by decide +kernel) (by decide +kernel)⟩

/-! ## Writing what was read -/

/-- Sections that are read to the end of the input are well-formed, and are written in no more bytes than there were. -/
theorem Grammar.length_sections_le {p : CountPolicy} {i j : Input} {ss : List Section} (h : sections.Gives p i ss j) :
    (∀ s ∈ ss, s.WellFormed ∧ (Encode.payload s.payload).length < UInt32.size) ∧
      (Encode.sections ss).length ≤ i.rest.length := by
  induction ss generalizing i with
  | nil => exact ⟨List.forall_mem_nil _, Nat.zero_le _⟩
  | cons s ss ih =>
    rcases gives_sections.mp h with ⟨_, hnil, _⟩ | ⟨_, _, k, _, hcons, hs, hrest⟩
    · cases hnil
    · obtain ⟨rfl, rfl⟩ := List.cons.inj hcons
      obtain ⟨hwf, hpos⟩ := yields_anySection _ _ _ _ hs
      obtain ⟨hall, hlen⟩ := ih hrest
      have hend := (takes_anySection.rest_length hs).1
      refine ⟨List.forall_mem_cons.mpr ⟨hwf, hall⟩, ?_⟩
      rw [Encode.sections, List.flatMap_cons, ← Encode.sections, List.length_append]
      simp only at hpos
      omega

/-- What is read as a module has the header that is understood, and its sections are read from the bytes after it. -/
theorem gives_sections_of_decode {b : Bytes} {m : Module} (h : (decode b).result = .ok m) :
    m.magic = Module.magicWord ∧ m.version = Module.supportedVersion ∧
      ∃ i j, i.rest.length + 8 ≤ b.length ∧ sections.Gives .checked i m.sections j := by
  obtain ⟨j, hm⟩ := value_eq_ok.mp (show (module .checked ⟨0, b⟩).value = .ok m from h)
  simp only [module, gives_bind, gives_located, gives_orElseFail, gives_within, gives_ensure, gives_pure] at hm
  obtain ⟨magic, k, hmagic, _, _, ⟨heq, rfl⟩, version, l, hversion, _, _, ⟨heq', rfl⟩, ss, _, hss, rfl, rfl⟩ := hm
  have hlen := takes_uint32.rest_length hmagic
  have hlen' := takes_uint32.rest_length hversion
  refine ⟨of_decide_eq_true heq, of_decide_eq_true heq', l, _, ?_, hss⟩
  simp only at hlen
  omega

/-- Every module that is read, from whatever bytes, is well-formed and can be written, in no more bytes than it was read from; and from
these it is read again, with no other difference than in the sizes that are declared for sections and bodies. -/
theorem decode_reencodable {b : Bytes} {m : Module} (hlen : b.length < positionBound) (h : (decode b).result = .ok m) :
    m.Encodable ∧ (Encode.module m).length ≤ b.length ∧ (decode (Encode.module m)).result = .ok m.canonical := by
  obtain ⟨hmagic, hversion, i, j, hi, hss⟩ := gives_sections_of_decode h
  obtain ⟨hall, hle⟩ := length_sections_le hss
  have hwf : m.WellFormed := ⟨hmagic, hversion, fun s hs => (hall s hs).1⟩
  have henc : m.Encodable := ⟨hwf, fun s hs => (hall s hs).2⟩
  rw [Encode.module_eq hwf, Module.canonical_eq hwf]
  have hshort : (Module.header ++ Encode.sections m.sections).length ≤ b.length := by
    rw [List.length_append, length_header]
    omega
  exact ⟨henc, hshort, decode_written_sections hall (Nat.lt_of_le_of_lt hshort hlen)⟩

/-- A body in a section, both with needless groups in their sizes and counts, and a byte after it that nothing reads. -/
theorem decode_reencodable_padded_body :
    let m := Module.ofSections [⟨.code, 8, 7, .code [⟨3, [], [⟨⟨0x01⟩, none⟩]⟩]⟩]
    (decode (Module.header ++ [10, 0x88, 0, 0x81, 0, 0x83, 0, 0, 0x01, 0x0b, 0xff])).result = .ok m ∧
      m.Encodable ∧ (Encode.module m).length ≤ 19 ∧ (decode (Encode.module m)).result = .ok m.canonical :=
  ⟨rfl, decode_reencodable (b := Module.header ++ [10, 0x88, 0, 0x81, 0, 0x83, 0, 0, 0x01, 0x0b, 0xff]) (by decide) rfl⟩

end WasmInspect
