import WasmInspect.Proofs.Faults
import WasmInspect.Proofs.Outcome

/-!
# What an error points at

An error of reading a module points at what is wrong. The position in front of it is where the section starts that cannot be read: all before
it is a module, and the section alone fails with the same error. If the cause names a byte, as an opcode or a tag, then that byte stands at
the offset that the cause gives, inside of the payload of this section, and is not allowed there.
-/

namespace WasmInspect

open Reader Grammar

/-- The offset lies in the payload of the section at a position, all of which is there. -/
def InPayload (b : Bytes) (pos offset : Nat) : Prop :=
  ∃ start size : Nat, Cursor.readAt count b (pos + 1 : Nat) = ⟨start, .ok size⟩ ∧ start ≤ offset ∧ offset < start + size ∧
    start + size ≤ b.length

section

variable {b : Bytes} {pos offset : Nat}

theorem InPayload.lt_offset (h : InPayload b pos offset) : pos < offset := by
  obtain ⟨start, size, hread, hle, _⟩ := h
  have hstart : payloadStart b pos = start := by rw [payloadStart, hread, Int.toNat_natCast]
  have := lt_payloadStart b pos
  omega

theorem InPayload.offset_lt (h : InPayload b pos offset) : offset < b.length := by
  obtain ⟨start, size, _, _, hlt, hfits⟩ := h
  omega

/-- A byte of a payload is one of the byte string, inside of the payload. -/
theorem HeaderAt.inPayload {id : SectionId} {size : Nat} {x : UInt8} (h : HeaderAt b pos id size)
    (hx : Input.PartOf ⟨offset, [x]⟩ (payloadAt b pos size)) : b[offset]? = some x ∧ InPayload b pos offset := by
  refine ⟨(hx.trans h.payloadAt_partOf).getElem?, _, size, h.readAt_count, hx.inside.pos_le, ?_, h.fits⟩
  have hstop := hx.inside.stop_le
  rw [h.stop_payloadAt] at hstop
  exact hstop

/-- A section that fails names only bytes of its payload that are not allowed there. -/
theorem anySection_error (hlen : b.length < lengthBound) {e : Error} {stop : Nat}
    (h : (anySection .checked (Input.at b pos)).result = .error ⟨.error e, stop⟩) :
    (∀ op offset, e.cause = .invalidOpcode op offset →
      b[offset]? = some op.byte ∧ op.isValid = false ∧ InPayload b pos offset) ∧
    ∀ site tag offset, e.cause = .invalidTag site tag offset →
      (∃ x, b[offset]? = some x ∧ site.ofByte x = tag) ∧ tag ∉ site.legal ∧ InPayload b pos offset := by
  rcases anySection_cases b pos hlen with ⟨e', he', hcause⟩ | ⟨id, size, hheader⟩
  · -- without a header the cause names no byte
    rw [he', Except.error.injEq, Stop.mk.injEq, Failure.error.injEq] at h
    obtain ⟨rfl, _⟩ := h
    constructor
    · intro op offset hop
      rcases hcause with hc | hc <;> cases hop.symm.trans hc
    · intro site tag offset htag
      rcases hcause with hc | hc <;> cases htag.symm.trans hc
  · cases hp : (payload id .checked (payloadAt b pos size)).result with
    | ok v =>
      rw [hheader.anySection_of_ok hlen (a := v.1) (j := v.2) hp] at h
      cases h
    | error s =>
      rw [hheader.anySection_of_error hlen hp, Except.error.injEq, Stop.mk.injEq] at h
      obtain ⟨failure, spos⟩ := s
      cases failure with
      | fault x => cases h.1
      | error e' =>
        obtain rfl := Failure.error.inj h.1
        have htrue : e'.cause.TrueOf (payloadAt b pos size) := ((reports_payload id .checked _).error _ hp).2 e' rfl
        constructor
        · intro op offset hop
          rw [show e'.cause = _ from hop] at htrue
          obtain ⟨hbyte, hin⟩ := hheader.inPayload htrue.1
          exact ⟨hbyte, htrue.2, hin⟩
        · intro site tag offset htag
          rw [show e'.cause = _ from htag] at htrue
          obtain ⟨⟨x, hx, hofByte⟩, hlegal⟩ := htrue
          obtain ⟨hbyte, hin⟩ := hheader.inPayload hx
          exact ⟨⟨x, hbyte, hofByte⟩, hlegal, hin⟩

end

/-- A read that fails without going on. -/
theorem Cursor.readAt_eq_error {α : Type} {r : Reader α} {b : Bytes} {pos : Nat} {f : Failure}
    (h : (r .checked (Input.at b pos)).result = .error ⟨f, pos⟩) : Cursor.readAt r b pos = ⟨pos, .error f⟩ := by
  simp only [readAt, inputAt_natCast, h, Located.mk.injEq, and_true]
  rw [Input.at, Int.sub_self, Int.add_zero]

/-- Bytes after the header are no module when they are no stream of sections. -/
theorem decode_header_eq_error {s : Bytes} {f : Failure} (h : (decode (Module.header ++ s)).result = .error f) :
    ∃ x, (sections .checked ⟨8, s⟩).result = .error x ∧ x.failure = f := by
  rw [decode_header, Outcome.value] at h
  cases hs : (sections .checked ⟨8, s⟩).result with
  | ok v =>
    rw [hs] at h
    cases h
  | error x =>
    rw [hs] at h
    exact ⟨x, rfl, Except.error.inj h⟩

/-- Errors point at what is wrong. If the bytes start with the header and are no module, then the error names the position of a section, after the
header and before the end; all before it is a module, and the section that starts there fails with the same error. An opcode or a tag in
the cause stands at the offset that the cause gives, which is inside of the payload of that section, and is not allowed there. -/
theorem decode_error_culprit {b : Bytes} {f : Failure} (hlen : b.length < lengthBound) (hheader : b.take 8 = Module.header)
    (h : (decode b).result = .error f) :
    ∃ pos e, f = .error (e.within (.position pos)) ∧ 8 ≤ pos ∧ pos < b.length ∧
      (∃ m, (decode (b.take pos)).result = .ok m) ∧ Cursor.readAt anySection b pos = ⟨pos, .error (.error e)⟩ ∧
      (∀ op offset, e.cause = .invalidOpcode op offset →
        pos < offset ∧ offset < b.length ∧ b[offset]? = some op.byte ∧ op.isValid = false ∧ InPayload b pos offset) ∧
      ∀ site tag offset, e.cause = .invalidTag site tag offset →
        pos < offset ∧ offset < b.length ∧ (∃ x, b[offset]? = some x ∧ site.ofByte x = tag) ∧ tag ∉ site.legal ∧
          InPayload b pos offset := by
  obtain ⟨s, rfl⟩ : ∃ s, b = Module.header ++ s := ⟨b.drop 8, by rw [← hheader, List.take_append_drop]⟩
  obtain ⟨x, hx, rfl⟩ := decode_header_eq_error h
  obtain ⟨w, ss, ⟨pos, rest⟩, stop, hs, hk, hne, hss, hstop, rfl⟩ := sections_eq_error hx
  simp only at hs hk hne
  subst hs
  obtain rfl : pos = (Module.header ++ w).length := by
    rw [List.length_append, length_header]
    exact hk
  have hin : Input.at (Module.header ++ (w ++ rest)) (Module.header ++ w).length = ⟨(Module.header ++ w).length, rest⟩ := by
    rw [Input.at, ← List.append_assoc, List.drop_left]
  have htake : (Module.header ++ (w ++ rest)).take (Module.header ++ w).length = Module.header ++ w := by
    rw [← List.append_assoc, List.take_left]
  obtain ⟨failure, stopPos⟩ := stop
  obtain rfl : stopPos = (Module.header ++ w).length := Restores.restoring _ _ _ _ hstop
  cases failure with
  | fault x => exact absurd h (decode_ne_fault hlen x)
  | error e =>
    obtain ⟨hop, htag⟩ := anySection_error hlen (by rw [hin]; exact hstop)
    refine ⟨(Module.header ++ w).length, e, rfl, ?_, ?_, ⟨Module.ofSections ss, ?_⟩, ?_, ?_, ?_⟩
    · rw [List.length_append, length_header]
      exact Nat.le_add_right _ _
    · have hpos : 0 < rest.length := List.length_pos_iff.mpr hne
      simp only [List.length_append]
      omega
    · rw [htake]
      exact decode_header_eq_ok.mpr ⟨_, hss, rfl⟩
    · exact Cursor.readAt_eq_error (by rw [hin]; exact hstop)
    · intro op offset hcause
      obtain ⟨hbyte, hvalid, hin⟩ := hop op offset hcause
      exact ⟨hin.lt_offset, hin.offset_lt, hbyte, hvalid, hin⟩
    · intro site tag offset hcause
      obtain ⟨hbyte, hlegal, hin⟩ := htag site tag offset hcause
      exact ⟨hin.lt_offset, hin.offset_lt, hbyte, hlegal, hin⟩

/-- A start section, and then a body with an opcode that has no meaning. -/
theorem decode_error_culprit_opcode :
    let b := Module.header ++ [8, 1, 0, 10, 5, 1, 3, 0, 0xff, 0x0b]
    (decode b).result = .error (.error ⟨[.position 11, .payloadOf .code, .item "code" 0], .invalidOpcode ⟨0xff⟩ 16⟩) ∧
      (∃ m, (decode (b.take 11)).result = .ok m) ∧ b[16]? = some 0xff ∧ InPayload b 11 16 := by
  intro b
  have hdecode : (decode b).result =
      .error (.error ⟨[.position 11, .payloadOf .code, .item "code" 0], .invalidOpcode ⟨0xff⟩ 16⟩) := rfl
  obtain ⟨pos, e, hf, _, _, hbefore, _, hop, _⟩ := decode_error_culprit (b := b) (by decide) (by decide) hdecode
  obtain ⟨rfl, rfl⟩ : pos = 11 ∧ e = ⟨[.payloadOf .code, .item "code" 0], .invalidOpcode ⟨0xff⟩ 16⟩ := by
    obtain ⟨contexts, cause⟩ := e
    cases hf
    exact ⟨rfl, rfl⟩
  obtain ⟨_, _, hbyte, _, hin⟩ := hop _ _ rfl
  exact ⟨hdecode, hbefore, hbyte, hin⟩

/-- The tag of a value type, in the parameters of a function type, is made of the low seven bits of its byte. -/
example : (decode (Module.header ++ [1, 5, 1, 0x60, 1, 0x80, 0])).result =
    .error (.error ⟨[.position 8, .payloadOf .types, .item "type" 0, .item "param" 0], .invalidTag .valueType 0 13⟩) := rfl

end WasmInspect
