import WasmInspect.Proofs.Outcome

/-!
# The trace of a module

The events that reading leaves are an account of what was read, also of what was read before an error. They come in blocks, one for each
section that begins: first that it begins, then its instructions one after the other, and then perhaps that its size is not what was
taken (`Account`). So the instructions are told of in the order of their places, each inside of the payload of the section that began last.

If a module was read, then the blocks are those of its sections, and their instructions are those of the payloads.
-/

namespace WasmInspect

open Reader Grammar

/-! ## Events -/

/-- The bytes that an event is about: those of an instruction, from a position up to another one. -/
def Event.range? : Event → Option (Nat × Nat)
  | .instruction pos _ code => some (pos, pos + code.length)
  | _ => none

/-- The section that begins with an event: its position and the size of its payload. -/
def Event.section? : Event → Option (Nat × Nat)
  | .sectionBegins _ pos size => some (pos, size)
  | _ => none

/-- The event is that of the instruction: its bytes alone, read from the start, are the instruction and nothing more. -/
def Event.Records (e : Event) (x : Instruction) : Prop :=
  ∃ pos code, e = .instruction pos x.op code ∧ Cursor.readAt Grammar.instruction code 0 = ⟨code.length, .ok x⟩

namespace Tells

variable {i : Input} {lo hi : Nat} {es : List Event} {xs : List Instruction}

/-- The bytes of an event stand in the input between the bounds, and they are an instruction. -/
theorem of_mem (h : Tells i lo es xs hi) {e : Event} (he : e ∈ es) :
    ∃ pos x code, e = .instruction pos x.op code ∧ Input.PartOf ⟨pos, code⟩ i ∧
      instruction.Gives .checked ⟨pos, code⟩ x ⟨pos + code.length, []⟩ ∧ lo ≤ pos ∧ pos + code.length ≤ hi := by
  induction h with
  | nil => cases he
  | @cons lo pos hi x code es xs hle hpart hx hrest ih =>
    rcases List.mem_cons.mp he with rfl | he
    · exact ⟨pos, x, code, rfl, hpart, hx, hle, hrest.le⟩
    · obtain ⟨pos', x', code', he', hpart', hx', hle', hhi⟩ := ih he
      exact ⟨pos', x', code', he', hpart', hx', by omega, hhi⟩

/-- The ranges of the events come one after the other. -/
theorem pairwise_range (h : Tells i lo es xs hi) : (es.filterMap Event.range?).Pairwise fun r r' => r.2 ≤ r'.1 := by
  induction h with
  | nil => exact List.Pairwise.nil
  | @cons lo pos hi x code es xs _ _ _ hrest ih =>
    refine List.pairwise_cons.mpr ⟨fun r hr => ?_, ih⟩
    obtain ⟨e, he, her⟩ := List.mem_filterMap.mp hr
    obtain ⟨pos', x', code', rfl, _, _, hle, _⟩ := hrest.of_mem he
    obtain rfl := Option.some.inj her
    exact hle

/-- No section begins in between. -/
theorem section?_eq_none (h : Tells i lo es xs hi) {e : Event} (he : e ∈ es) : e.section? = none := by
  obtain ⟨pos, x, code, rfl, _⟩ := h.of_mem he
  rfl

end Tells

/-- An instruction that is all of some bytes is read from these bytes at the start. -/
theorem readAt_zero_of_gives {pos : Nat} {x : Instruction} {code : Bytes} (hlen : pos + code.length < lengthBound)
    (h : instruction.Gives .checked ⟨pos, code⟩ x ⟨pos + code.length, []⟩) :
    Cursor.readAt instruction code 0 = ⟨code.length, .ok x⟩ := by
  have hmoves := moves_instruction (k := pos) .checked ⟨0, code⟩ (by simp only [Input.stop]; omega)
  have hinput : Input.moved pos ⟨0, code⟩ = ⟨pos, code⟩ := by rw [Input.moved, Nat.zero_add]
  rw [← hinput] at h
  obtain ⟨⟨lpos, lrest⟩, hl, hmoved⟩ := hmoves.gives h
  simp only [Input.moved, Input.mk.injEq] at hmoved
  obtain rfl : code.length = lpos := by omega
  exact Cursor.readAt_eq_ok_iff.mpr ⟨lrest, hl⟩

/-- The events are those of the instructions, one for each. -/
theorem Tells.records {i : Input} {lo hi : Nat} {es : List Event} {xs : List Instruction} (h : Tells i lo es xs hi)
    (hlen : i.stop < lengthBound) : List.Forall₂ Event.Records es xs := by
  induction h with
  | nil => exact List.Forall₂.nil
  | cons _ hpart hx _ ih =>
    refine List.Forall₂.cons ⟨_, _, rfl, readAt_zero_of_gives ?_ hx⟩ ih
    exact Nat.lt_of_le_of_lt hpart.inside.stop_le hlen

/-! ## Sections -/

/-- What a section at `pos` comes to, and what its events tell of. -/
inductive SectionOutcome (b : Bytes) (pos : Nat) : Outcome Section → Prop
  | missing {e : Stop} : SectionOutcome b pos ⟨[], .error e⟩
  | failed {id : SectionId} {size : Nat} {es : List Event} {xs : List Instruction} {e : Stop} :
      HeaderAt b pos id size → Tells ⟨0, b⟩ (payloadStart b pos) es xs (payloadStart b pos + size) →
      SectionOutcome b pos ⟨.sectionBegins id pos size :: es, .error e⟩
  | read {s : Section} {es : List Event} :
      HeaderAt b pos s.id s.size → Tells ⟨0, b⟩ (payloadStart b pos) es s.payload.instructions (payloadStart b pos + s.size) →
      SectionOutcome b pos
        ⟨s.events pos (payloadStart b pos) es, .ok (s, Input.at b (payloadStart b pos + s.size))⟩

section

variable {b : Bytes} {pos : Nat}

theorem sectionOutcome_anySection (hlen : b.length < lengthBound) (pos : Nat) :
    SectionOutcome b pos (anySection .checked (Input.at b pos)) := by
  rcases anySection_cases b pos hlen with ⟨e, he, _⟩ | ⟨id, size, h⟩
  · rw [he]
    exact .missing
  · have hreports := reports_payload id .checked (payloadAt b pos size)
    cases hp : (payload id .checked (payloadAt b pos size)).result with
    | error s =>
      obtain ⟨⟨xs, htells⟩, _⟩ := hreports.error s hp
      rw [h.stop_payloadAt] at htells
      rw [h.anySection_of_error hlen hp]
      exact .failed h (htells.of_part h.payloadAt_partOf)
    | ok v =>
      obtain ⟨a, j⟩ := v
      obtain ⟨hpart, xs, rfl, htells⟩ := hreports.gives a j hp
      have hstop : j.pos ≤ payloadStart b pos + size := by
        rw [← h.stop_payloadAt]
        exact hpart.inside.pos_le_stop
      rw [h.anySection_of_ok hlen hp]
      exact .read h ((htells.raise hstop).of_part h.payloadAt_partOf)

theorem events_sections_of_nil (h : (Input.at b pos).rest = []) : (sections .checked (Input.at b pos)).events = [] := by
  have hinput : Input.at b pos = ⟨pos, []⟩ := by
    rw [← h]
    rfl
  rw [hinput, sections_nil]

/-- The events of a stream whose first section fails are those of that section. -/
theorem events_sections_of_error {i : Input} {es : List Event} {e : Stop} (h : anySection .checked i = ⟨es, .error e⟩)
    (hne : i.rest ≠ []) : (sections .checked i).events = es := by
  have hlocated : located anySection .checked i = ⟨es, .error (e.within (.position e.pos))⟩ := by
    rw [located, h]
    rfl
  rw [sections_cons hne, bind_of_error hlocated]

/-- The events of a stream are those of its first section and then those of the rest. -/
theorem events_sections_of_ok {i j : Input} {es : List Event} {s : Section} (h : anySection .checked i = ⟨es, .ok (s, j)⟩)
    (hne : i.rest ≠ []) : (sections .checked i).events = es ++ (sections .checked j).events := by
  have hlocated : located anySection .checked i = ⟨es, .ok (s, j)⟩ := by
    rw [located, h]
    rfl
  rw [sections_cons hne, bind_of_ok hlocated, events_bind_pure]

end

/-! ## Accounts -/

/-- The events are an account of a stream of sections that starts at `pos`. Of each section that begins they tell first this, then its
instructions, and then only what is about neither. -/
inductive Account (b : Bytes) : (pos : Nat) → List Event → Prop
  | nil {pos : Nat} : Account b pos []
  | cons {pos size : Nat} {id : SectionId} {es closing rest : List Event} {xs : List Instruction} :
      Tells ⟨0, b⟩ (payloadStart b pos) es xs (payloadStart b pos + size) →
      (∀ e ∈ closing, e.range? = none ∧ e.section? = none) → Account b (payloadStart b pos + size) rest →
      Account b pos (.sectionBegins id pos size :: (es ++ (closing ++ rest)))

section

variable {b : Bytes} {pos : Nat} {events : List Event}

/-- The events of a stream are an account of it, also if it fails. -/
theorem account_sections (hlen : b.length < lengthBound) (pos : Nat) : Account b pos (sections .checked (Input.at b pos)).events := by
  -- by induction on the number of bytes that are left
  generalize hn : b.length - pos = n
  induction n using Nat.strongRecOn generalizing pos with
  | ind n ih =>
    by_cases hne : (Input.at b pos).rest = []
    · rw [events_sections_of_nil hne]
      exact .nil
    · have hpos : pos < b.length := by
        rw [Input.at, List.drop_eq_nil_iff] at hne
        omega
      have houtcome := sectionOutcome_anySection hlen pos
      generalize ho : anySection .checked (Input.at b pos) = o at houtcome
      cases houtcome with
      | missing =>
        rw [events_sections_of_error ho hne]
        exact .nil
      | @failed id size es xs e _ htells =>
        rw [events_sections_of_error ho hne]
        have haccount : Account b pos (.sectionBegins id pos size :: (es ++ ([] ++ []))) :=
          .cons htells (List.forall_mem_nil _) .nil
        simpa using haccount
      | @read s es _ htells =>
        have hstart := lt_payloadStart b pos
        have hrest := ih (b.length - (payloadStart b pos + s.size)) (by omega) _ rfl
        rw [events_sections_of_ok ho hne, Section.events, List.cons_append, List.append_assoc]
        refine .cons htells (fun e he => ?_) hrest
        split at he
        · cases he
        · obtain rfl := List.mem_singleton.mp he
          exact ⟨rfl, rfl⟩

/-- An account tells of no instruction before the stream. -/
theorem Account.le_range (h : Account b pos events) : ∀ r ∈ events.filterMap Event.range?, pos ≤ r.1 := by
  induction h with
  | nil => simp
  | @cons pos size id es closing rest xs htells hclosing _ ih =>
    intro r hr
    have hstart := lt_payloadStart b pos
    obtain ⟨e, he, her⟩ := List.mem_filterMap.mp hr
    simp only [List.mem_cons, List.mem_append] at he
    rcases he with rfl | he | he | he
    · cases her
    · obtain ⟨pos', x, code, rfl, _, _, hle, _⟩ := htells.of_mem he
      obtain rfl := Option.some.inj her
      exact Nat.le_of_lt (Nat.lt_of_lt_of_le hstart hle)
    · rw [(hclosing e he).1] at her
      cases her
    · have := ih r (List.mem_filterMap.mpr ⟨e, he, her⟩)
      omega

/-- The ranges of an account come one after the other. -/
theorem Account.pairwise_range (h : Account b pos events) : (events.filterMap Event.range?).Pairwise fun r r' => r.2 ≤ r'.1 := by
  induction h with
  | nil => exact List.Pairwise.nil
  | @cons pos size id es closing rest xs htells hclosing hrest ih =>
    have hnone : closing.filterMap Event.range? = [] := List.filterMap_eq_nil_iff.mpr fun e he => (hclosing e he).1
    rw [List.filterMap_cons_none rfl, List.filterMap_append, List.filterMap_append, hnone, List.nil_append]
    refine List.pairwise_append.mpr ⟨htells.pairwise_range, ih, fun r hr r' hr' => ?_⟩
    obtain ⟨e, he, her⟩ := List.mem_filterMap.mp hr
    obtain ⟨pos', x, code, rfl, _, _, _, hle⟩ := htells.of_mem he
    obtain rfl := Option.some.inj her
    exact Nat.le_trans hle (hrest.le_range r' hr')

/-- An element of two lists in a row is one of the first, or one of the second that comes after all of the first. -/
theorem append_eq_append_cons {α : Type} {a : α} {l l' before after : List α} (h : l ++ l' = before ++ a :: after) :
    (∃ rest, l = before ++ a :: rest) ∨ ∃ middle, before = l ++ middle ∧ l' = middle ++ a :: after := by
  rcases List.append_eq_append_iff.mp h with ⟨middle, hbefore, hl'⟩ | ⟨rest, hl, hrest⟩
  · exact Or.inr ⟨middle, hbefore, hl'⟩
  · cases rest with
    | nil => exact Or.inr ⟨[], by simpa using hl.symm, hrest.symm⟩
    | cons c rest =>
      obtain ⟨rfl, _⟩ := List.cons.inj hrest
      exact Or.inl ⟨rest, hl⟩

/-- An instruction of an account stands in the byte string, inside of the payload of the section that began last. -/
theorem Account.instruction_at (h : Account b pos events) {before after : List Event} {n : Nat} {op : Opcode} {code : Bytes}
    (he : events = before ++ .instruction n op code :: after) :
    ∃ x start size, x.op = op ∧ Input.PartOf ⟨n, code⟩ ⟨0, b⟩ ∧ instruction.Gives .checked ⟨n, code⟩ x ⟨n + code.length, []⟩ ∧
      (before.filterMap Event.section?).getLast? = some (start, size) ∧
      payloadStart b start ≤ n ∧ n + code.length ≤ payloadStart b start + size := by
  induction h generalizing before with
  | nil => simp at he
  | @cons pos size id es closing rest xs htells hclosing _ ih =>
    obtain ⟨before, rfl⟩ : ∃ l, before = .sectionBegins id pos size :: l := by
      cases before with
      | nil => cases he
      | cons e l => exact ⟨l, by rw [(List.cons.inj he).1]⟩
    rw [List.cons_append, List.cons.injEq] at he
    rcases append_eq_append_cons he.2 with ⟨l, hes⟩ | ⟨l, hbefore, hl⟩
    · -- the event is one of this section, which is the last one that began
      have hmem : Event.instruction n op code ∈ es := by
        rw [hes]
        exact List.mem_append_right _ List.mem_cons_self
      obtain ⟨n', x, code', heq, hpart, hgives, hlo, hhi⟩ := htells.of_mem hmem
      obtain ⟨rfl, rfl, rfl⟩ := Event.instruction.inj heq
      refine ⟨x, pos, size, rfl, hpart, hgives, ?_, hlo, hhi⟩
      have hnone : before.filterMap Event.section? = [] := by
        refine List.filterMap_eq_nil_iff.mpr fun e he => htells.section?_eq_none ?_
        rw [hes]
        exact List.mem_append_left _ he
      simp only [List.filterMap_cons, Event.section?, hnone, List.getLast?_singleton]
    · rcases append_eq_append_cons hl with ⟨l', hclose⟩ | ⟨l', rfl, hrest⟩
      · -- what closes a section is no instruction
        have hmem : Event.instruction n op code ∈ closing := by
          rw [hclose]
          exact List.mem_append_right _ List.mem_cons_self
        cases (hclosing _ hmem).1
      · -- the event is one of a later section
        obtain ⟨x, start, size', hx, hpart, hgives, hlast, hlo, hhi⟩ := ih hrest
        refine ⟨x, start, size', hx, hpart, hgives, ?_, hlo, hhi⟩
        rw [hbefore, ← List.append_assoc, ← List.cons_append, List.filterMap_append, List.getLast?_append, hlast]
        rfl

/-- The events of a stream that can be read are blocks, one for each section, which tell of its instructions. -/
theorem blocks_of_sections {ss : List Section} {k : Input} (hlen : b.length < lengthBound)
    (h : sections.Gives .checked (Input.at b pos) ss k) :
    ∃ blocks : List (List Event), (sections .checked (Input.at b pos)).events = blocks.flatten ∧ blocks.length = ss.length ∧
      ∀ (j : Nat) (s : Section), ss[j]? = some s → ∃ es, List.Forall₂ Event.Records es s.payload.instructions ∧
        blocks[j]? = some (s.events (boundaryFrom b pos ss j) (payloadStart b (boundaryFrom b pos ss j)) es) := by
  induction ss generalizing pos with
  | nil =>
    rcases gives_sections.mp h with ⟨hnil, _, _⟩ | ⟨_, _, _, _, hss, _, _⟩
    · exact ⟨[], events_sections_of_nil hnil, rfl, fun j s hj => by simp at hj⟩
    · cases hss
  | cons s ss ih =>
    rcases gives_sections.mp h with ⟨_, hss, _⟩ | ⟨_, _, l, hne, hss, hs, hrest⟩
    · cases hss
    · obtain ⟨rfl, rfl⟩ := List.cons.inj hss
      have houtcome := sectionOutcome_anySection hlen pos
      generalize ho : anySection .checked (Input.at b pos) = o at houtcome
      rw [Gives, ho] at hs
      cases houtcome with
      | missing => cases hs
      | failed => cases hs
      | @read t es _ htells =>
        obtain ⟨rfl, rfl⟩ : t = s ∧ Input.at b (payloadStart b pos + t.size) = l := by simpa using hs
        obtain ⟨blocks, hevents, hcount, hblocks⟩ := ih hrest
        refine ⟨t.events pos (payloadStart b pos) es :: blocks, ?_, ?_, ?_⟩
        · rw [events_sections_of_ok ho hne, hevents, List.flatten_cons]
        · rw [List.length_cons, List.length_cons, hcount]
        · intro j s hj
          cases j with
          | zero =>
            obtain rfl : t = s := by simpa using hj
            refine ⟨es, htells.records ?_, rfl⟩
            simpa [Input.stop] using hlen
          | succ j => exact hblocks j s (by simpa using hj)

end

/-! ## Modules -/

/-- The events of a module are those of a stream of sections after the header. If there is no header, then there are none. -/
theorem events_decode (b : Bytes) :
    (decode b).events = [] ∧ (∀ m, (decode b).result ≠ .ok m) ∨ (decode b).events = (sections .checked (Input.at b 8)).events := by
  unfold decode decodeWith
  rcases module_cases b with ⟨s, hs⟩ | ⟨s, rfl, hs⟩
  · rw [show Input.at b 0 = ⟨0, b⟩ from rfl, hs]
    exact Or.inl ⟨rfl, fun m hm => nomatch hm⟩
  · rw [show Input.at (Module.header ++ s) 0 = ⟨0, Module.header ++ s⟩ from rfl, hs]
    exact Or.inr events_bind_pure

/-- The events of whatever is read are an account of a stream after the header. -/
theorem account_decode {b : Bytes} (hlen : b.length < lengthBound) : Account b 8 (decode b).events := by
  rcases events_decode b with ⟨hevents, _⟩ | hevents
  · rw [hevents]
    exact .nil
  · rw [hevents]
    exact account_sections hlen 8

/-- If the topics of all events are shown, then all events are. -/
theorem Topics.select_eq_self {t : Topics} (hsection : t.shows "section" = true) (hopcode : t.shows "opcode" = true)
    (events : List Event) : t.select events = events := by
  refine List.filter_eq_self.mpr fun e _ => ?_
  cases e with
  | sectionBegins => exact hsection
  | sizeMismatch => exact hsection
  | instruction => exact hopcode

/-- The trace is a faithful account of reading, if the topics of its events are shown. The instructions are told of in the order of their
places, which do not overlap. Each of them, also before an error, has the bytes that stand at its position, inside of the payload of the
section that began last, and these bytes alone are read as an instruction of that opcode. If a module was read, then the trace is that of
its sections in order: each begins at its boundary, has one event for each of its instructions, and is closed by another one exactly
if it took another number of bytes than declared. -/
theorem decode_trace_faithful {b : Bytes} {t : Topics} (hlen : b.length < lengthBound) (hsection : t.shows "section" = true)
    (hopcode : t.shows "opcode" = true) :
    ((t.select (decode b).events).filterMap Event.range?).Pairwise (fun r r' => r.2 ≤ r'.1) ∧
    (∀ before pos op code after, t.select (decode b).events = before ++ .instruction pos op code :: after →
      0 < code.length ∧ (b.drop pos).take code.length = code ∧
      (∃ x, Cursor.readAt instruction code 0 = ⟨code.length, .ok x⟩ ∧ x.op = op) ∧
      ∃ start size, (before.filterMap Event.section?).getLast? = some (start, size) ∧
        payloadStart b start ≤ pos ∧ pos + code.length ≤ payloadStart b start + size) ∧
    ∀ m, (decode b).result = .ok m →
      ∃ blocks : List (List Event), t.select (decode b).events = blocks.flatten ∧ blocks.length = m.sections.length ∧
        ∀ (j : Nat) (s : Section), m.sections[j]? = some s → ∃ opcodes, List.Forall₂ Event.Records opcodes s.payload.instructions ∧
          blocks[j]? = some (s.events (m.boundary b j) (payloadStart b (m.boundary b j)) opcodes) := by
  rw [Topics.select_eq_self hsection hopcode]
  refine ⟨(account_decode hlen).pairwise_range, ?_, ?_⟩
  · intro before pos op code after he
    obtain ⟨x, start, size, hx, hpart, hgives, hlast, hlo, hhi⟩ := (account_decode hlen).instruction_at he
    have hpos := (takes_instruction.rest_length hgives).2
    have hstop : pos + code.length < lengthBound := by
      have := hpart.inside.stop_le
      simp only [Input.stop, Nat.zero_add] at this
      omega
    refine ⟨?_, hpart.take_drop, ⟨x, readAt_zero_of_gives hstop hgives, hx⟩, start, size, hlast, hlo, hhi⟩
    simp only at hpos
    omega
  · intro m hm
    obtain ⟨_, _, k, hss⟩ := sections_of_decode hm
    rcases events_decode b with ⟨_, hnot⟩ | hevents
    · exact absurd hm (hnot m)
    · rw [hevents]
      exact blocks_of_sections hlen hss

/-- A global variable, and a byte behind it that nothing reads. -/
theorem decode_trace_faithful_global :
    let b := Module.header ++ [6, 7, 1, 0x7f, 0, 0x41, 5, 0x0b, 0xff]
    let t : Topics := ⟨false, [⟨true, ["section", "opcode"]⟩]⟩
    t.select (decode b).events =
      [.sectionBegins .globals 8 7, .instruction 13 ⟨0x41⟩ [0x41, 5], .instruction 15 .blockEnd [0x0b],
        .sizeMismatch .globals 10 7 6] ∧
    (∃ x, Cursor.readAt instruction [0x41, 5] 0 = ⟨2, .ok x⟩ ∧ x.op = ⟨0x41⟩) ∧
    payloadStart b 8 ≤ 13 ∧ 15 ≤ payloadStart b 8 + 7 := by
  intro b t
  have hsection : t.shows "section" = true := by decide
  have hopcode : t.shows "opcode" = true := by decide
  have hevents : t.select (decode b).events =
      [.sectionBegins .globals 8 7, .instruction 13 ⟨0x41⟩ [0x41, 5], .instruction 15 .blockEnd [0x0b],
        .sizeMismatch .globals 10 7 6] := by
    rw [Topics.select_eq_self hsection hopcode]
    decide
  obtain ⟨_, _, hread, start, size, hlast, hlo, hhi⟩ :=
    (decode_trace_faithful (b := b) (t := t) (by decide) hsection hopcode).2.1 [.sectionBegins .globals 8 7] 13 ⟨0x41⟩ [0x41, 5] _ hevents
  obtain ⟨rfl, rfl⟩ := Prod.mk.inj (Option.some.inj hlast)
  exact ⟨hevents, hread, hlo, hhi⟩

end WasmInspect
