import WasmInspect.Encode
import WasmInspect.Proofs.Grammar.Moves
import WasmInspect.Proofs.Grammar.Takes
import WasmInspect.Proofs.Reader.Failure

/-!
# Streams of sections

After its header a module is a stream of sections. Two streams in a row are read as the first and then the second: the sections of the
first do not look into the second, and the second is read further on as at its own place. A failure in the second one is found, with all
its positions further on.
-/

namespace WasmInspect

namespace Grammar

open Reader

variable {p : CountPolicy} {i j : Input}

/-! ## One section after the other -/

/-- The fuel of a stream does not matter as long as there is some for each byte of it. -/
theorem sectionLoop_fuel {fuel fuel' : Bytes} (h : i.rest.length ≤ fuel.length) (h' : i.rest.length ≤ fuel'.length) :
    sectionLoop fuel p i = sectionLoop fuel' p i := by
  -- every section takes a byte, so the fuel of what is left is again enough
  induction fuel generalizing fuel' i with
  | nil =>
    obtain ⟨pos, rest⟩ := i
    obtain rfl : rest = [] := List.eq_nil_of_length_eq_zero (by simpa using h)
    cases fuel' <;> rfl
  | cons x fuel ih =>
    obtain ⟨pos, rest⟩ := i
    cases rest with
    | nil => cases fuel' <;> rfl
    | cons y rest =>
      cases fuel' with
      | nil => simp at h'
      | cons z fuel' =>
        refine bind_eq_bind rfl fun more j hmore => ?_
        obtain ⟨hroom, rfl⟩ := gives_hasRoom.mp hmore
        obtain rfl : more = true := by
          rw [← hroom]
          simp
        refine bind_eq_bind rfl fun s j hs => bind_eq_bind ?_ fun _ _ _ => rfl
        have hj := takes_anySection.rest_length (gives_located.mp hs)
        simp only [List.length_cons] at h h' hj
        exact ih (by omega) (by omega)

/-- An empty stream has no section. -/
theorem sections_nil (pos : Nat) : sections p ⟨pos, []⟩ = ⟨[], .ok ([], ⟨pos, []⟩)⟩ := rfl

/-- A stream that is not empty is a section and a stream. -/
theorem sections_cons (h : i.rest ≠ []) :
    sections p i = (located anySection >>= fun s => sections >>= fun ss => pure (s :: ss)) p i := by
  obtain ⟨pos, rest⟩ := i
  cases rest with
  | nil => exact absurd rfl h
  | cons x rest =>
    have hroom : hasRoom 1 p ⟨pos, x :: rest⟩ = (pure true : Reader Bool) p ⟨pos, x :: rest⟩ := by
      simp only [hasRoom, hasAtLeast_eq, List.length_cons, Nat.le_add_left, decide_true]
      rfl
    show sectionLoop (x :: rest) p ⟨pos, x :: rest⟩ = _
    rw [sectionLoop]
    refine Eq.trans (bind_eq_bind hroom fun _ _ _ => rfl) ?_
    show (located anySection >>= fun s => sectionLoop rest >>= fun ss => pure (s :: ss)) p ⟨pos, x :: rest⟩ = _
    refine bind_eq_bind rfl fun s j hs => bind_eq_bind ?_ fun _ _ _ => rfl
    have hj := takes_anySection.rest_length (gives_located.mp hs)
    simp only [List.length_cons] at hj
    exact sectionLoop_fuel (by omega) (Nat.le_refl _)

/-- A stream is read to its end: it is empty, or it is a section and a stream. -/
theorem gives_sections {ss : List Section} :
    sections.Gives p i ss j ↔
      (i.rest = [] ∧ ss = [] ∧ i = j) ∨
        ∃ s ss' k, i.rest ≠ [] ∧ ss = s :: ss' ∧ anySection.Gives p i s k ∧ sections.Gives p k ss' j := by
  by_cases h : i.rest = []
  · obtain ⟨pos, rest⟩ := i
    simp only at h
    subst h
    simp only [Gives, sections_nil, Except.ok.injEq, Prod.mk.injEq, ne_eq, not_true_eq_false, false_and, exists_false, or_false,
      true_and]
    constructor
    · rintro ⟨rfl, rfl⟩
      exact ⟨rfl, rfl⟩
    · rintro ⟨rfl, rfl⟩
      exact ⟨rfl, rfl⟩
  · have heq : sections.Gives p i ss j ↔
        (located anySection >>= fun s => sections >>= fun ss => pure (s :: ss)).Gives p i ss j := by
      rw [Gives, sections_cons h]
      rfl
    rw [heq]
    simp only [gives_bind, gives_located, gives_pure, h, false_and, false_or, ne_eq, not_false_eq_true, true_and]
    constructor
    · rintro ⟨s, k, hs, ss', _, hss, rfl, rfl⟩
      exact ⟨s, ss', k, rfl, hs, hss⟩
    · rintro ⟨s, ss', k, rfl, hs, hss⟩
      exact ⟨s, k, hs, ss', j, hss, rfl, rfl⟩

/-! ## Two streams in a row -/

/-- A stream after another one is read as at its own place, and its sections come after those of the first. -/
theorem result_sections_append {pos : Nat} {s₁ : Bytes} {ss : List Section} (h : sections.Gives p ⟨pos, s₁⟩ ss j) (s₂ : Bytes) :
    (sections p ⟨pos, s₁ ++ s₂⟩).result =
      (sections p ⟨pos + s₁.length, s₂⟩).result.map fun (ss', k) => (ss ++ ss', k) := by
  induction ss generalizing pos s₁ with
  | nil =>
    rcases gives_sections.mp h with ⟨hnil, _, _⟩ | ⟨_, _, _, _, hss, _, _⟩
    · simp only at hnil
      subst hnil
      rw [List.nil_append, List.length_nil, Nat.add_zero]
      cases (sections p ⟨pos, s₂⟩).result <;> rfl
    · cases hss
  | cons s ss ih =>
    rcases gives_sections.mp h with ⟨_, hss, _⟩ | ⟨_, _, k, hne, hss, hs, hrest⟩
    · cases hss
    · obtain ⟨rfl, rfl⟩ := List.cons.inj hss
      obtain ⟨w, _, hw, hk, hs'⟩ := takes_anySection _ _ _ _ hs
      simp only at hw hk
      subst hw
      have hne' : (⟨pos, w ++ k.rest ++ s₂⟩ : Input).rest ≠ [] := by
        simp only [ne_eq, List.append_eq_nil_iff] at hne ⊢
        exact fun h => hne h.1
      have hfirst : (located anySection).Gives p ⟨pos, w ++ k.rest ++ s₂⟩ s ⟨k.pos, k.rest ++ s₂⟩ := by
        rw [List.append_assoc]
        exact gives_located.mpr (hs' p (k.rest ++ s₂))
      rw [sections_cons hne', hfirst.result_bind, result_bind_pure, ih hrest, hk, List.length_append, Nat.add_assoc]
      cases (sections p ⟨pos + (w.length + k.rest.length), s₂⟩).result <;> rfl

/-- With a round for each byte a stream does not run out of rounds. -/
theorem movesAt_sectionLoop {k : Nat} {fuel : Bytes} (hi : i.stop + k < lengthBound) (hfuel : i.rest.length ≤ fuel.length) :
    MovesAt k (sectionLoop fuel) (sectionLoop fuel) p i := by
  induction fuel generalizing i with
  | nil =>
    refine (Moves.hasRoom 1 p i hi).bind fun more j hmore => ?_
    obtain ⟨hroom, rfl⟩ := gives_hasRoom.mp hmore
    obtain rfl : more = false := by
      rw [← hroom, decide_eq_false_iff_not]
      rw [List.length_nil] at hfuel
      omega
    exact Moves.pure [] p i hi
  | cons _ fuel ih =>
    refine (Moves.hasRoom 1 p i hi).bind fun more j hmore => ?_
    obtain ⟨_, rfl⟩ := gives_hasRoom.mp hmore
    cases more with
    | false => exact Moves.pure [] p i hi
    | true =>
      refine (moves_anySection.located p i hi).bind_below hi fun s j hs hstop => ?_
      have hj := takes_anySection.rest_length (gives_located.mp hs)
      rw [List.length_cons] at hfuel
      exact (ih hstop (by omega)).bind_moves hstop fun rest => Moves.pure _

/-- A stream is read further on as here. -/
theorem moves_sections {k : Nat} : Moves k sections sections := by
  intro p i hi
  refine (Moves.remaining p i hi).bind fun rest j hg => ?_
  obtain ⟨rfl, rfl⟩ := gives_remaining.mp hg
  exact movesAt_sectionLoop hi (Nat.le_refl _)

/-- A stream that fails does so in one of its sections, after a stream that can be read, and the failure says where that section starts. -/
theorem sections_eq_error {e : Stop} (h : (sections p i).result = .error e) :
    ∃ w ss k e', i.rest = w ++ k.rest ∧ k.pos = i.pos + w.length ∧ k.rest ≠ [] ∧ sections.Gives p ⟨i.pos, w⟩ ss ⟨k.pos, []⟩ ∧
      (anySection p k).result = .error e' ∧ e = e'.within (.position k.pos) := by
  -- by induction on the number of bytes, of which each section takes some
  generalize hn : i.rest.length = n
  induction n using Nat.strongRecOn generalizing i with
  | ind n ih =>
    obtain ⟨pos, rest⟩ := i
    by_cases hne : rest = []
    · subst hne
      rw [sections_nil] at h
      cases h
    · rw [sections_cons hne, result_bind_eq_error] at h
      rcases h with h | ⟨s, l, hs, h⟩
      · cases hr : (anySection p ⟨pos, rest⟩).result with
        | ok v => simp [located, hr, mapError_ok] at h
        | error e' =>
          simp only [located, hr, mapError_error, Except.error.injEq] at h
          rw [Restores.restoring _ p _ e' hr] at h
          exact ⟨[], [], ⟨pos, rest⟩, e', rfl, rfl, hne, rfl, hr, h.symm⟩
      · rw [result_bind_eq_error] at h
        rcases h with h | ⟨ss, o, _, h⟩
        · have hs := gives_located.mp hs
          obtain ⟨w, hw2, hw, hl, hs'⟩ := takes_anySection _ _ _ _ hs
          simp only at hw hl
          subst hw
          have hlt : l.rest.length < n := by
            rw [← hn, List.length_append]
            omega
          obtain ⟨v, ss, k, e', hv, hk, hkne, hss, he', he⟩ := ih _ hlt h rfl
          refine ⟨w ++ v, s :: ss, k, e', ?_, ?_, hkne, ?_, he', he⟩
          · simp only [hv, List.append_assoc]
          · rw [hk, hl, List.length_append, Nat.add_assoc]
          · refine gives_sections.mpr (Or.inr ⟨s, ss, ⟨l.pos, v⟩, ?_, rfl, hs' p v, hss⟩)
            intro hnil
            rw [(List.append_eq_nil_iff.mp hnil).1] at hw2
            exact absurd hw2 (by decide)
        · cases h

end Grammar

/-! ## Modules -/

/-- The eight bytes that every module starts with. -/
def Module.header : Bytes := Encode.header magicWord supportedVersion

/-- The module of a stream of sections. -/
def Module.ofSections (ss : List Section) : Module := ⟨magicWord, supportedVersion, ss⟩

open Reader Grammar

/-- After the header a module is a stream of sections. -/
theorem decode_header (s : Bytes) :
    (decode (Module.header ++ s)).result = (sections .checked ⟨8, s⟩).value.map Module.ofSections := by
  have hmagic : uint32.Gives .checked ⟨0, Module.header ++ s⟩ Module.magicWord ⟨4, [1, 0, 0, 0] ++ s⟩ := by
    simp only [uint32, word, gives_bind, gives_bytes, gives_pure]
    exact ⟨_, _, ⟨[0x00, 0x61, 0x73, 0x6d], _, ⟨by decide, rfl, rfl, rfl⟩, rfl, rfl⟩, by decide, rfl⟩
  have hversion : uint32.Gives .checked ⟨4, [1, 0, 0, 0] ++ s⟩ Module.supportedVersion ⟨8, s⟩ := by
    simp only [uint32, word, gives_bind, gives_bytes, gives_pure]
    exact ⟨_, _, ⟨[1, 0, 0, 0], _, ⟨by decide, rfl, rfl, rfl⟩, rfl, rfl⟩, by decide, rfl⟩
  have hmodule : (module .checked ⟨0, Module.header ++ s⟩).result =
      (sections .checked ⟨8, s⟩).result.map fun (ss, k) => (Module.ofSections ss, k) := by
    unfold module
    rw [(gives_located.mpr (gives_orElseFail.mpr hmagic)).result_bind]
    rw [(gives_located.mpr ((gives_ensure (u := ())).mpr ⟨by decide, rfl⟩)).result_bind]
    rw [(gives_located.mpr (gives_within.mpr hversion)).result_bind]
    rw [(gives_located.mpr ((gives_ensure (u := ())).mpr ⟨by decide, rfl⟩)).result_bind]
    exact result_bind_pure
  show (module .checked ⟨0, Module.header ++ s⟩).value = _
  rw [Outcome.value, hmodule, Outcome.value]
  cases (sections .checked ⟨8, s⟩).result <;> rfl

theorem length_header : Module.header.length = 8 := rfl

/-- A module is read when its stream of sections is. -/
theorem decode_header_eq_ok {s : Bytes} {m : Module} :
    (decode (Module.header ++ s)).result = .ok m ↔
      ∃ j, sections.Gives .checked ⟨8, s⟩ m.sections j ∧ m = Module.ofSections m.sections := by
  rw [decode_header, map_eq_ok]
  constructor
  · rintro ⟨ss, h, rfl⟩
    obtain ⟨j, hj⟩ := value_eq_ok.mp h
    exact ⟨j, hj, rfl⟩
  · rintro ⟨j, h, hm⟩
    exact ⟨m.sections, value_eq_ok.mpr ⟨j, h⟩, hm.symm⟩

/-- A stream that fails, `k` positions further on: it fails alike, in a section that starts so much further on, and every position in the
error is so much larger. -/
theorem sections_error_moved {pos k : Nat} {s : Bytes} {e : Stop} (hlen : pos + s.length + k < lengthBound)
    (h : (sections .checked ⟨pos, s⟩).result = .error e) :
    ∃ start contexts cause, e.failure = .error ⟨.position start :: contexts, cause⟩ ∧
      (sections .checked ⟨pos + k, s⟩).result =
        .error ⟨.error ⟨.position (start + k) :: contexts.map (Context.moved k), cause.moved k⟩, e.pos + k⟩ := by
  obtain ⟨hmoved, hfault, _⟩ := moves_sections (k := k) .checked ⟨pos, s⟩ hlen
  obtain ⟨_, _, l, e', _, _, _, _, _, rfl⟩ := sections_eq_error h
  obtain ⟨e', pos'⟩ := e'
  cases e' with
  | fault f => exact absurd h (hfault f pos')
  | error e' =>
    refine ⟨l.pos, e'.contexts, e'.cause, rfl, ?_⟩
    have hinput : Input.moved k ⟨pos, s⟩ = ⟨pos + k, s⟩ := rfl
    rw [← hinput, hmoved, Outcome.moved, h]
    rfl

/-- Reading is a homomorphism on streams of sections, failures included. After a stream that can be read, another one gives its sections
after those of the first; if it cannot be read, it fails for the same cause, with the position of the section that fails and the
offset in the cause larger by the length of the first stream. -/
theorem decode_append (s₁ s₂ : Bytes) (m₁ : Module) (hlen : (Module.header ++ s₁ ++ s₂).length < lengthBound)
    (h₁ : (decode (Module.header ++ s₁)).result = .ok m₁) :
    (∀ m₂, (decode (Module.header ++ s₂)).result = .ok m₂ →
      (decode (Module.header ++ s₁ ++ s₂)).result = .ok (Module.ofSections (m₁.sections ++ m₂.sections))) ∧
    ∀ e, (decode (Module.header ++ s₂)).result = .error e →
      ∃ pos contexts cause, e = .error ⟨.position pos :: contexts, cause⟩ ∧
        (decode (Module.header ++ s₁ ++ s₂)).result =
          .error (.error ⟨.position (pos + s₁.length) :: contexts.map (Context.moved s₁.length), cause.moved s₁.length⟩) := by
  simp only [List.length_append, length_header] at hlen
  obtain ⟨j, hs₁, _⟩ := decode_header_eq_ok.mp h₁
  have hjoin := result_sections_append hs₁ s₂
  rw [List.append_assoc]
  constructor
  · intro m₂ h₂
    obtain ⟨l, hs₂, _⟩ := decode_header_eq_ok.mp h₂
    have hmoved := (moves_sections (k := s₁.length) .checked ⟨8, s₂⟩ (by simp only [Input.stop]; omega)).moved
    simp only [Input.moved, Outcome.moved, show (sections .checked ⟨8, s₂⟩).result = _ from hs₂] at hmoved
    rw [decode_header, Outcome.value, hjoin, hmoved]
    rfl
  · intro e h₂
    obtain ⟨x, hx, rfl⟩ : ∃ x, (sections .checked ⟨8, s₂⟩).result = .error x ∧ x.failure = e := by
      rw [decode_header, Outcome.value] at h₂
      cases hs : (sections .checked ⟨8, s₂⟩).result with
      | ok v => simp [hs, Except.map, mapError_ok] at h₂
      | error x =>
        rw [hs] at h₂
        exact ⟨x, rfl, Except.error.inj h₂⟩
    obtain ⟨pos, contexts, cause, he', hs₂⟩ := sections_error_moved (k := s₁.length) (by omega) hx
    refine ⟨pos, contexts, cause, he', ?_⟩
    rw [decode_header, Outcome.value, hjoin, hs₂]
    rfl

/-- A start section before another one, and before a start section and a body with an opcode that has no meaning. -/
theorem decode_append_start_section :
    (decode (Module.header ++ [8, 1, 0] ++ [8, 1, 1])).result =
      .ok (Module.ofSections [⟨.start, 1, 1, .start 0⟩, ⟨.start, 1, 1, .start 1⟩]) ∧
    (decode (Module.header ++ [8, 1, 0] ++ [8, 1, 1, 10, 5, 1, 3, 0, 0xff, 0x0b])).result =
      .error (.error ⟨[.position 14, .payloadOf .code, .item "code" 0], .invalidOpcode ⟨0xff⟩ 19⟩) := by
  have hfirst : (decode (Module.header ++ [8, 1, 0])).result = .ok (Module.ofSections [⟨.start, 1, 1, .start 0⟩]) := rfl
  constructor
  · exact (decode_append [8, 1, 0] [8, 1, 1] _ (by decide) hfirst).1 (Module.ofSections [⟨.start, 1, 1, .start 1⟩]) rfl
  · obtain ⟨pos, contexts, cause, he, h⟩ :=
      (decode_append [8, 1, 0] [8, 1, 1, 10, 5, 1, 3, 0, 0xff, 0x0b] _ (by decide) hfirst).2
        (.error ⟨[.position 11, .payloadOf .code, .item "code" 0], .invalidOpcode ⟨0xff⟩ 16⟩) rfl
    cases he
    exact h

end WasmInspect
