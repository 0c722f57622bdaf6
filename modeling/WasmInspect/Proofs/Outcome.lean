import WasmInspect.Proofs.Grammar.Reports
import WasmInspect.Proofs.Layout

/-!
# What reading a section comes to

A section at a position of a byte string is read in one of three ways. Its header may be missing or declare more bytes than there
are: then nothing is reported, and the error is about no byte. Else it is reported that the section begins, the payload is read from the
bytes that the header declares, and the outcome is that of the payload: a failure in it, after the events on the way, or the section, with
one more event if the payload took another number of bytes than declared (`Section.events`).
-/

namespace WasmInspect

open Reader Grammar

/-! ## Headers -/

namespace Reader

variable {α β : Type} {r : Reader α}

/-- A reader without events, which fails only because the input ends. -/
def Plain (r : Reader α) : Prop :=
  ∀ p i, (∃ a j, r p i = ⟨[], .ok (a, j)⟩) ∨ ∃ e pos, r p i = ⟨[], .error ⟨.error e, pos⟩⟩ ∧ e.cause = .outOfBounds

namespace Plain

theorem bind_pure (h : Plain r) (f : α → β) : Plain (r >>= fun a => pure (f a)) := by
  intro p i
  rcases h p i with ⟨a, j, ha⟩ | ⟨e, pos, he, hc⟩
  · refine Or.inl ⟨f a, j, ?_⟩
    rw [bind_of_ok ha]
    rfl
  · exact Or.inr ⟨e, pos, bind_of_error he, hc⟩

theorem eq_of_gives (h : Plain r) {p : CountPolicy} {i j : Input} {a : α} (hg : r.Gives p i a j) : r p i = ⟨[], .ok (a, j)⟩ := by
  rcases h p i with ⟨b, k, hb⟩ | ⟨e, pos, he, _⟩
  · rw [Gives, hb, Except.ok.injEq] at hg
    rw [hb, hg]
  · rw [Gives, he] at hg
    cases hg

/-- Contexts and positions around an error leave a reader plain. -/
theorem mapError {r' : Reader α} (h : Plain r) (hr : ∀ p i, ∃ g, r' p i = ⟨(r p i).events, (r p i).result.mapError g⟩ ∧
    ∀ e pos, ∃ e' pos', g ⟨.error e, pos⟩ = ⟨.error e', pos'⟩ ∧ e'.cause = e.cause) : Plain r' := by
  intro p i
  obtain ⟨g, hr', hg⟩ := hr p i
  rcases h p i with ⟨a, j, ha⟩ | ⟨e, pos, he, hc⟩
  · refine Or.inl ⟨a, j, ?_⟩
    rw [hr', ha, mapError_ok]
  · obtain ⟨e', pos', hg', hc'⟩ := hg e pos
    refine Or.inr ⟨e', pos', ?_, hc'.trans hc⟩
    rw [hr', he, mapError_error, hg']

protected theorem restoring (h : Plain r) : Plain (restoring r) :=
  h.mapError fun _ i => ⟨_, rfl, fun e _ => ⟨e, i.pos, rfl, rfl⟩⟩

protected theorem within (h : Plain r) (c : Context) : Plain (within c r) :=
  h.mapError fun _ _ => ⟨_, rfl, fun e pos => ⟨e.within c, pos, rfl, rfl⟩⟩

end Plain

/-- A value that is only changed changes no event. -/
theorem events_bind_pure {f : α → β} {p : CountPolicy} {i : Input} :
    ((r >>= fun a => pure (f a)) p i).events = (r p i).events := by
  cases hr : r p i with
  | mk events result =>
    cases result with
    | error s => rw [bind_of_error hr]
    | ok v =>
      rw [bind_of_ok hr]
      exact List.append_nil _

/-- After a success without events the second reader decides the outcome. -/
theorem bind_of_silent {f : α → Reader β} {p : CountPolicy} {i j : Input} {a : α} (h : r p i = ⟨[], .ok (a, j)⟩) :
    (r >>= f) p i = f a p j := bind_of_ok h

end Reader

namespace Grammar

theorem plain_leb128 (bits : Nat) : Plain (leb128 bits) := by
  intro p i
  rw [leb128, groups_eq]
  cases Leb128.groups (Leb128.limit bits) i.rest with
  | none => exact Or.inr ⟨_, _, rfl, rfl⟩
  | some v => exact Or.inl ⟨_, _, rfl⟩

theorem plain_varuint (bits : Nat) : Plain (varuint bits) := ((plain_leb128 bits).bind_pure _).restoring

theorem plain_varuint7 : Plain varuint7 := (plain_varuint 7).bind_pure _

theorem plain_count : Plain count := ((plain_varuint 32).bind_pure _).bind_pure _

end Grammar

/-- The header of a section stands at a position: its id, then its size, and the payload that it declares is there. -/
structure HeaderAt (b : Bytes) (pos : Nat) (id : SectionId) (size : Nat) : Prop where
  hasId : varuint7.Gives .checked (Input.at b pos) id.byte (Input.at b (pos + 1))
  hasSize : count.Gives .checked (Input.at b (pos + 1)) size (Input.at b (payloadStart b pos))
  fits : payloadStart b pos + size ≤ b.length

/-- What is made of the payload of a section that starts at `start`; it is reported if the payload took another number of bytes than declared. -/
def sectionOf (id : SectionId) (size start : Nat) : Payload × Nat → Reader Section := fun (a, consumed) =>
  if consumed = size then pure ⟨id, size, consumed, a⟩
  else do
    log (.sizeMismatch id start size consumed)
    pure ⟨id, size, consumed, a⟩

theorem sectionOf_eq (id : SectionId) (size start : Nat) (a : Payload) (n : Nat) (p : CountPolicy) (i : Input) :
    sectionOf id size start (a, n) p i =
      ⟨if n = size then [] else [.sizeMismatch id start size n], .ok (⟨id, size, n, a⟩, i)⟩ := by
  by_cases hn : n = size
  · simp only [sectionOf, if_pos hn]
    rfl
  · simp only [sectionOf, if_neg hn]
    rfl

/-- The input of the payload that a header declares. -/
def payloadAt (b : Bytes) (pos size : Nat) : Input := ⟨payloadStart b pos, (b.drop (payloadStart b pos)).take size⟩

/-- The events of a section that was read at `pos`, from a payload that starts at `start`: the section begins, then those of its payload, and
it is reported if the payload took another number of bytes than declared. -/
def Section.events (s : Section) (pos start : Nat) (payload : List Event) : List Event :=
  .sectionBegins s.id pos s.size ::
    (payload ++ if s.consumed = s.size then [] else [.sizeMismatch s.id start s.size s.consumed])

section

variable {b : Bytes} {pos size : Nat} {id : SectionId}

/-- What is read after a place of a byte string leaves another place of it. -/
theorem Reader.Takes.at_eq {α : Type} {n : Nat} {r : Reader α} (h : Takes n r) {p : CountPolicy} {a : α} {j : Input}
    (hg : r.Gives p (Input.at b pos) a j) : j = Input.at b j.pos := by
  obtain ⟨w, _, hw, hj, _⟩ := h _ _ _ _ hg
  obtain ⟨jpos, jrest⟩ := j
  simp only [Input.at] at hw hj
  subst hj
  rw [Input.at, ← List.drop_drop, hw, List.drop_left]

namespace HeaderAt

/-- The size is read where the id ends. -/
theorem readAt_count (h : HeaderAt b pos id size) :
    Cursor.readAt count b (pos + 1 : Nat) = ⟨payloadStart b pos, .ok size⟩ :=
  Cursor.readAt_eq_ok_iff.mpr ⟨_, h.hasSize⟩

theorem length_payloadAt (h : HeaderAt b pos id size) : (payloadAt b pos size).rest.length = size := by
  have := h.fits
  rw [payloadAt, List.length_take, List.length_drop]
  omega

theorem stop_payloadAt (h : HeaderAt b pos id size) : (payloadAt b pos size).stop = payloadStart b pos + size := by
  rw [Input.stop, h.length_payloadAt, payloadAt]

/-- The payload is a part of the byte string. -/
theorem payloadAt_partOf (h : HeaderAt b pos id size) : (payloadAt b pos size).PartOf ⟨0, b⟩ := by
  have hpart := Input.PartOf.take (Input.at b (payloadStart b pos)) size
  have := h.fits
  exact hpart.trans (Input.partOf_at b (by omega))

/-- After the header it is reported that the section begins, and then the payload decides. A failure gives back where the section starts. -/
theorem anySection_eq (h : HeaderAt b pos id size) :
    anySection .checked (Input.at b pos) =
      let o := (within (.payloadOf id) (delimited size (payload id)) >>= sectionOf id size (payloadStart b pos))
        .checked (Input.at b (payloadStart b pos))
      ⟨.sectionBegins id pos size :: o.events, o.result.mapError fun s => { s with pos := pos }⟩ := by
  have hid : within (.part "section id") varuint7 .checked (Input.at b pos) = ⟨[], .ok (id.byte, Input.at b (pos + 1))⟩ :=
    plain_varuint7.within _ |>.eq_of_gives (gives_within.mpr h.hasId)
  have hsize : within (.sizeOf id) count .checked (Input.at b (pos + 1)) = ⟨[], .ok (size, Input.at b (payloadStart b pos))⟩ :=
    plain_count.within _ |>.eq_of_gives (gives_within.mpr h.hasSize)
  have hreaches : reaches size .checked (Input.at b (payloadStart b pos)) = ⟨[], .ok (true, Input.at b (payloadStart b pos))⟩ := by
    have hroom : size ≤ (Input.at b (payloadStart b pos)).rest.length := by
      have := h.fits
      rw [Input.at, List.length_drop]
      omega
    simp only [reaches, hasAtLeast_eq, hroom, decide_true, Bool.or_true]
  have hensure : ensure true (.malformed (.payloadTooLong id size)) .checked (Input.at b (payloadStart b pos)) =
      ⟨[], .ok ((), Input.at b (payloadStart b pos))⟩ := rfl
  have hposition : position .checked (Input.at b pos) = ⟨[], .ok (pos, Input.at b pos)⟩ := rfl
  unfold anySection restoring
  rw [bind_of_silent hposition, bind_of_silent hid, bind_of_silent hsize, bind_of_silent hreaches, bind_of_silent hensure]
  rfl

/-- The payload is read from the bytes that the header declares. -/
theorem delimited_eq (h : HeaderAt b pos id size) (hlen : b.length < lengthBound) :
    delimited size (payload id) .checked (Input.at b (payloadStart b pos)) =
      let o := payload id .checked (payloadAt b pos size)
      ⟨o.events, o.result.map fun (a, j) => ((a, j.pos - payloadStart b pos), Input.at b (payloadStart b pos + size))⟩ := by
  have hfits := h.fits
  have hholds : (Input.at b (payloadStart b pos)).holds size = true := by
    apply Input.holds_of_le
    · simp only [Input.stop, Input.at, List.length_drop]
      omega
    · simp only [Input.at, List.length_drop]
      omega
  unfold delimited
  rw [if_pos hholds]
  simp only [payloadAt, Input.at, List.drop_drop]

/-- A payload that fails: the events up to there, and the failure in the section's context. -/
theorem anySection_of_error (h : HeaderAt b pos id size) (hlen : b.length < lengthBound) {s : Stop}
    (hp : (payload id .checked (payloadAt b pos size)).result = .error s) :
    anySection .checked (Input.at b pos) =
      ⟨.sectionBegins id pos size :: (payload id .checked (payloadAt b pos size)).events,
        .error ⟨s.failure.within (.payloadOf id), pos⟩⟩ := by
  have hwithin : within (.payloadOf id) (delimited size (payload id)) .checked (Input.at b (payloadStart b pos)) =
      ⟨(payload id .checked (payloadAt b pos size)).events, .error (s.within (.payloadOf id))⟩ := by
    rw [within, h.delimited_eq hlen]
    simp only [hp]
    rfl
  rw [h.anySection_eq, bind_of_error hwithin]
  rfl

/-- A payload that is read: the section, and its events. -/
theorem anySection_of_ok (h : HeaderAt b pos id size) (hlen : b.length < lengthBound) {a : Payload} {j : Input}
    (hp : (payload id).Gives .checked (payloadAt b pos size) a j) :
    let s : Section := ⟨id, size, j.pos - payloadStart b pos, a⟩
    anySection .checked (Input.at b pos) =
      ⟨s.events pos (payloadStart b pos) (payload id .checked (payloadAt b pos size)).events,
        .ok (s, Input.at b (payloadStart b pos + size))⟩ := by
  have hwithin : within (.payloadOf id) (delimited size (payload id)) .checked (Input.at b (payloadStart b pos)) =
      ⟨(payload id .checked (payloadAt b pos size)).events,
        .ok ((a, j.pos - payloadStart b pos), Input.at b (payloadStart b pos + size))⟩ := by
    rw [within, h.delimited_eq hlen]
    simp only [show (payload id .checked (payloadAt b pos size)).result = _ from hp]
    rfl
  rw [h.anySection_eq, bind_of_ok hwithin, sectionOf_eq]
  rfl

end HeaderAt

/-- A declared payload that is longer than what is left is found out: the sum of a position and a size is a position. -/
theorem reaches_eq_false (hsize : size < UInt32.size) (hlen : b.length < lengthBound) (hpos : pos ≤ b.length)
    (h : ¬pos + size ≤ b.length) : reaches size .checked (Input.at b pos) = ⟨[], .ok (false, Input.at b pos)⟩ := by
  have hbound : ¬positionBound ≤ pos + size := by
    simp only [lengthBound, UInt32.size] at hlen hsize
    unfold positionBound
    omega
  have hroom : ¬size ≤ b.length - pos := by omega
  simp only [reaches, Input.at, hasAtLeast_eq, List.length_drop, hbound, hroom, decide_false, Bool.or_false]

/-- Where no section has its header, the error is about no byte, and nothing is reported. -/
theorem anySection_cases (b : Bytes) (pos : Nat) (hlen : b.length < lengthBound) :
    (∃ e, anySection .checked (Input.at b pos) = ⟨[], .error ⟨.error e, pos⟩⟩ ∧
      (e.cause = .outOfBounds ∨ e.cause = .malformedBody)) ∨
    ∃ id size, HeaderAt b pos id size := by
  have hposition : position .checked (Input.at b pos) = ⟨[], .ok (pos, Input.at b pos)⟩ := rfl
  unfold anySection restoring
  rw [bind_of_silent hposition]
  rcases plain_varuint7.within (.part "section id") .checked (Input.at b pos) with ⟨x, k, hid⟩ | ⟨e, _, he, hc⟩
  · rw [bind_of_silent hid]
    have hgives : varuint7.Gives .checked (Input.at b pos) x k := gives_within.mp (congrArg Outcome.result hid)
    obtain rfl : k = Input.at b (pos + 1) := by
      obtain ⟨y, _, hk⟩ := gives_varuint7_cons hgives
      rw [takes_varuint7.at_eq hgives, hk]
      rfl
    rcases plain_count.within (.sizeOf ⟨x⟩) .checked (Input.at b (pos + 1)) with ⟨size, l, hsize⟩ | ⟨e, _, he, hc⟩
    · rw [bind_of_silent hsize]
      have hgives' : count.Gives .checked (Input.at b (pos + 1)) size l := gives_within.mp (congrArg Outcome.result hsize)
      have hstart : payloadStart b pos = l.pos := by
        have hread : Cursor.readAt count b (pos + 1 : Nat) = ⟨l.pos, .ok size⟩ := Cursor.readAt_eq_ok_iff.mpr ⟨_, hgives'⟩
        rw [payloadStart, hread, Int.toNat_natCast]
      obtain rfl : l = Input.at b (payloadStart b pos) := by
        rw [hstart]
        exact takes_count.at_eq hgives'
      have hle : payloadStart b pos ≤ b.length := by
        have hrest := takes_count.rest_length hgives'
        simp only [Input.at, List.length_drop] at hrest
        omega
      by_cases hfits : payloadStart b pos + size ≤ b.length
      · exact Or.inr ⟨⟨x⟩, size, hgives, hgives', hfits⟩
      · have hreaches := reaches_eq_false (lt_of_gives_count hgives') hlen hle hfits
        refine Or.inl ⟨.malformed (.payloadTooLong ⟨x⟩ size), ?_, Or.inr rfl⟩
        rw [bind_of_silent hreaches]
        rfl
    · refine Or.inl ⟨e, ?_, Or.inl hc⟩
      rw [bind_of_error he]
      rfl
  · refine Or.inl ⟨e, ?_, Or.inl hc⟩
    rw [bind_of_error he]
    rfl

end

/-! ## Modules -/

namespace Reader

variable {α β : Type} {r : Reader α} {f : α → Reader β}

/-- A reader without events, however it ends. -/
def Silent (r : Reader α) : Prop := ∀ p i, (r p i).events = []

namespace Silent

protected theorem ensure (ok : Bool) (e : Error) : Silent (ensure ok e) := by
  intro p i
  cases ok <;> rfl

/-- After a silent reader there is nothing but its failure, or what the next reader comes to. -/
theorem bind_cases (h : Silent r) (f : α → Reader β) (p : CountPolicy) (i : Input) :
    (∃ s, (r >>= f) p i = ⟨[], .error s⟩) ∨ ∃ a j, r.Gives p i a j ∧ (r >>= f) p i = f a p j := by
  have hevents := h p i
  cases hr : r p i with
  | mk events result =>
    rw [hr] at hevents
    obtain rfl : events = [] := hevents
    cases result with
    | error s => exact Or.inl ⟨s, bind_of_error hr⟩
    | ok v => exact Or.inr ⟨v.1, v.2, congrArg Outcome.result hr, bind_of_silent hr⟩

protected theorem bind (h : Silent r) (hf : ∀ a, Silent (f a)) : Silent (r >>= f) := by
  intro p i
  rcases h.bind_cases f p i with ⟨s, hs⟩ | ⟨a, j, _, ha⟩
  · rw [hs]
  · rw [ha]
    exact hf a p j

end Silent

end Reader

theorem Grammar.silent_uint32 : Silent uint32 := by
  refine Silent.bind (Silent.bind (Silent.bind (fun _ _ => rfl) fun fits => ?_) fun _ _ _ => rfl) fun _ _ _ => rfl
  refine Silent.bind (Silent.ensure fits _) fun _ p i => ?_
  unfold slice
  split <;> rfl

/-- A module has no events unless it starts with the header, and then those of the stream of sections after it. -/
theorem module_cases (b : Bytes) :
    (∃ s, module .checked ⟨0, b⟩ = ⟨[], .error s⟩) ∨
    ∃ s, b = Module.header ++ s ∧
      module .checked ⟨0, b⟩ = (sections >>= fun ss => pure (Module.ofSections ss)) .checked ⟨8, s⟩ := by
  have hmagic : Silent (located (orElseFail (.ofCause .badMagic) uint32)) := silent_uint32
  have hversion : Silent (located (within (.part "version") uint32)) := silent_uint32
  have hensure : ∀ ok e, Silent (located (ensure ok e)) := Silent.ensure
  unfold module
  -- each of the four steps of the header fails, or goes on with what comes after it
  rcases hmagic.bind_cases _ .checked ⟨0, b⟩ with ⟨s, hs⟩ | ⟨magic, i, hgives, h1⟩
  · exact Or.inl ⟨s, hs⟩
  rcases (hensure _ _).bind_cases _ .checked i with ⟨s, hs⟩ | ⟨_, _, hok, h2⟩
  · exact Or.inl ⟨s, h1.trans hs⟩
  obtain ⟨heq, rfl⟩ := gives_ensure.mp (gives_located.mp hok)
  rcases hversion.bind_cases _ .checked i with ⟨s, hs⟩ | ⟨version, j, hgives', h3⟩
  · exact Or.inl ⟨s, (h1.trans h2).trans hs⟩
  rcases (hensure _ _).bind_cases _ .checked j with ⟨s, hs⟩ | ⟨_, _, hok', h4⟩
  · exact Or.inl ⟨s, ((h1.trans h2).trans h3).trans hs⟩
  obtain ⟨heq', rfl⟩ := gives_ensure.mp (gives_located.mp hok')
  obtain rfl := of_decide_eq_true heq
  obtain rfl := of_decide_eq_true heq'
  obtain ⟨hfirst, hi⟩ := rest_of_gives_uint32 (gives_orElseFail.mp (gives_located.mp hgives))
  obtain ⟨hsecond, hj⟩ := rest_of_gives_uint32 (gives_within.mp (gives_located.mp hgives'))
  obtain ⟨jpos, rest⟩ := j
  simp only at hfirst hi hsecond hj
  rw [hi] at hj
  subst hj
  refine Or.inr ⟨rest, ?_, ((h1.trans h2).trans h3).trans h4⟩
  rw [hfirst, hsecond, ← List.append_assoc]
  rfl

end WasmInspect
