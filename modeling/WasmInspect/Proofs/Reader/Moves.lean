import WasmInspect.Grammar.Number
import WasmInspect.Proofs.Reader.Success

/-!
# Readers at another place

The same bytes, `k` positions further on, are read alike: with the same value or the same failure, in which every position is larger by
`k`, and so are the positions in the trace. `Moves k r r'` says this of a reader `r` and a reader `r'` that stands for it further on; the two
differ where a position has become part of the reader. It also says that `r` never ends in a fault and stays inside of the input.

All of it is about inputs that end below `lengthBound`: further on, a position and a count may add up to no position at all.
-/

namespace WasmInspect

/-! ## What moving does -/

/-- An input that ends below this bound leaves room for any count after any of its positions. -/
def lengthBound : Nat := 0x4000000000000000

/-- The context, `k` positions further on. -/
def Context.moved (k : Nat) : Context → Context
  | .position pos => .position (pos + k)
  | .operand op pos => .operand op (pos + k)
  | .notEnd pos op => .notEnd (pos + k) op
  | .bodyEnds pos declared => .bodyEnds (pos + k) (declared + k)
  | c => c

/-- The cause, `k` positions further on: of the same kind, about the same tag or opcode. -/
def Cause.moved (k : Nat) : Cause → Cause
  | .invalidTag site tag offset => .invalidTag site tag (offset + k)
  | .invalidOpcode op offset => .invalidOpcode op (offset + k)
  | c => c

/-- The error, `k` positions further on. -/
def Error.moved (k : Nat) (e : Error) : Error := ⟨e.contexts.map (Context.moved k), e.cause.moved k⟩

/-- The failure, `k` positions further on. -/
def Failure.moved (k : Nat) : Failure → Failure
  | .error e => .error (e.moved k)
  | .fault f => .fault f

/-- The failure and the position with it, `k` positions further on. -/
def Stop.moved (k : Nat) (s : Stop) : Stop := ⟨s.failure.moved k, s.pos + k⟩

/-- The event, `k` positions further on. -/
def Event.moved (k : Nat) : Event → Event
  | .sectionBegins id pos size => .sectionBegins id (pos + k) size
  | .sizeMismatch id pos size consumed => .sizeMismatch id (pos + k) size consumed
  | .instruction pos op code => .instruction (pos + k) op code

/-- The same bytes, `k` positions further on. -/
def Input.moved (k : Nat) (i : Input) : Input := ⟨i.pos + k, i.rest⟩

/-- The position after the last byte of an input. -/
def Input.stop (i : Input) : Nat := i.pos + i.rest.length

theorem Input.stop_moved (k : Nat) (i : Input) : (i.moved k).stop = i.stop + k := Nat.add_right_comm _ _ _

/-- Bytes of an input below the bound end at a position. -/
theorem Input.holds_of_le {i : Input} {n : Nat} (hi : i.stop < lengthBound) (hn : n ≤ i.rest.length) : i.holds n = true := by
  refine Reader.holds_iff.mpr ⟨?_, hn⟩
  simp only [Input.stop, lengthBound] at hi
  unfold Grammar.positionBound
  omega

/-- The place `j` is not before `i`, and its input ends no later. -/
structure Input.Inside (j i : Input) : Prop where
  pos_le : i.pos ≤ j.pos
  stop_le : j.stop ≤ i.stop

theorem Input.Inside.refl (i : Input) : i.Inside i := ⟨Nat.le_refl _, Nat.le_refl _⟩

theorem Input.Inside.trans {i j l : Input} (h : l.Inside j) (h' : j.Inside i) : l.Inside i :=
  ⟨Nat.le_trans h'.pos_le h.pos_le, Nat.le_trans h.stop_le h'.stop_le⟩

/-- A place inside of an input is no further on than its end. -/
theorem Input.Inside.pos_le_stop {i j : Input} (h : j.Inside i) : j.pos ≤ i.pos + i.rest.length :=
  Nat.le_trans (Nat.le_add_right _ _) h.stop_le

/-- The outcome, `k` positions further on. -/
def Outcome.moved {α : Type} (k : Nat) (o : Outcome α) : Outcome α where
  events := o.events.map (Event.moved k)
  result := match o.result with
    | .ok (a, j) => .ok (a, j.moved k)
    | .error e => .error (e.moved k)

namespace Reader

variable {α β : Type} {k : Nat}

/-- On the input `i`, `r` ends without a fault and inside of the input, and `r'` does the same further on. -/
structure MovesAt (k : Nat) (r r' : Reader α) (p : CountPolicy) (i : Input) : Prop where
  moved : r' p (i.moved k) = (r p i).moved k
  noFault : ∀ f pos, (r p i).result ≠ .error ⟨.fault f, pos⟩
  inside : ∀ a j, r.Gives p i a j → j.Inside i

/-- `r'` reads `k` positions further on what `r` reads, on every input that ends below the bound even there. -/
def Moves (k : Nat) (r r' : Reader α) : Prop := ∀ p i, i.stop + k < lengthBound → MovesAt k r r' p i

/-- Only the outcomes on the two inputs count. -/
theorem MovesAt.congr {r r' s s' : Reader α} {p : CountPolicy} {i : Input} (h : MovesAt k r r' p i) (hs : s p i = r p i)
    (hs' : s' p (i.moved k) = r' p (i.moved k)) : MovesAt k s s' p i := by
  refine ⟨?_, ?_, ?_⟩
  · rw [hs', hs]
    exact h.moved
  · rw [hs]
    exact h.noFault
  · intro a j hg
    rw [Gives, hs] at hg
    exact h.inside a j hg

/-- A success further on is one here. -/
theorem MovesAt.gives {r r' : Reader α} {p : CountPolicy} {i j : Input} {a : α} (h : MovesAt k r r' p i)
    (hg : r'.Gives p (i.moved k) a j) : ∃ l, r.Gives p i a l ∧ j = l.moved k := by
  rw [Gives, h.moved, Outcome.moved] at hg
  cases hr : (r p i).result with
  | error e => simp [hr] at hg
  | ok v =>
    obtain ⟨b, l⟩ := v
    simp only [hr, Except.ok.injEq, Prod.mk.injEq] at hg
    obtain ⟨rfl, rfl⟩ := hg
    exact ⟨l, hr, rfl⟩

/-! ## Readers that take nothing -/

/-- A reader that gives a value and leaves the input as it is. -/
theorem MovesAt.of_ok {r r' : Reader α} {p : CountPolicy} {i j : Input} {a : α} (h : r p i = ⟨[], .ok (a, j)⟩)
    (h' : r' p (i.moved k) = ⟨[], .ok (a, j.moved k)⟩) (hj : j.Inside i) : MovesAt k r r' p i := by
  refine ⟨?_, ?_, ?_⟩
  · rw [h, h']
    rfl
  · intro f pos hf
    rw [h] at hf
    cases hf
  · intro b l hb
    rw [Gives, h] at hb
    obtain ⟨rfl, rfl⟩ := Prod.mk.inj (Except.ok.inj hb)
    exact hj

/-- A reader that fails with an error. -/
theorem MovesAt.of_error {r r' : Reader α} {p : CountPolicy} {i : Input} {e : Error} (h : r p i = ⟨[], .error ⟨.error e, i.pos⟩⟩)
    (h' : r' p (i.moved k) = ⟨[], .error ⟨.error (e.moved k), i.pos + k⟩⟩) : MovesAt k r r' p i := by
  refine ⟨?_, ?_, ?_⟩
  · rw [h, h']
    rfl
  · intro f pos hf
    rw [h] at hf
    cases hf
  · intro b l hb
    rw [Gives, h] at hb
    cases hb

namespace Moves

protected theorem pure (a : α) : Moves k (pure a : Reader α) (pure a) :=
  fun _ i _ => .of_ok rfl rfl (.refl i)

protected theorem fail {e e' : Error} (h : e' = e.moved k) : Moves k (fail e : Reader α) (fail e') := by
  intro p i _
  exact .of_error rfl (by rw [h]; rfl)

protected theorem ensure (ok : Bool) {e e' : Error} (h : e' = e.moved k) : Moves k (ensure ok e) (ensure ok e') := by
  cases ok with
  | false => exact Moves.fail h
  | true => exact Moves.pure ()

protected theorem remaining : Moves k remaining remaining :=
  fun _ i _ => .of_ok rfl rfl (.refl i)

protected theorem hasRoom (n : Nat) : Moves k (hasRoom n) (hasRoom n) :=
  fun _ i _ => .of_ok rfl rfl (.refl i)

protected theorem admits (n : Nat) : Moves k (admits n) (admits n) :=
  fun _ i _ => .of_ok rfl rfl (.refl i)

/-- No sum of a position below the bound and a 32-bit word is past all positions. -/
protected theorem reaches {n : Nat} (hn : n < UInt32.size) : Moves k (reaches n) (reaches n) := by
  intro p i hi
  simp only [Input.stop, lengthBound, UInt32.size] at hi hn
  have hpos : ¬Grammar.positionBound ≤ i.pos + n := by
    unfold Grammar.positionBound
    omega
  have hpos' : ¬Grammar.positionBound ≤ i.pos + k + n := by
    unfold Grammar.positionBound
    omega
  refine .of_ok (a := i.rest.hasAtLeast n) (j := i) ?_ ?_ (.refl i)
  · simp only [reaches, hpos, decide_false, Bool.false_or]
  · simp only [reaches, Input.moved, hpos', decide_false, Bool.false_or]

protected theorem log {e e' : Event} (h : e' = e.moved k) : Moves k (log e) (log e') := by
  intro p i _
  refine ⟨?_, ?_, ?_⟩
  · rw [h]
    rfl
  · intro f pos hf
    cases hf
  · intro u j hg
    rw [← gives_log.mp hg]
    exact .refl i

end Moves

/-! ## Readers made of readers -/

protected theorem MovesAt.bind {r r' : Reader α} {f f' : α → Reader β} {p : CountPolicy} {i : Input}
    (h : MovesAt k r r' p i) (hf : ∀ a j, r.Gives p i a j → MovesAt k (f a) (f' a) p j) :
    MovesAt k (r >>= f) (r' >>= f') p i := by
  show MovesAt k (Reader.bind r f) (Reader.bind r' f') p i
  cases hr : (r p i).result with
  | error e =>
    refine ⟨?_, ?_, ?_⟩
    · simp only [Reader.bind, h.moved, Outcome.moved, hr]
    · intro x pos hx
      simp only [Reader.bind, hr, Except.error.injEq] at hx
      exact h.noFault x pos (by rw [hr, hx])
    · intro b l hb
      simp [Gives, Reader.bind, hr] at hb
  | ok v =>
    obtain ⟨a, j⟩ := v
    have ha := hf a j hr
    refine ⟨?_, ?_, ?_⟩
    · simp only [Reader.bind, h.moved, Outcome.moved, hr, ha.moved, List.map_append]
    · intro x pos
      simp only [Reader.bind, hr]
      exact ha.noFault x pos
    · intro b l hb
      simp only [Gives, Reader.bind, hr] at hb
      exact (ha.inside b l hb).trans (h.inside a j hr)

/-- What is left after a reader that moves ends below the bound too. -/
theorem MovesAt.bind_below {r r' : Reader α} {f f' : α → Reader β} {p : CountPolicy} {i : Input} (h : MovesAt k r r' p i)
    (hi : i.stop + k < lengthBound)
    (hf : ∀ a j, r.Gives p i a j → j.stop + k < lengthBound → MovesAt k (f a) (f' a) p j) : MovesAt k (r >>= f) (r' >>= f') p i := by
  refine h.bind fun a j hg => hf a j hg ?_
  have := (h.inside a j hg).stop_le
  omega

/-- After a reader that moves on this input, one that moves on every input. -/
theorem MovesAt.bind_moves {r r' : Reader α} {f f' : α → Reader β} {p : CountPolicy} {i : Input} (h : MovesAt k r r' p i)
    (hi : i.stop + k < lengthBound) (hf : ∀ a, Moves k (f a) (f' a)) : MovesAt k (r >>= f) (r' >>= f') p i :=
  h.bind_below hi fun a j _ hj => hf a p j hj

/-- A reader that only changes errors moves if the changed errors do. -/
theorem MovesAt.mapError {r r' s s' : Reader α} {p : CountPolicy} {i : Input} (h : MovesAt k r r' p i) {g g' : Stop → Stop}
    (hs : s p i = ⟨(r p i).events, (r p i).result.mapError g⟩)
    (hs' : s' p (i.moved k) = ⟨(r' p (i.moved k)).events, (r' p (i.moved k)).result.mapError g'⟩)
    (hg : ∀ e pos, ∃ e' pos', g ⟨.error e, pos⟩ = ⟨.error e', pos'⟩ ∧ g' (Stop.moved k ⟨.error e, pos⟩) = Stop.moved k ⟨.error e', pos'⟩) :
    MovesAt k s s' p i := by
  obtain ⟨hm, hn, hin⟩ := h
  rw [hm, Outcome.moved] at hs'
  cases hr : (r p i).result with
  | ok v =>
    rw [hr, mapError_ok] at hs
    simp only [hr, mapError_ok] at hs'
    refine ⟨?_, ?_, ?_⟩
    · rw [hs', hs]
      rfl
    · intro f pos hf
      rw [hs] at hf
      cases hf
    · intro a j hj
      rw [Gives, hs] at hj
      exact hin a j (hr.trans hj)
  | error x =>
    obtain ⟨e, pos⟩ := x
    cases e with
    | fault f => exact absurd hr (hn f pos)
    | error e =>
      obtain ⟨e', pos', he, he'⟩ := hg e pos
      rw [hr, mapError_error, he] at hs
      simp only [hr, mapError_error, he'] at hs'
      refine ⟨?_, ?_, ?_⟩
      · rw [hs', hs]
        rfl
      · intro f pos hf
        rw [hs] at hf
        cases hf
      · intro a j hj
        rw [Gives, hs] at hj
        cases hj

protected theorem MovesAt.within {c c' : Context} {r r' : Reader α} {p : CountPolicy} {i : Input} (h : MovesAt k r r' p i)
    (hc : c' = c.moved k) : MovesAt k (within c r) (within c' r') p i := by
  refine h.mapError rfl rfl fun e pos => ⟨e.within c, pos, rfl, ?_⟩
  rw [hc]
  rfl

namespace Moves

protected theorem bind {r r' : Reader α} {f f' : α → Reader β} (h : Moves k r r') (hf : ∀ a, Moves k (f a) (f' a)) :
    Moves k (r >>= f) (r' >>= f') :=
  fun p i hi => (h p i hi).bind_moves hi hf

/-- The second reader only has to move for the values that the first one gives. -/
protected theorem bind_of_gives {r r' : Reader α} {f f' : α → Reader β} (h : Moves k r r')
    (hf : ∀ p i a j, r.Gives p i a j → Moves k (f a) (f' a)) : Moves k (r >>= f) (r' >>= f') :=
  fun p i hi => (h p i hi).bind_below hi fun a j hg hj => hf p i a j hg p j hj

/-- A position that the reader asks for is larger further on. -/
protected theorem bind_position {f f' : Nat → Reader α} (h : ∀ x, Moves k (f x) (f' (x + k))) :
    Moves k (position >>= f) (position >>= f') :=
  fun p i hi => (h i.pos p i hi).congr rfl rfl

protected theorem map {r r' : Reader α} (h : Moves k r r') (f : α → β) : Moves k (f <$> r) (f <$> r') :=
  Moves.bind h fun _ => Moves.pure _

protected theorem ite {c : Prop} [Decidable c] {r r' s s' : Reader α} (h : c → Moves k r r') (h' : ¬c → Moves k s s') :
    Moves k (if c then r else s) (if c then r' else s') := by
  by_cases hc : c
  · rw [if_pos hc, if_pos hc]
    exact h hc
  · rw [if_neg hc, if_neg hc]
    exact h' hc

protected theorem within {c c' : Context} {r r' : Reader α} (h : Moves k r r') (hc : c' = c.moved k) :
    Moves k (within c r) (within c' r') :=
  fun p i hi => (h p i hi).within hc

protected theorem restoring {r r' : Reader α} (h : Moves k r r') : Moves k (restoring r) (restoring r') :=
  fun p i hi => (h p i hi).mapError rfl rfl fun e _ => ⟨e, i.pos, rfl, rfl⟩

protected theorem located {r r' : Reader α} (h : Moves k r r') : Moves k (located r) (located r') :=
  fun p i hi => (h p i hi).mapError rfl rfl fun e pos => ⟨e.within (.position pos), pos, rfl, rfl⟩

protected theorem orElseFail {e e' : Error} {r r' : Reader α} (h : Moves k r r') (he : e' = e.moved k) :
    Moves k (orElseFail e r) (orElseFail e' r') := by
  intro p i hi
  refine (h p i hi).mapError rfl rfl fun _ pos => ⟨e, pos, rfl, ?_⟩
  rw [he]
  rfl

/-- After a check that takes nothing, a reader only has to move where the check is passed. -/
theorem guarded {check : Reader Bool} {e e' : Error} {r r' : Reader α} (hc : Moves k check check)
    (hidle : ∀ p i ok j, check.Gives p i ok j → i = j) (he : e' = e.moved k)
    (h : ∀ p i, i.stop + k < lengthBound → check.Gives p i true i → MovesAt k r r' p i) :
    Moves k (check >>= fun fits => ensure fits e >>= fun _ => r) (check >>= fun fits => ensure fits e' >>= fun _ => r') := by
  intro p i hi
  refine (hc p i hi).bind fun fits j hg => ?_
  obtain rfl := hidle p i fits j hg
  refine (Moves.ensure fits he p i hi).bind fun _ j hok => ?_
  obtain ⟨rfl, rfl⟩ := gives_ensure.mp hok
  exact h p i hi hg

end Moves

/-- What is made of the value and of the distance between two places does not depend on where these are. -/
theorem MovesAt.map_outcome {r r' : Reader α} {p : CountPolicy} {i : Input} (h : MovesAt k r r' p i)
    {g : Input → α × Input → β × Input} {s s' : Reader β}
    (hs : s p i = ⟨(r p i).events, (r p i).result.map (g i)⟩)
    (hs' : s' p (i.moved k) = ⟨(r' p (i.moved k)).events, (r' p (i.moved k)).result.map (g (i.moved k))⟩)
    (hg : ∀ a j, g (i.moved k) (a, j.moved k) = ((g i (a, j)).1, (g i (a, j)).2.moved k))
    (hin : ∀ a j, j.Inside i → (g i (a, j)).2.Inside i) : MovesAt k s s' p i := by
  obtain ⟨hm, hn, hle⟩ := h
  rw [Outcome.moved] at hm
  cases hr : (r p i).result with
  | ok v =>
    obtain ⟨a, j⟩ := v
    refine ⟨?_, ?_, ?_⟩
    · rw [hs', hm, hs]
      simp only [Outcome.moved, hr, Except.map, hg]
    · intro f pos hf
      rw [hs, hr] at hf
      cases hf
    · intro b l hb
      rw [Gives, hs, hr] at hb
      have heq := Except.ok.inj hb
      have := hin a j (hle a j hr)
      rw [heq] at this
      exact this
  | error e =>
    refine ⟨?_, ?_, ?_⟩
    · rw [hs', hm, hs]
      simp only [Outcome.moved, hr, Except.map]
    · intro f pos hf
      rw [hs, hr] at hf
      exact hn f pos (by rw [hr, Except.error.inj hf])
    · intro b l hb
      rw [Gives, hs, hr] at hb
      cases hb

/-- Where a reader stays inside of the input, the input can be cut where it ends. -/
theorem cut_eq {r : Reader α} {p : CountPolicy} {i : Input} {g : α → Input → Bytes × Bytes → β × Input}
    (h : ∀ a j, r.Gives p i a j → i.pos ≤ j.pos ∧ j.pos ≤ i.pos + i.rest.length) :
    (do
      let (a, j) ← (r p i).result
      let c ← i.splitAt j.pos
      pure (g a j c)) =
      (r p i).result.map fun (a, j) => g a j (i.rest.take (j.pos - i.pos), i.rest.drop (j.pos - i.pos)) := by
  cases hr : (r p i).result with
  | error e => rfl
  | ok v =>
    obtain ⟨a, j⟩ := v
    obtain ⟨h1, h2⟩ := h a j hr
    have hcut := splitAt_eq_ok.mpr ⟨h1, h2, rfl, rfl⟩
    simp only [Bind.bind, Except.bind, hcut, Except.map]
    rfl

/-- A reader that stays inside of the input does so further on. -/
theorem MovesAt.inside_moved {r r' : Reader α} {p : CountPolicy} {i : Input} (h : MovesAt k r r' p i) (a : α) (j : Input)
    (hg : r'.Gives p (i.moved k) a j) : (i.moved k).pos ≤ j.pos ∧ j.pos ≤ (i.moved k).pos + (i.moved k).rest.length := by
  obtain ⟨l, hl, rfl⟩ := h.gives hg
  have h1 := (h.inside a l hl).pos_le
  have h2 := (h.inside a l hl).pos_le_stop
  simp only [Input.moved]
  omega

namespace Moves

protected theorem measured {r r' : Reader α} (h : Moves k r r') : Moves k (measured r) (measured r') := by
  intro p i hi
  refine (h p i hi).map_outcome (g := fun i (a, j) => ((a, j.pos - i.pos), j)) rfl rfl ?_ fun _ _ hin => hin
  intro a j
  simp only [Input.moved, Nat.add_sub_add_right]

protected theorem captured {r r' : Reader α} (h : Moves k r r') : Moves k (captured r) (captured r') := by
  intro p i hi
  have hr := h p i hi
  refine hr.map_outcome (g := fun i (a, j) => ((a, i.rest.take (j.pos - i.pos)), j)) ?_ ?_ ?_ fun _ _ hin => hin
  · rw [captured, cut_eq (g := fun a j c => ((a, c.1), j)) fun a j hg => ⟨(hr.inside a j hg).pos_le, (hr.inside a j hg).pos_le_stop⟩]
  · rw [captured, cut_eq (g := fun a j c => ((a, c.1), j)) hr.inside_moved]
  · intro a j
    simp only [Input.moved, Nat.add_sub_add_right]

protected theorem followed {r r' : Reader α} (h : Moves k r r') : Moves k (followed r) (followed r') := by
  intro p i hi
  have hr := h p i hi
  refine hr.map_outcome (g := fun i (a, j) => ((a, i.rest.drop (j.pos - i.pos)), ⟨i.pos + i.rest.length, []⟩)) ?_ ?_ ?_ ?_
  · rw [followed, cut_eq (g := fun a _ c => ((a, c.2), ⟨i.pos + i.rest.length, []⟩))
      fun a j hg => ⟨(hr.inside a j hg).pos_le, (hr.inside a j hg).pos_le_stop⟩]
  · rw [followed, cut_eq (g := fun a _ c => ((a, c.2), ⟨(i.moved k).pos + (i.moved k).rest.length, []⟩)) hr.inside_moved]
  · intro a j
    simp only [Input.moved, Nat.add_sub_add_right, Nat.add_right_comm]
  · intro a j _
    exact ⟨Nat.le_add_right _ _, Nat.le_refl _⟩

protected theorem entries (name : String) {r r' : Reader α} (h : Moves k r r') (n m : Nat) :
    Moves k (entries name r n m) (entries name r' n m) := by
  induction n generalizing m with
  | zero => exact Moves.pure []
  | succ n ih =>
    refine Moves.bind (h.within rfl) fun x => ?_
    exact Moves.bind (ih (m + 1)) fun xs => Moves.pure _

end Moves

/-- A part of the input is read further on as here. -/
protected theorem MovesAt.delimited {n : Nat} {r r' : Reader α} {p : CountPolicy} {i : Input} (hi : i.stop + k < lengthBound)
    (hn : n ≤ i.rest.length) (h : MovesAt k r r' p ⟨i.pos, i.rest.take n⟩) :
    MovesAt k (delimited n r) (delimited n r') p i := by
  have hholds : i.holds n = true := Input.holds_of_le (by omega) hn
  have hholds' : (i.moved k).holds n = true := Input.holds_of_le (by rwa [Input.stop_moved]) hn
  obtain ⟨hm, hf, hle⟩ := h
  refine ⟨?_, ?_, ?_⟩
  · have hin : (⟨(i.moved k).pos, (i.moved k).rest.take n⟩ : Input) = Input.moved k ⟨i.pos, i.rest.take n⟩ := rfl
    simp only [Reader.delimited, hholds, hholds', if_true]
    rw [hin, hm]
    simp only [Outcome.moved, Input.moved]
    cases (r p ⟨i.pos, i.rest.take n⟩).result with
    | ok v => simp only [Except.map, Nat.add_sub_add_right, Nat.add_right_comm]
    | error e => rfl
  · intro f pos hr
    simp only [Reader.delimited, hholds, if_true] at hr
    cases hrr : (r p ⟨i.pos, i.rest.take n⟩).result with
    | ok v => simp [hrr, Except.map] at hr
    | error e =>
      rw [hrr] at hr
      exact hf f pos (by rw [hrr, Except.error.inj hr])
  · rintro ⟨a, m⟩ j hg
    obtain ⟨_, _, _, _, rfl⟩ := gives_delimited.mp hg
    refine ⟨Nat.le_add_right _ _, ?_⟩
    simp only [Input.stop, List.length_drop]
    omega

end Reader

end WasmInspect
