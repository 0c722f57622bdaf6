import WasmInspect.Reader

/-!
# When a reader succeeds

`Gives r p i a j` says that the reader `r`, under the policy `p`, takes the value `a` off the input `i` and leaves the input `j`.
There is one equivalence for each way to build a reader. With them a success of a composed reader is taken apart into successes
of its parts, and put together from these.
-/

namespace WasmInspect.Reader

variable {α β : Type} {p : CountPolicy} {i j : Input}

/-- Under the policy `p` the reader takes `a` off the input `i` and leaves `j`. -/
def Gives (r : Reader α) (p : CountPolicy) (i : Input) (a : α) (j : Input) : Prop := (r p i).result = .ok (a, j)

/-! ## The steps of a reader -/

@[simp] theorem gives_pure {a b : α} : (pure a : Reader α).Gives p i b j ↔ a = b ∧ i = j := by
  show Except.ok (a, i) = Except.ok (b, j) ↔ _
  rw [Except.ok.injEq, Prod.mk.injEq]

/-- A reader that goes on succeeds when its two parts do, one after the other. -/
@[simp] theorem gives_bind {r : Reader α} {f : α → Reader β} {b : β} :
    (r >>= f).Gives p i b j ↔ ∃ a k, r.Gives p i a k ∧ (f a).Gives p k b j := by
  show (Reader.bind r f p i).result = _ ↔ _
  unfold Reader.bind Gives
  simp only
  cases (r p i).result with
  | error e => simp
  | ok v =>
    obtain ⟨a, k⟩ := v
    simp only [Except.ok.injEq, Prod.mk.injEq]
    constructor
    · intro hf
      exact ⟨a, k, ⟨rfl, rfl⟩, hf⟩
    · rintro ⟨_, _, ⟨rfl, rfl⟩, hf⟩
      exact hf

/-- After a success of the first part the second goes on, and its events come after those of the first. -/
theorem bind_of_ok {r : Reader α} {f : α → Reader β} {events : List Event} {a : α} (h : r p i = ⟨events, .ok (a, j)⟩) :
    (r >>= f) p i = ⟨events ++ (f a p j).events, (f a p j).result⟩ := by
  show Reader.bind r f p i = _
  unfold Reader.bind
  simp only [h]

/-- After a failure of the first part there is nothing more. -/
theorem bind_of_error {r : Reader α} {f : α → Reader β} {events : List Event} {e : Stop} (h : r p i = ⟨events, .error e⟩) :
    (r >>= f) p i = ⟨events, .error e⟩ := by
  show Reader.bind r f p i = _
  unfold Reader.bind
  simp only [h]

/-- After a success of the first part the second decides the result. -/
theorem Gives.result_bind {r : Reader α} {f : α → Reader β} {a : α} (h : r.Gives p i a j) :
    ((r >>= f) p i).result = (f a p j).result := by
  show (Reader.bind r f p i).result = _
  unfold Reader.bind
  simp only [show (r p i).result = _ from h]

/-- A reader that goes on fails when its first part does, or its second one after a success of the first. -/
theorem result_bind_eq_error {r : Reader α} {f : α → Reader β} {e : Stop} :
    ((r >>= f) p i).result = .error e ↔
      (r p i).result = .error e ∨ ∃ a j, r.Gives p i a j ∧ (f a p j).result = .error e := by
  show (Reader.bind r f p i).result = _ ↔ _
  unfold Reader.bind Gives
  simp only
  cases (r p i).result with
  | error e' => simp
  | ok v =>
    obtain ⟨a, j⟩ := v
    simp only [Except.ok.injEq, Prod.mk.injEq, reduceCtorEq, false_or]
    constructor
    · intro hf
      exact ⟨a, j, ⟨rfl, rfl⟩, hf⟩
    · rintro ⟨_, _, ⟨rfl, rfl⟩, hf⟩
      exact hf

/-- The result of a reader whose value is only changed. -/
theorem result_bind_pure {r : Reader α} {f : α → β} :
    ((r >>= fun a => pure (f a)) p i).result = (r p i).result.map fun (a, j) => (f a, j) := by
  show (Reader.bind r _ p i).result = _
  unfold Reader.bind
  simp only
  cases (r p i).result <;> rfl

/-- Only what the first part does on the input matters, and what the second one does after a success. -/
theorem bind_eq_bind {r r' : Reader α} {f g : α → Reader β} (hr : r p i = r' p i)
    (hf : ∀ a j, r.Gives p i a j → f a p j = g a p j) : (r >>= f) p i = (r' >>= g) p i := by
  show Reader.bind r f p i = Reader.bind r' g p i
  unfold Reader.bind
  simp only [← hr]
  cases hres : (r p i).result with
  | error e => rfl
  | ok v =>
    obtain ⟨a, j⟩ := v
    simp only [hf a j hres]

@[simp] theorem gives_map {r : Reader α} {f : α → β} {b : β} : (f <$> r).Gives p i b j ↔ ∃ a, r.Gives p i a j ∧ f a = b := by
  show (r >>= fun a => pure (f a)).Gives p i b j ↔ _
  simp

@[simp] theorem not_gives_fail {e : Error} {a : α} : ¬(fail e : Reader α).Gives p i a j := by
  unfold Gives fail
  intro h
  cases h

@[simp] theorem not_gives_outOfRounds {a : α} : ¬(outOfRounds : Reader α).Gives p i a j := by
  unfold Gives outOfRounds
  intro h
  cases h

@[simp] theorem gives_ensure {ok : Bool} {e : Error} {u : Unit} : (ensure ok e).Gives p i u j ↔ ok = true ∧ i = j := by
  cases ok <;> simp [ensure]

@[simp] theorem gives_log {e : Event} {u : Unit} : (log e).Gives p i u j ↔ i = j := by
  simp [Gives, log]

/-! ## Looking at the input -/

@[simp] theorem gives_position {n : Nat} : position.Gives p i n j ↔ i.pos = n ∧ i = j := by
  simp [Gives, position]

@[simp] theorem gives_remaining {b : Bytes} : remaining.Gives p i b j ↔ i.rest = b ∧ i = j := by
  simp [Gives, remaining]

/-- Whether there is room is a question of the length. -/
theorem hasAtLeast_eq (b : Bytes) (n : Nat) : b.hasAtLeast n = decide (n ≤ b.length) := by
  rw [Bool.eq_iff_iff, Bytes.hasAtLeast_iff, decide_eq_true_eq]

@[simp] theorem gives_hasRoom {n : Nat} {ok : Bool} :
    (hasRoom n).Gives p i ok j ↔ decide (n ≤ i.rest.length) = ok ∧ i = j := by
  simp [Gives, hasRoom, hasAtLeast_eq]

@[simp] theorem gives_admits {n : Nat} {ok : Bool} :
    (admits n).Gives p i ok j ↔ decide (p = .unchecked ∨ n ≤ i.rest.length) = ok ∧ i = j := by
  simp [Gives, admits, hasAtLeast_eq]

@[simp] theorem gives_reaches {n : Nat} {ok : Bool} :
    (reaches n).Gives p i ok j ↔ decide (Grammar.positionBound ≤ i.pos + n ∨ n ≤ i.rest.length) = ok ∧ i = j := by
  simp [Gives, reaches, hasAtLeast_eq]

/-! ## Taking bytes -/

@[simp] theorem gives_next {x : UInt8} : next.Gives p i x j ↔ i.rest = x :: j.rest ∧ j.pos = i.pos + 1 := by
  obtain ⟨pos, rest⟩ := i
  obtain ⟨pos', rest'⟩ := j
  cases rest with
  | nil => simp [Gives, next]
  | cons y rest =>
    simp only [Gives, next, Except.ok.injEq, Prod.mk.injEq, Input.mk.injEq, List.cons.injEq]
    constructor
    · rintro ⟨rfl, rfl, rfl⟩
      exact ⟨⟨rfl, rfl⟩, rfl⟩
    · rintro ⟨⟨rfl, rfl⟩, rfl⟩
      exact ⟨rfl, rfl, rfl⟩

theorem holds_iff {n : Nat} : i.holds n = true ↔ i.pos + n < Grammar.positionBound ∧ n ≤ i.rest.length := by
  rw [Input.holds, Bool.and_eq_true, decide_eq_true_eq, Bytes.hasAtLeast_iff]

@[simp] theorem gives_slice {n : Nat} {b : Bytes} :
    (slice n).Gives p i b j ↔
      i.pos + n < Grammar.positionBound ∧ b.length = n ∧ i.rest = b ++ j.rest ∧ j.pos = i.pos + n := by
  obtain ⟨pos, rest⟩ := i
  obtain ⟨pos', rest'⟩ := j
  unfold Gives slice
  by_cases hh : Input.holds ⟨pos, rest⟩ n = true
  · obtain ⟨hpos, hlen⟩ := holds_iff.mp hh
    simp only [hh, if_true, Except.ok.injEq, Prod.mk.injEq, Input.mk.injEq]
    constructor
    · rintro ⟨rfl, rfl, rfl⟩
      exact ⟨hpos, List.length_take_of_le hlen, (List.take_append_drop n rest).symm, rfl⟩
    · rintro ⟨_, rfl, rfl, rfl⟩
      exact ⟨List.take_left, rfl, List.drop_left⟩
  · simp only [hh]
    constructor
    · intro h
      cases h
    · rintro ⟨hpos, rfl, hrest, _⟩
      refine absurd (holds_iff.mpr ⟨hpos, ?_⟩) hh
      simp only at hrest ⊢
      rw [hrest, List.length_append]
      exact Nat.le_add_right _ _

/-! ## Readers around a reader -/

theorem mapError_ok {ε ε' : Type} (f : ε → ε') (a : α) : (Except.ok a).mapError f = .ok a := rfl

theorem mapError_error {ε ε' : Type} (f : ε → ε') (e : ε) : (Except.error e : Except ε α).mapError f = .error (f e) := rfl

/-- What becomes of a failure does not matter for a success. -/
theorem mapError_eq_ok {ε ε' : Type} {f : ε → ε'} {x : Except ε α} {a : α} : x.mapError f = .ok a ↔ x = .ok a := by
  cases x <;> simp [mapError_ok, mapError_error]

/-- There is a value when the reader gives it, whatever it leaves. -/
theorem value_eq_ok {r : Reader α} {a : α} : (r p i).value = .ok a ↔ ∃ j, r.Gives p i a j := by
  unfold Outcome.value Gives
  rw [mapError_eq_ok]
  cases (r p i).result with
  | error e => simp [Except.map]
  | ok v =>
    obtain ⟨b, k⟩ := v
    simp [Except.map]

/-- After a success of the first part the second decides the value. -/
theorem Gives.value_bind {r : Reader α} {f : α → Reader β} {a : α} (h : r.Gives p i a j) :
    ((r >>= f) p i).value = (f a p j).value := by
  unfold Outcome.value
  rw [h.result_bind]

@[simp] theorem gives_within {c : Context} {r : Reader α} {a : α} : (within c r).Gives p i a j ↔ r.Gives p i a j :=
  mapError_eq_ok

@[simp] theorem gives_restoring {r : Reader α} {a : α} : (restoring r).Gives p i a j ↔ r.Gives p i a j :=
  mapError_eq_ok

/-- Putting the position back changes no failure. -/
theorem value_restoring {r : Reader α} : (restoring r p i).value = (r p i).value := by
  simp only [Outcome.value, restoring]
  cases (r p i).result <;> rfl

/-- Only the outcome on the input counts. -/
theorem restoring_congr {r r' : Reader α} (h : r p i = r' p i) : restoring r p i = restoring r' p i := by
  unfold restoring
  rw [h]

@[simp] theorem gives_located {r : Reader α} {a : α} : (located r).Gives p i a j ↔ r.Gives p i a j :=
  mapError_eq_ok

@[simp] theorem gives_orElseFail {e : Error} {r : Reader α} {a : α} : (orElseFail e r).Gives p i a j ↔ r.Gives p i a j :=
  mapError_eq_ok

/-- A value made of the outcome of a success is there exactly when the success is. -/
theorem map_eq_ok {ε : Type} {f : α → β} {x : Except ε α} {b : β} : x.map f = .ok b ↔ ∃ a, x = .ok a ∧ f a = b := by
  cases x <;> simp [Except.map]

@[simp] theorem gives_measured {r : Reader α} {a : α} {n : Nat} :
    (measured r).Gives p i (a, n) j ↔ r.Gives p i a j ∧ j.pos - i.pos = n := by
  show Except.map _ _ = _ ↔ _
  rw [map_eq_ok]
  constructor
  · rintro ⟨⟨b, k⟩, h, e⟩
    simp only [Prod.mk.injEq] at e
    obtain ⟨⟨rfl, rfl⟩, rfl⟩ := e
    exact ⟨h, rfl⟩
  · rintro ⟨h, rfl⟩
    exact ⟨(a, j), h, rfl⟩

/-- A step after a success is a success when both are. -/
theorem except_bind_eq_ok {ε : Type} {x : Except ε α} {f : α → Except ε β} {b : β} :
    (x >>= f) = .ok b ↔ ∃ a, x = .ok a ∧ f a = .ok b := by
  cases x with
  | error e => simp [Bind.bind, Except.bind]
  | ok a => simp [Bind.bind, Except.bind]

/-- The input can be cut at the positions between its two ends. -/
theorem splitAt_eq_ok {pos : Nat} {w v : Bytes} :
    i.splitAt pos = .ok (w, v) ↔
      i.pos ≤ pos ∧ pos ≤ i.pos + i.rest.length ∧ i.rest.take (pos - i.pos) = w ∧ i.rest.drop (pos - i.pos) = v := by
  unfold Input.splitAt
  rw [hasAtLeast_eq, ← Bool.decide_and]
  by_cases h : i.pos ≤ pos ∧ pos - i.pos ≤ i.rest.length
  · rw [if_pos (decide_eq_true h), Except.ok.injEq, Prod.mk.injEq]
    have hle : pos ≤ i.pos + i.rest.length := by omega
    constructor
    · rintro ⟨hw, hv⟩
      exact ⟨h.1, hle, hw, hv⟩
    · rintro ⟨_, _, hw, hv⟩
      exact ⟨hw, hv⟩
  · rw [if_neg (by rwa [decide_eq_true_eq])]
    constructor
    · intro he
      cases he
    · rintro ⟨h1, h2, _⟩
      exact absurd ⟨h1, by omega⟩ h

@[simp] theorem gives_captured {r : Reader α} {a : α} {b : Bytes} :
    (captured r).Gives p i (a, b) j ↔
      r.Gives p i a j ∧ i.pos ≤ j.pos ∧ j.pos ≤ i.pos + i.rest.length ∧ i.rest.take (j.pos - i.pos) = b := by
  unfold Gives captured
  simp only [except_bind_eq_ok, Prod.exists, splitAt_eq_ok]
  constructor
  · rintro ⟨a', j', hr, w, v, ⟨h1, h2, rfl, rfl⟩, e⟩
    obtain ⟨⟨rfl, rfl⟩, rfl⟩ := by simpa [Pure.pure, Except.pure] using e
    exact ⟨hr, h1, h2, rfl⟩
  · rintro ⟨hr, h1, h2, rfl⟩
    exact ⟨a, j, hr, _, _, ⟨h1, h2, rfl, rfl⟩, rfl⟩

@[simp] theorem gives_followed {r : Reader α} {a : α} {b : Bytes} :
    (followed r).Gives p i (a, b) j ↔
      ∃ k, r.Gives p i a k ∧ i.pos ≤ k.pos ∧ k.pos ≤ i.pos + i.rest.length ∧ i.rest.drop (k.pos - i.pos) = b ∧
        ⟨i.pos + i.rest.length, []⟩ = j := by
  unfold Gives followed
  simp only [except_bind_eq_ok, Prod.exists, splitAt_eq_ok]
  constructor
  · rintro ⟨a', k, hr, w, v, ⟨h1, h2, rfl, rfl⟩, e⟩
    obtain ⟨⟨rfl, rfl⟩, rfl⟩ := by simpa [Pure.pure, Except.pure] using e
    exact ⟨k, hr, h1, h2, rfl, rfl⟩
  · rintro ⟨k, hr, h1, h2, rfl, rfl⟩
    exact ⟨a, k, hr, _, _, ⟨h1, h2, rfl, rfl⟩, rfl⟩

@[simp] theorem gives_delimited {n m : Nat} {r : Reader α} {a : α} :
    (delimited n r).Gives p i (a, m) j ↔
      (i.pos + n < Grammar.positionBound ∧ n ≤ i.rest.length) ∧
        ∃ k, r.Gives p ⟨i.pos, i.rest.take n⟩ a k ∧ k.pos - i.pos = m ∧ ⟨i.pos + n, i.rest.drop n⟩ = j := by
  unfold Gives delimited
  rw [← holds_iff]
  by_cases hh : i.holds n = true
  · simp only [hh, if_true, map_eq_ok, true_and]
    constructor
    · rintro ⟨⟨b, k⟩, h, e⟩
      simp only [Prod.mk.injEq] at e
      obtain ⟨⟨rfl, rfl⟩, rfl⟩ := e
      exact ⟨k, h, rfl, rfl⟩
    · rintro ⟨k, h, rfl, rfl⟩
      exact ⟨(a, k), h, rfl⟩
  · simp [hh]

end WasmInspect.Reader
