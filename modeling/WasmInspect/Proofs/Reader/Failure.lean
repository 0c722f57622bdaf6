import WasmInspect.Proofs.Reader.Moves

/-!
# When a reader fails

`Fails r p i c` says that the reader `r`, under the policy `p`, ends in an error of the cause `c` on the input `i`, in whatever contexts and at
whatever position. A composed reader fails as its first part does, or as the second one does after a success of the first.

`Starves r` says that `r` fails for want of bytes where there are none, and `Restores r` says of the position that comes with a failure
of `r` that it is the one where `r` began.
-/

namespace WasmInspect.Reader

variable {α β : Type} {p : CountPolicy} {i j : Input} {c : Cause} {r : Reader α} {f : α → Reader β}

/-! ## Causes -/

/-- Under the policy `p` the reader fails on the input `i` with an error of the cause `c`. -/
def Fails (r : Reader α) (p : CountPolicy) (i : Input) (c : Cause) : Prop :=
  ∃ e pos, (r p i).result = .error ⟨.error e, pos⟩ ∧ e.cause = c

theorem fails_fail (e : Error) : (fail e : Reader α).Fails p i e.cause := ⟨e, i.pos, rfl, rfl⟩

theorem fails_ensure (e : Error) : (ensure false e).Fails p i e.cause := fails_fail e

/-- After a success of the first part the second may fail. -/
theorem Gives.fails_bind {a : α} (h : r.Gives p i a j) (hf : (f a).Fails p j c) : (r >>= f).Fails p i c := by
  obtain ⟨e, pos, he, hc⟩ := hf
  exact ⟨e, pos, result_bind_eq_error.mpr (Or.inr ⟨a, j, h, he⟩), hc⟩

namespace Fails

/-- What would come next does not matter. -/
protected theorem bind (h : r.Fails p i c) : (r >>= f).Fails p i c := by
  obtain ⟨e, pos, he, hc⟩ := h
  exact ⟨e, pos, result_bind_eq_error.mpr (Or.inl he), hc⟩

/-- Only the outcome on the input counts. -/
theorem congr {r' : Reader α} (h : r.Fails p i c) (hr : r' p i = r p i) : r'.Fails p i c := by
  unfold Fails
  rwa [hr]

/-- Whatever a reader around `r` makes of an error, it is an error; its cause is what it was if that is kept. -/
theorem mapError {r' : Reader α} {c' : Cause} {g : Stop → Stop} (h : r.Fails p i c)
    (hr : r' p i = ⟨(r p i).events, (r p i).result.mapError g⟩)
    (hg : ∀ e pos, e.cause = c → ∃ e' pos', g ⟨.error e, pos⟩ = ⟨.error e', pos'⟩ ∧ e'.cause = c') : r'.Fails p i c' := by
  obtain ⟨e, pos, he, hc⟩ := h
  obtain ⟨e', pos', hg, hc'⟩ := hg e pos hc
  refine ⟨e', pos', ?_, hc'⟩
  rw [hr, he, mapError_error, hg]

protected theorem within (h : r.Fails p i c) (context : Context) : (within context r).Fails p i c :=
  h.mapError rfl fun e pos hc => ⟨e.within context, pos, rfl, hc⟩

protected theorem restoring (h : r.Fails p i c) : (restoring r).Fails p i c :=
  h.mapError rfl fun e _ hc => ⟨e, i.pos, rfl, hc⟩

protected theorem located (h : r.Fails p i c) : (located r).Fails p i c :=
  h.mapError rfl fun e pos hc => ⟨e.within (.position pos), pos, rfl, hc⟩

protected theorem orElseFail (h : r.Fails p i c) (e : Error) : (orElseFail e r).Fails p i e.cause :=
  h.mapError rfl fun _ pos _ => ⟨e, pos, rfl, rfl⟩

/-- Cutting the input comes after reading. -/
protected theorem captured (h : r.Fails p i c) : (captured r).Fails p i c := by
  obtain ⟨e, pos, he, hc⟩ := h
  refine ⟨e, pos, ?_, hc⟩
  simp only [captured, he]
  rfl

protected theorem followed (h : r.Fails p i c) : (followed r).Fails p i c := by
  obtain ⟨e, pos, he, hc⟩ := h
  refine ⟨e, pos, ?_, hc⟩
  simp only [followed, he]
  rfl

/-- What fails does not succeed. -/
theorem not_gives (h : r.Fails p i c) {a : α} : ¬r.Gives p i a j := by
  obtain ⟨e, pos, he, _⟩ := h
  intro hg
  rw [Gives, he] at hg
  cases hg

end Fails

/-! ## Nothing to read -/

/-- Where there is nothing to read, the reader fails because the input ends. -/
def Starves (r : Reader α) : Prop := ∀ p pos, pos < lengthBound → r.Fails p ⟨pos, []⟩ .outOfBounds

namespace Starves

protected theorem bind (h : Starves r) : Starves (r >>= f) := fun p pos hpos => (h p pos hpos).bind

/-- The position is there also where there is nothing to read. -/
protected theorem position_bind {f : Nat → Reader β} (h : ∀ n, Starves (f n)) : Starves (position >>= f) :=
  fun p pos hpos => (gives_position.mpr ⟨rfl, rfl⟩).fails_bind (h pos p pos hpos)

protected theorem within (h : Starves r) (context : Context) : Starves (within context r) :=
  fun p pos hpos => (h p pos hpos).within context

protected theorem restoring (h : Starves r) : Starves (restoring r) := fun p pos hpos => (h p pos hpos).restoring

protected theorem captured (h : Starves r) : Starves (captured r) := fun p pos hpos => (h p pos hpos).captured

protected theorem followed (h : Starves r) : Starves (followed r) := fun p pos hpos => (h p pos hpos).followed

/-- A reader that starves succeeds only where there is something to read. -/
theorem rest_ne_nil (h : Starves r) {a : α} (hi : i.pos < lengthBound) (hg : r.Gives p i a j) :
    i.rest ≠ [] := by
  obtain ⟨pos, rest⟩ := i
  rintro rfl
  exact (h p pos hi).not_gives hg

end Starves

/-! ## Positions -/

/-- The position that comes with a failure is the one where the reader began. -/
def Restores (r : Reader α) : Prop := ∀ p i s, (r p i).result = .error s → s.pos = i.pos

namespace Restores

/-- A reader that puts the position back. -/
protected theorem restoring (r : Reader α) : Restores (restoring r) := by
  intro p i s h
  cases hr : (r p i).result with
  | ok v => simp [restoring, hr, mapError_ok] at h
  | error x =>
    simp only [restoring, hr, mapError_error, Except.error.injEq] at h
    rw [← h]

protected theorem ensure (ok : Bool) (e : Error) : Restores (ensure ok e) := by
  intro p i s h
  cases ok with
  | false =>
    obtain rfl := Except.error.inj h
    rfl
  | true => cases h

/-- A value that is only changed changes no position. -/
theorem bind_pure {g : α → β} (h : Restores r) : Restores (r >>= fun a => pure (g a)) := by
  intro p i s hs
  rcases result_bind_eq_error.mp hs with hs | ⟨_, _, _, hs⟩
  · exact h p i s hs
  · cases hs

/-- After a part that takes nothing the reader is still where it began. -/
theorem bind_idle (h : Restores r) (hidle : ∀ p i a j, r.Gives p i a j → i = j) (hf : ∀ a, Restores (f a)) :
    Restores (r >>= f) := by
  intro p i s hs
  rcases result_bind_eq_error.mp hs with hs | ⟨a, j, ha, hs⟩
  · exact h p i s hs
  · rw [hidle p i a j ha]
    exact hf a p j s hs

end Restores

end WasmInspect.Reader
