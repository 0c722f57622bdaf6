import WasmInspect.Proofs.Reader.Success

/-!
# Readers that look no further than they read

`Takes n r` says two things of every success of `r`: it takes at least `n` bytes off the input, and it is due to these bytes alone.
Under any policy on counts, and with any other bytes after them, `r` reads the same value from them.

The property passes from readers to readers made of them. Those that ask how many bytes are left do not have it on their own:
`Takes.guarded` gives it to a reader that asks no more than what the rest of it takes anyway.
-/

namespace WasmInspect.Reader

variable {α β : Type}

/-- Each success takes at least `n` bytes, and these decide it, whatever stands after them. -/
def Takes (n : Nat) (r : Reader α) : Prop :=
  ∀ p i a j, r.Gives p i a j → ∃ w, n ≤ w.length ∧ i.rest = w ++ j.rest ∧ j.pos = i.pos + w.length ∧
    ∀ q suf, r.Gives q ⟨i.pos, w ++ suf⟩ a ⟨j.pos, suf⟩

namespace Takes

variable {m n k : Nat} {r : Reader α} {f : α → Reader β}

/-- What is left after a success is as much shorter as the position is larger. -/
theorem rest_length (h : Takes n r) {p : CountPolicy} {i j : Input} {a : α} (hg : r.Gives p i a j) :
    j.pos + j.rest.length = i.pos + i.rest.length ∧ i.pos + n ≤ j.pos := by
  obtain ⟨w, hn, hw, hj, _⟩ := h p i a j hg
  rw [hw, hj, List.length_append]
  omega

theorem mono (h : Takes n r) (hmn : m ≤ n) : Takes m r := by
  intro p i a j hg
  obtain ⟨w, hn, hw, hj, hr⟩ := h p i a j hg
  exact ⟨w, Nat.le_trans hmn hn, hw, hj, hr⟩

/-- A lower bound on what is taken may come from elsewhere. -/
theorem strengthen (h : Takes m r) (hn : ∀ p i a j, r.Gives p i a j → i.pos + n ≤ j.pos) : Takes n r := by
  intro p i a j hg
  obtain ⟨w, _, hw, hj, hr⟩ := h p i a j hg
  have hle := hn p i a j hg
  exact ⟨w, by omega, hw, hj, hr⟩

/-! ## Readers that take nothing -/

/-- A reader that takes nothing, looks at the position alone and leaves the input as it is. -/
theorem of_idle (h : ∀ p i a j, r.Gives p i a j → i = j ∧ ∀ q suf, r.Gives q ⟨i.pos, suf⟩ a ⟨i.pos, suf⟩) : Takes 0 r := by
  intro p i a j hg
  obtain ⟨rfl, hr⟩ := h p i a j hg
  exact ⟨[], Nat.le_refl _, rfl, rfl, hr⟩

protected theorem pure (a : α) : Takes 0 (pure a : Reader α) := by
  apply of_idle
  intro p i b j h
  obtain ⟨rfl, rfl⟩ := gives_pure.mp h
  exact ⟨rfl, fun q suf => gives_pure.mpr ⟨rfl, rfl⟩⟩

protected theorem position : Takes 0 position := by
  apply of_idle
  intro p i n j h
  obtain ⟨hn, rfl⟩ := gives_position.mp h
  exact ⟨rfl, fun q suf => gives_position.mpr ⟨hn, rfl⟩⟩

protected theorem ensure (ok : Bool) (e : Error) : Takes 0 (ensure ok e) := by
  apply of_idle
  intro p i u j h
  obtain ⟨hok, rfl⟩ := gives_ensure.mp h
  exact ⟨rfl, fun q suf => gives_ensure.mpr ⟨hok, rfl⟩⟩

protected theorem fail (e : Error) : Takes n (fail e : Reader α) := by
  intro p i a j h
  exact absurd h not_gives_fail

protected theorem outOfRounds : Takes n (outOfRounds : Reader α) := by
  intro p i a j h
  exact absurd h not_gives_outOfRounds

/-! ## Readers made of readers -/

/-- The bytes of two readers, one after the other, make up those of the composed one. What the first takes need not be taken by the
second. -/
protected theorem bind (h : Takes m r) (hf : ∀ a, Takes (k - m) (f a)) : Takes k (r >>= f) := by
  intro p i b j hg
  obtain ⟨a, l, hr, hfa⟩ := gives_bind.mp hg
  obtain ⟨w, hm, hw, hl, hr'⟩ := h p i a l hr
  obtain ⟨v, hk, hv, hj, hf'⟩ := hf a p l b j hfa
  refine ⟨w ++ v, ?_, ?_, ?_, ?_⟩
  · rw [List.length_append]
    omega
  · rw [hw, hv, List.append_assoc]
  · rw [hj, hl, List.length_append, Nat.add_assoc]
  · intro q suf
    rw [List.append_assoc]
    exact gives_bind.mpr ⟨a, ⟨l.pos, v ++ suf⟩, hr' q (v ++ suf), hf' q suf⟩

protected theorem map (h : Takes n r) (f : α → β) : Takes n (f <$> r) := by
  intro p i b j hg
  obtain ⟨a, hr, rfl⟩ := gives_map.mp hg
  obtain ⟨w, hn, hw, hj, hr'⟩ := h p i a j hr
  exact ⟨w, hn, hw, hj, fun q suf => gives_map.mpr ⟨a, hr' q suf, rfl⟩⟩

protected theorem ite {c : Prop} [Decidable c] {r' : Reader α} (h : c → Takes n r) (h' : ¬c → Takes n r') :
    Takes n (if c then r else r') := by
  by_cases hc : c
  · rw [if_pos hc]
    exact h hc
  · rw [if_neg hc]
    exact h' hc

/-- Two readers that succeed alike take alike. -/
theorem congr {r' : Reader α} (h : Takes n r) (hr : ∀ p i a j, r'.Gives p i a j ↔ r.Gives p i a j) : Takes n r' := by
  intro p i a j hg
  obtain ⟨w, hn, hw, hj, hr'⟩ := h p i a j ((hr p i a j).mp hg)
  exact ⟨w, hn, hw, hj, fun q suf => (hr _ _ _ _).mpr (hr' q suf)⟩

protected theorem within (c : Context) (h : Takes n r) : Takes n (within c r) :=
  h.congr fun _ _ _ _ => gives_within

protected theorem restoring (h : Takes n r) : Takes n (restoring r) :=
  h.congr fun _ _ _ _ => gives_restoring

protected theorem measured (h : Takes n r) : Takes n (measured r) := by
  rintro p i ⟨a, m⟩ j hg
  obtain ⟨hr, hm⟩ := gives_measured.mp hg
  obtain ⟨w, hn, hw, hj, hr'⟩ := h p i a j hr
  exact ⟨w, hn, hw, hj, fun q suf => gives_measured.mpr ⟨hr' q suf, hm⟩⟩

/-- The bytes that such a reader took can be cut off the input. -/
theorem gives_captured (h : Takes n r) {p : CountPolicy} {i j : Input} {a : α} {b : Bytes} :
    (captured r).Gives p i (a, b) j ↔ r.Gives p i a j ∧ i.rest.take (j.pos - i.pos) = b := by
  rw [Reader.gives_captured]
  constructor
  · rintro ⟨hr, _, _, hb⟩
    exact ⟨hr, hb⟩
  · rintro ⟨hr, hb⟩
    have hj := h.rest_length hr
    exact ⟨hr, by omega, by omega, hb⟩

/-- The bytes after those that such a reader took are what it left. -/
theorem gives_followed (h : Takes n r) {p : CountPolicy} {i j : Input} {a : α} {b : Bytes} :
    (followed r).Gives p i (a, b) j ↔ ∃ k, r.Gives p i a k ∧ k.rest = b ∧ ⟨k.pos + k.rest.length, []⟩ = j := by
  rw [Reader.gives_followed]
  have hcut : ∀ k, r.Gives p i a k → i.pos ≤ k.pos ∧ i.rest.drop (k.pos - i.pos) = k.rest := by
    intro k hr
    obtain ⟨w, _, hw, hk, _⟩ := h p i a k hr
    refine ⟨by omega, ?_⟩
    rw [hk, hw, Nat.add_sub_cancel_left, List.drop_left]
  constructor
  · rintro ⟨k, hr, _, _, rfl, rfl⟩
    rw [(hcut k hr).2]
    exact ⟨k, hr, rfl, by rw [(h.rest_length hr).1]⟩
  · rintro ⟨k, hr, rfl, rfl⟩
    have hk := h.rest_length hr
    exact ⟨k, hr, (hcut k hr).1, by omega, (hcut k hr).2, by rw [hk.1]⟩

/-- So many entries take so many times the bytes of one. -/
protected theorem entries (name : String) (h : Takes m r) (n k : Nat) : Takes (n * m) (entries name r n k) := by
  induction n generalizing k with
  | zero =>
    rw [Nat.zero_mul]
    exact Takes.pure []
  | succ n ih =>
    have hsub : (n + 1) * m - m - n * m = 0 := by
      rw [Nat.succ_mul]
      omega
    refine Takes.bind (h.within _) fun x => Takes.bind (ih (k + 1)) fun xs => ?_
    rw [hsub]
    exact Takes.pure _

/-- A check that enough bytes are left changes nothing where they are taken anyway: `r'` may succeed only where `r` does, and has to
where there are as many bytes as `r` takes. -/
theorem guarded {r' : Reader α} (h : Takes n r) (out : ∀ p i a j, r'.Gives p i a j → r.Gives p i a j)
    (back : ∀ p i a j, n ≤ i.rest.length → r.Gives p i a j → r'.Gives p i a j) : Takes n r' := by
  intro p i a j hg
  obtain ⟨w, hn, hw, hj, hr⟩ := h p i a j (out p i a j hg)
  refine ⟨w, hn, hw, hj, fun q suf => back q _ a _ ?_ (hr q suf)⟩
  show n ≤ (w ++ suf).length
  rw [List.length_append]
  omega

end Takes

end WasmInspect.Reader
