import WasmInspect.Grammar.Number
import WasmInspect.Proofs.Reader.Takes

/-!
# Readers of written bytes

`Reads r w a` says that `r` takes the value `a` off the bytes `w` and leaves what stands after them. Where `w` is what is written for
`a`, this is the half of a round trip that does not depend on the place. It passes from readers to readers made of them, with the
bytes one after the other.
-/

namespace WasmInspect.Reader

open Grammar (positionBound)

variable {α β : Type}

/-- Off the bytes `w`, wherever they stand and whatever follows, the reader takes `a`. The bytes are so few that their number is one of
32 bits, and they end at a position. -/
def Reads (r : Reader α) (w : Bytes) (a : α) : Prop :=
  w.length < UInt32.size → ∀ p pos suf, pos + w.length < positionBound → r.Gives p ⟨pos, w ++ suf⟩ a ⟨pos + w.length, suf⟩

namespace Reads

variable {r : Reader α} {f : α → Reader β} {w v : Bytes} {a : α} {b : β}

/-- What is read takes as many bytes as the reader takes at least. -/
theorem le_length {n : Nat} (h : Reads r w a) (ht : Takes n r) (hw : w.length < UInt32.size) : n ≤ w.length := by
  have hpos : 0 + w.length < positionBound := by
    rw [Nat.zero_add]
    exact Nat.lt_trans hw (by decide)
  have hlen := (ht.rest_length (h hw .checked 0 [] hpos)).2
  simp only at hlen
  omega

/-! ## Readers that take nothing -/

protected theorem pure (a : α) : Reads (pure a) [] a := by
  intro _ p pos suf _
  exact gives_pure.mpr ⟨rfl, rfl⟩

/-- The position is read before other things, and these do not depend on it. -/
theorem position_bind {f : Nat → Reader β} (h : ∀ pos, Reads (f pos) w b) : Reads (position >>= f) w b := by
  intro hw p pos suf hpos
  exact gives_bind.mpr ⟨pos, _, gives_position.mpr ⟨rfl, rfl⟩, h pos hw p pos suf hpos⟩

/-- A check that holds is passed. -/
theorem ensure_bind {f : Unit → Reader β} {ok : Bool} {e : Error} (hok : ok = true) (h : Reads (f ()) w b) :
    Reads (ensure ok e >>= f) w b := by
  intro hw p pos suf hpos
  exact gives_bind.mpr ⟨(), _, gives_ensure.mpr ⟨hok, rfl⟩, h hw p pos suf hpos⟩

/-- There is room for what is read anyway. -/
theorem hasRoom_bind {f : Bool → Reader β} {n : Nat} (hn : n ≤ w.length) (h : Reads (f true) w b) :
    Reads (hasRoom n >>= f) w b := by
  intro hw p pos suf hpos
  refine gives_bind.mpr ⟨true, _, gives_hasRoom.mpr ⟨decide_eq_true ?_, rfl⟩, h hw p pos suf hpos⟩
  show n ≤ (w ++ suf).length
  rw [List.length_append]
  omega

/-! ## Readers made of readers -/

protected theorem bind (hr : Reads r w a) (hf : Reads (f a) v b) : Reads (r >>= f) (w ++ v) b := by
  intro hlen p pos suf hpos
  rw [List.length_append] at hlen hpos
  have hfirst := hr (by omega) p pos (v ++ suf) (by omega)
  have hsecond := hf (by omega) p (pos + w.length) suf (by omega)
  rw [List.append_assoc, List.length_append, ← Nat.add_assoc]
  exact gives_bind.mpr ⟨a, _, hfirst, hsecond⟩

/-- A value of which another one is made at last. -/
theorem bind_pure {g : α → β} (h : Reads r w a) : Reads (r >>= fun x => pure (g x)) w (g a) := by
  have := Reads.bind (f := fun x => pure (g x)) h (Reads.pure (g a))
  rwa [List.append_nil] at this

protected theorem map (h : Reads r w a) (g : α → β) : Reads (g <$> r) w (g a) := h.bind_pure

/-- Readers that succeed alike read alike. -/
theorem congr {r' : Reader α} (h : Reads r w a) (hr : ∀ p i a j, r'.Gives p i a j ↔ r.Gives p i a j) : Reads r' w a := by
  intro hw p pos suf hpos
  exact (hr _ _ _ _).mpr (h hw p pos suf hpos)

protected theorem within (c : Context) (h : Reads r w a) : Reads (within c r) w a :=
  h.congr fun _ _ _ _ => gives_within

protected theorem restoring (h : Reads r w a) : Reads (restoring r) w a :=
  h.congr fun _ _ _ _ => gives_restoring

protected theorem measured (h : Reads r w a) : Reads (measured r) w (a, w.length) := by
  intro hw p pos suf hpos
  exact gives_measured.mpr ⟨h hw p pos suf hpos, Nat.add_sub_cancel_left _ _⟩

/-- Entries that are written one after the other. -/
protected theorem entries {γ : Type} (name : String) {entry : γ → Bytes} {g : γ → α} {xs : List γ}
    (h : ∀ x ∈ xs, Reads r (entry x) (g x)) (k : Nat) :
    Reads (entries name r xs.length k) (xs.flatMap entry) (xs.map g) := by
  induction xs generalizing k with
  | nil => exact Reads.pure []
  | cons x xs ih =>
    rw [List.flatMap_cons]
    refine Reads.bind ((h x List.mem_cons_self).within _) ?_
    exact (ih (fun y hy => h y (List.mem_cons_of_mem x hy)) (k + 1)).bind_pure

end Reads

end WasmInspect.Reader
