import WasmInspect.Grammar.Code
import WasmInspect.Proofs.Reader.Moves
import WasmInspect.Proofs.Reader.Takes

/-!
# What readers report

A reader tells of what it reads in two ways: by the events that it leaves, also those before a failure, and by the cause of an error.
`Reports r Q` says that both are true of the input. The events tell of instructions that stand in the input one after the other, each at
the position that its event gives. An error about a tag or an opcode names a byte of the input, at the offset that it gives, which
is not allowed there. `Q a xs` is what is known of the value `a` and the instructions `xs` that a success tells of.
-/

namespace WasmInspect

/-! ## Parts of an input -/

/-- The bytes of `j` are a part of the bytes of `i`, at the same positions. -/
def Input.PartOf (j i : Input) : Prop := ∃ w v, i.rest = w ++ (j.rest ++ v) ∧ j.pos = i.pos + w.length

namespace Input.PartOf

variable {i j k : Input}

theorem refl (i : Input) : i.PartOf i := ⟨[], [], (List.append_nil _).symm, rfl⟩

theorem trans (h : k.PartOf j) (h' : j.PartOf i) : k.PartOf i := by
  obtain ⟨w, v, hj, hpos⟩ := h
  obtain ⟨w', v', hi, hpos'⟩ := h'
  refine ⟨w' ++ w, v ++ v', ?_, ?_⟩
  · rw [hi, hj]
    simp only [List.append_assoc]
  · rw [hpos, hpos', List.length_append, Nat.add_assoc]

/-- What is left after some bytes. -/
theorem of_append {w : Bytes} (h : i.rest = w ++ j.rest) (hpos : j.pos = i.pos + w.length) : j.PartOf i :=
  ⟨w, [], by rw [h, List.append_nil], hpos⟩

/-- The first bytes. -/
theorem of_first {w v : Bytes} (h : i.rest = w ++ v) : PartOf ⟨i.pos, w⟩ i := ⟨[], v, h, rfl⟩

theorem take (i : Input) (n : Nat) : PartOf ⟨i.pos, i.rest.take n⟩ i := of_first (List.take_append_drop n i.rest).symm

theorem inside (h : j.PartOf i) : j.Inside i := by
  obtain ⟨w, v, hi, hpos⟩ := h
  refine ⟨by omega, ?_⟩
  simp only [Input.stop, hi, hpos, List.length_append]
  omega

/-- A part of a byte string is what stands there. -/
theorem take_drop {b w : Bytes} {pos : Nat} (h : PartOf ⟨pos, w⟩ ⟨0, b⟩) : (b.drop pos).take w.length = w := by
  obtain ⟨u, v, hb, hpos⟩ := h
  simp only [Nat.zero_add] at hb hpos
  rw [hpos, hb, List.drop_left, List.take_left]

/-- A byte of a byte string is the one at its position. -/
theorem getElem? {b : Bytes} {x : UInt8} {pos : Nat} (h : PartOf ⟨pos, [x]⟩ ⟨0, b⟩) : b[pos]? = some x := by
  obtain ⟨u, v, hb, hpos⟩ := h
  simp only [Nat.zero_add] at hb hpos
  rw [hpos, hb, List.getElem?_append_right (Nat.le_refl _), Nat.sub_self]
  rfl

end Input.PartOf

theorem Input.partOf_at (b : Bytes) {pos : Nat} (h : pos ≤ b.length) : (Input.at b pos).PartOf ⟨0, b⟩ := by
  refine .of_append (w := b.take pos) (List.take_append_drop pos b).symm ?_
  rw [List.length_take_of_le h]
  exact (Nat.zero_add pos).symm

/-! ## Events -/

/-- The events tell of the instructions `xs`, which stand in the input one after the other, from `lo` on and up to `hi`. The bytes of each event
are those at its position, and they alone are read as the instruction. -/
inductive Tells (i : Input) : (lo : Nat) → List Event → List Instruction → (hi : Nat) → Prop
  | nil {lo hi : Nat} : lo ≤ hi → Tells i lo [] [] hi
  | cons {lo pos hi : Nat} {x : Instruction} {code : Bytes} {es : List Event} {xs : List Instruction} :
      lo ≤ pos → Input.PartOf ⟨pos, code⟩ i → Grammar.instruction.Gives .checked ⟨pos, code⟩ x ⟨pos + code.length, []⟩ →
      Tells i (pos + code.length) es xs hi → Tells i lo (.instruction pos x.op code :: es) (x :: xs) hi

namespace Tells

variable {i j : Input} {lo mid hi : Nat} {es es' : List Event} {xs xs' : List Instruction}

theorem le (h : Tells i lo es xs hi) : lo ≤ hi := by
  induction h with
  | nil hle => exact hle
  | cons hle _ _ _ ih => omega

theorem lower {lo' : Nat} (h : Tells i lo es xs hi) (hle : lo' ≤ lo) : Tells i lo' es xs hi := by
  cases h with
  | nil h => exact .nil (Nat.le_trans hle h)
  | cons h hpart hx hrest => exact .cons (Nat.le_trans hle h) hpart hx hrest

theorem raise {hi' : Nat} (h : Tells i lo es xs hi) (hle : hi ≤ hi') : Tells i lo es xs hi' := by
  induction h with
  | nil h => exact .nil (Nat.le_trans h hle)
  | cons h hpart hx _ ih => exact .cons h hpart hx (ih hle)

/-- What comes after is told of after. -/
theorem append (h : Tells i lo es xs mid) (h' : Tells i mid es' xs' hi) : Tells i lo (es ++ es') (xs ++ xs') hi := by
  induction h with
  | nil hle => exact h'.lower hle
  | cons hle hpart hx _ ih => exact .cons hle hpart hx (ih h')

/-- What is told of a part is true of the whole. -/
theorem of_part (h : Tells j lo es xs hi) (hpart : j.PartOf i) : Tells i lo es xs hi := by
  induction h with
  | nil hle => exact .nil hle
  | cons hle hcode hx _ ih => exact .cons hle (hcode.trans hpart) hx ih

/-- Without instructions there are no events. -/
theorem eq_nil (h : Tells i lo es [] hi) : es = [] := by
  cases h
  rfl

end Tells

/-! ## Causes -/

/-- The tag that a byte stands for at a production: most tags are numbers of seven bits, which leave the highest bit of the byte out. -/
def TagSite.ofByte : TagSite → UInt8 → UInt8
  | .elementType, x => x
  | .externalKind, x => x
  | .funcType, x => x
  | .valueType, x => x &&& 0x7f
  | .blockType, x => x &&& 0x7f
  | .limits, x => x &&& 0x7f
  | .resultCount, x => x &&& 0x7f

/-- The tags that a production may start with. -/
def TagSite.legal : TagSite → List UInt8
  | .valueType => [0x7f, 0x7e, 0x7d, 0x7c]
  | .blockType => [0x7f, 0x7e, 0x7d, 0x7c, 0x70, 0x60, 0x40]
  | .elementType => [0x70]
  | .externalKind => [0, 1, 2, 3]
  | .limits => [0, 1]
  | .funcType => [0x60]
  | .resultCount => [0, 1]

/-- What the cause says of a byte is true of the input: the byte stands at the offset, and is not allowed there. A cause that names no
byte says nothing of one. -/
def Cause.TrueOf (i : Input) : Cause → Prop
  | .invalidTag site tag offset => (∃ x, Input.PartOf ⟨offset, [x]⟩ i ∧ site.ofByte x = tag) ∧ tag ∉ site.legal
  | .invalidOpcode op offset => Input.PartOf ⟨offset, [op.byte]⟩ i ∧ op.isValid = false
  | _ => True

theorem Cause.TrueOf.of_part {i j : Input} {c : Cause} (h : c.TrueOf j) (hpart : j.PartOf i) : c.TrueOf i := by
  cases c with
  | invalidTag site tag offset =>
    obtain ⟨⟨x, hx, htag⟩, hlegal⟩ := h
    exact ⟨⟨x, hx.trans hpart, htag⟩, hlegal⟩
  | invalidOpcode op offset => exact ⟨h.1.trans hpart, h.2⟩
  | _ => trivial

/-! ## Reports -/

namespace Reader

variable {α β : Type} {p : CountPolicy} {i j : Input} {Q Q' : α → List Instruction → Prop}

/-- What `r` reports on the input `i` is true of it. -/
structure ReportsAt (r : Reader α) (p : CountPolicy) (i : Input) (Q : α → List Instruction → Prop) : Prop where
  gives : ∀ a j, r.Gives p i a j → j.PartOf i ∧ ∃ xs, Q a xs ∧ Tells i i.pos (r p i).events xs j.pos
  error : ∀ s, (r p i).result = .error s →
    (∃ xs, Tells i i.pos (r p i).events xs i.stop) ∧ ∀ e, s.failure = .error e → e.cause.TrueOf i

/-- What `r` reports is true of every input. -/
def Reports (r : Reader α) (Q : α → List Instruction → Prop) : Prop := ∀ p i, ReportsAt r p i Q

/-- A reader that tells of no instruction. -/
def Quiet (r : Reader α) : Prop := Reports r fun _ xs => xs = []

namespace ReportsAt

variable {r : Reader α} {f : α → Reader β} {R : β → List Instruction → Prop}

theorem mono (h : ReportsAt r p i Q) (hQ : ∀ a xs, Q a xs → Q' a xs) : ReportsAt r p i Q' := by
  refine ⟨fun a j hg => ?_, h.error⟩
  obtain ⟨hpart, xs, hx, htells⟩ := h.gives a j hg
  exact ⟨hpart, xs, hQ a xs hx, htells⟩

/-- A reader that gives a value without an event. -/
theorem of_ok {a : α} (h : r p i = ⟨[], .ok (a, j)⟩) (hpart : j.PartOf i) (ha : Q a []) : ReportsAt r p i Q := by
  refine ⟨fun b k hg => ?_, fun s hs => ?_⟩
  · rw [Gives, h, Except.ok.injEq, Prod.mk.injEq] at hg
    obtain ⟨rfl, rfl⟩ := hg
    rw [h]
    exact ⟨hpart, [], ha, .nil hpart.inside.pos_le⟩
  · rw [h] at hs
    cases hs

/-- A reader that fails without an event. -/
theorem of_error {s : Stop} (h : r p i = ⟨[], .error s⟩) (hs : ∀ e, s.failure = .error e → e.cause.TrueOf i) :
    ReportsAt r p i Q := by
  refine ⟨fun b k hg => ?_, fun s' hs' => ?_⟩
  · rw [Gives, h] at hg
    cases hg
  · rw [h, Except.error.injEq] at hs'
    subst hs'
    rw [h]
    exact ⟨⟨[], .nil (Nat.le_add_right _ _)⟩, hs⟩

/-- The second reader tells of what comes after what the first one tells of. -/
protected theorem bind (h : ReportsAt r p i Q)
    (hf : ∀ a j xs, r.Gives p i a j → Q a xs → ReportsAt (f a) p j fun b ys => R b (xs ++ ys)) : ReportsAt (r >>= f) p i R := by
  cases hr : (r p i).result with
  | error s =>
    have hbind : (r >>= f) p i = ⟨(r p i).events, .error s⟩ := bind_of_error (by rw [← hr])
    refine ⟨fun b l hb => ?_, fun s' hs' => ?_⟩
    · rw [Gives, hbind] at hb
      cases hb
    · rw [hbind, Except.error.injEq] at hs'
      subst hs'
      rw [hbind]
      exact h.error s hr
  | ok v =>
    obtain ⟨a, j⟩ := v
    obtain ⟨hpart, xs, hx, htells⟩ := h.gives a j hr
    have ha := hf a j xs hr hx
    have hbind : (r >>= f) p i = ⟨(r p i).events ++ (f a p j).events, (f a p j).result⟩ := bind_of_ok (by rw [← hr])
    refine ⟨fun b l hb => ?_, fun s hs => ?_⟩
    · rw [Gives, hbind] at hb
      obtain ⟨hpart', ys, hy, htells'⟩ := ha.gives b l hb
      rw [hbind]
      exact ⟨hpart'.trans hpart, xs ++ ys, hy, htells.append (htells'.of_part hpart)⟩
    · rw [hbind] at hs
      obtain ⟨⟨ys, htells'⟩, hcause⟩ := ha.error s hs
      rw [hbind]
      refine ⟨⟨xs ++ ys, htells.append ((htells'.of_part hpart).raise hpart.inside.stop_le)⟩, fun e he => ?_⟩
      exact (hcause e he).of_part hpart

/-- An error that is raised after a reader may be about what that reader took. -/
theorem bind_fail {a : α} {e : Error} (h : ReportsAt r p i Q) (ha : r.Gives p i a j) (hf : f a = fail e) (he : e.cause.TrueOf i) :
    ReportsAt (r >>= f) p i R := by
  obtain ⟨hpart, xs, _, htells⟩ := h.gives a j ha
  have hbind : (r >>= f) p i = ⟨(r p i).events ++ [], .error ⟨.error e, j.pos⟩⟩ := by
    have hr : r p i = ⟨(r p i).events, .ok (a, j)⟩ := by rw [← show (r p i).result = _ from ha]
    rw [bind_of_ok hr, hf]
    rfl
  refine ⟨fun b l hb => ?_, fun s hs => ?_⟩
  · rw [Gives, hbind] at hb
    cases hb
  · rw [hbind, Except.error.injEq] at hs
    subst hs
    rw [hbind, List.append_nil]
    refine ⟨⟨xs, htells.raise ?_⟩, fun e' he' => ?_⟩
    · exact Nat.le_trans (Nat.le_add_right _ _) hpart.inside.stop_le
    · obtain rfl := Failure.error.inj he'
      exact he

/-- Contexts and positions around an error leave its cause as it is. -/
theorem mapError {r' : Reader α} {g : Stop → Stop} (h : ReportsAt r p i Q)
    (hr : r' p i = ⟨(r p i).events, (r p i).result.mapError g⟩)
    (hg : ∀ s e', (g s).failure = .error e' → ∃ e, s.failure = .error e ∧ e'.cause = e.cause) : ReportsAt r' p i Q := by
  refine ⟨fun a j ha => ?_, fun s hs => ?_⟩
  · rw [Gives, hr] at ha
    rw [hr]
    exact h.gives a j (mapError_eq_ok.mp ha)
  · rw [hr] at hs
    rw [hr]
    cases hres : (r p i).result with
    | ok v =>
      rw [hres] at hs
      cases hs
    | error s' =>
      rw [hres, mapError_error, Except.error.injEq] at hs
      subst hs
      obtain ⟨htells, hcause⟩ := h.error s' hres
      refine ⟨htells, fun e' he' => ?_⟩
      obtain ⟨e, he, hsame⟩ := hg s' e' he'
      rw [hsame]
      exact hcause e he

end ReportsAt

/-! ## Readers that take nothing, or bytes alone -/

/-- An error about no byte. -/
protected theorem Reports.fail {e : Error} (he : ∀ i, e.cause.TrueOf i) : Reports (fail e : Reader α) Q := by
  intro p i
  refine .of_error rfl fun e' he' => ?_
  obtain rfl := Failure.error.inj he'
  exact he i

/-- A fault is about no byte. -/
protected theorem Reports.outOfRounds : Reports (outOfRounds : Reader α) Q :=
  fun _ _ => .of_error rfl fun _ he => nomatch he

namespace Quiet

theorem of_idle {r : Reader α} (h : ∀ p i, ∃ a, r p i = ⟨[], .ok (a, i)⟩) : Quiet r := by
  intro p i
  obtain ⟨a, ha⟩ := h p i
  exact .of_ok ha (.refl i) rfl

protected theorem pure (a : α) : Quiet (pure a : Reader α) := of_idle fun _ _ => ⟨a, rfl⟩

protected theorem position : Quiet position := of_idle fun _ i => ⟨i.pos, rfl⟩

protected theorem remaining : Quiet remaining := of_idle fun _ i => ⟨i.rest, rfl⟩

protected theorem hasRoom (n : Nat) : Quiet (hasRoom n) := of_idle fun _ _ => ⟨_, rfl⟩

protected theorem admits (n : Nat) : Quiet (admits n) := of_idle fun _ _ => ⟨_, rfl⟩

protected theorem reaches (n : Nat) : Quiet (reaches n) := of_idle fun _ _ => ⟨_, rfl⟩

protected theorem ensure (ok : Bool) {e : Error} (he : ∀ i, e.cause.TrueOf i) : Quiet (ensure ok e) := by
  cases ok with
  | false => exact Reports.fail he
  | true => exact Quiet.pure ()

protected theorem next : Quiet next := by
  intro p i
  obtain ⟨pos, rest⟩ := i
  cases rest with
  | nil => exact .of_error rfl fun e he => nomatch he
  | cons x rest => exact .of_ok rfl (.of_append (w := [x]) rfl rfl) rfl

protected theorem slice (n : Nat) : Quiet (slice n) := by
  intro p i
  by_cases hn : i.holds n = true
  · refine .of_ok (j := ⟨i.pos + n, i.rest.drop n⟩) (if_pos hn) ?_ rfl
    refine .of_append (w := i.rest.take n) (List.take_append_drop n i.rest).symm ?_
    rw [List.length_take_of_le (holds_iff.mp hn).2]
  · exact .of_error (if_neg hn) fun e he => nomatch he

end Quiet

/-! ## Readers made of readers -/

namespace Reports

variable {r : Reader α} {f : α → Reader β} {R : β → List Instruction → Prop}

theorem mono (h : Reports r Q) (hQ : ∀ a xs, Q a xs → Q' a xs) : Reports r Q' := fun p i => (h p i).mono hQ

protected theorem pure {a : α} (ha : Q a []) : Reports (pure a : Reader α) Q := fun _ i => .of_ok rfl (.refl i) ha

protected theorem bind (h : Reports r Q) (hf : ∀ a xs, Q a xs → Reports (f a) fun b ys => R b (xs ++ ys)) :
    Reports (r >>= f) R :=
  fun p i => (h p i).bind fun a j xs _ hx => hf a xs hx p j

/-- After a reader that tells of nothing there is only what the next one tells of. -/
protected theorem quiet_bind (h : Quiet r) (hf : ∀ a, Reports (f a) R) : Reports (r >>= f) R := by
  refine Reports.bind h fun a xs hx => ?_
  subst hx
  exact hf a

protected theorem map (h : Reports r Q) (g : α → β) (hQ : ∀ a xs, Q a xs → R (g a) xs) : Reports (g <$> r) R := by
  refine Reports.bind h fun a xs hx => Reports.pure ?_
  rw [List.append_nil]
  exact hQ a xs hx

protected theorem ite {c : Prop} [Decidable c] {r' : Reader α} (h : c → Reports r Q) (h' : ¬c → Reports r' Q) :
    Reports (if c then r else r') Q := by
  by_cases hc : c
  · rw [if_pos hc]
    exact h hc
  · rw [if_neg hc]
    exact h' hc

protected theorem within (c : Context) (h : Reports r Q) : Reports (within c r) Q := by
  refine fun p i => (h p i).mapError rfl fun s e' he' => ?_
  obtain ⟨failure, pos⟩ := s
  cases failure with
  | fault x => cases he'
  | error e =>
    obtain rfl := Failure.error.inj he'
    exact ⟨e, rfl, rfl⟩

protected theorem restoring (h : Reports r Q) : Reports (restoring r) Q :=
  fun p i => (h p i).mapError rfl fun _ e' he' => ⟨e', he', rfl⟩

protected theorem measured (h : Reports r Q) : Reports (measured r) fun a xs => Q a.1 xs := by
  intro p i
  refine ⟨?_, fun s hs => ?_⟩
  · rintro ⟨a, n⟩ j hg
    exact (h p i).gives a j (gives_measured.mp hg).1
  · cases hres : (r p i).result with
    | ok v => simp [measured, hres, Except.map] at hs
    | error s' =>
      simp only [measured, hres, Except.map, Except.error.injEq] at hs
      exact (h p i).error s (by rw [hres, hs])

/-- The input can be cut where a reader ended, so what is made of the two parts fails only if the reader does. -/
theorem result_cut {g : α → Input → Bytes × Bytes → β × Input} (h : Reports r Q) {s : Stop}
    (hs : (do
      let (a, j) ← (r p i).result
      let c ← i.splitAt j.pos
      pure (g a j c)) = Except.error s) : (r p i).result = .error s := by
  rw [cut_eq fun a j hg => ⟨((h p i).gives a j hg).1.inside.pos_le, ((h p i).gives a j hg).1.inside.pos_le_stop⟩] at hs
  cases hres : (r p i).result with
  | ok v => simp [hres, Except.map] at hs
  | error s' =>
    rw [hres] at hs
    rw [Except.error.inj hs]

/-- What is cut off behind a reader is not told of. -/
protected theorem followed (h : Reports r Q) : Reports (followed r) fun a xs => Q a.1 xs := by
  intro p i
  refine ⟨?_, fun s hs => ?_⟩
  · rintro ⟨a, b⟩ j hg
    obtain ⟨k, hk, _, hle, _, rfl⟩ := gives_followed.mp hg
    obtain ⟨_, xs, hx, htells⟩ := (h p i).gives a k hk
    exact ⟨.of_append (w := i.rest) (List.append_nil _).symm rfl, xs, hx, htells.raise hle⟩
  · exact (h p i).error s (h.result_cut (g := fun a _ c => ((a, c.2), ⟨i.pos + i.rest.length, []⟩)) hs)

protected theorem captured (h : Reports r Q) : Reports (captured r) fun a xs => Q a.1 xs := by
  intro p i
  refine ⟨?_, fun s hs => ?_⟩
  · rintro ⟨a, b⟩ j hg
    exact (h p i).gives a j (gives_captured.mp hg).1
  · exact (h p i).error s (h.result_cut (g := fun a j c => ((a, c.1), j)) hs)

/-- Entries tell of their instructions one after the other. -/
protected theorem entries (name : String) {g : α → List Instruction} (h : Reports r fun a xs => xs = g a) (n k : Nat) :
    Reports (entries name r n k) fun as xs => xs = as.flatMap g := by
  induction n generalizing k with
  | zero => exact Reports.pure rfl
  | succ n ih =>
    refine Reports.bind (h.within _) fun a xs ha => Reports.bind (ih (k + 1)) fun as ys has => Reports.pure ?_
    rw [ha, has, List.append_nil, List.flatMap_cons]

end Reports

namespace Quiet

variable {r : Reader α} {f : α → Reader β}

protected theorem bind (h : Quiet r) (hf : ∀ a, Quiet (f a)) : Quiet (r >>= f) := Reports.quiet_bind h hf

protected theorem within (c : Context) (h : Quiet r) : Quiet (within c r) := Reports.within c h

protected theorem restoring (h : Quiet r) : Quiet (restoring r) := Reports.restoring h

/-- A value without instructions that is made of what a quiet reader gives. -/
protected theorem reports_map {g : α → β} {instructions : β → List Instruction} (h : Quiet r) (hg : ∀ a, instructions (g a) = []) :
    Reports (g <$> r) fun b xs => xs = instructions b := by
  refine Reports.map h g fun a xs hx => ?_
  rw [hx, hg]

protected theorem ite {c : Prop} [Decidable c] {r' : Reader α} (h : c → Quiet r) (h' : ¬c → Quiet r') :
    Quiet (if c then r else r') :=
  Reports.ite h h'

protected theorem measured (h : Quiet r) : Quiet (measured r) := Reports.measured h

protected theorem captured (h : Quiet r) : Quiet (captured r) := Reports.captured h

protected theorem followed (h : Quiet r) : Quiet (followed r) := Reports.followed h

protected theorem entries (name : String) (h : Quiet r) (n k : Nat) : Quiet (entries name r n k) := by
  refine (Reports.entries name h n k).mono fun as xs hx => ?_
  rw [hx, List.flatMap_eq_nil_iff]
  intro a _
  rfl

end Quiet

end Reader

end WasmInspect
