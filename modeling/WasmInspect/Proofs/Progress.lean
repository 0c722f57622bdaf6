import WasmInspect.Proofs.Grammar.Failure
import WasmInspect.Proofs.Locality
import WasmInspect.Proofs.Stream

/-!
# Reads go forward

A read at any position, inside of the bytes or not, either fails and gives the position back at which it began, or it ends further on and no
later than the bytes. Outside of the bytes it fails because they end.

So no loop over productions goes on for longer than there are bytes. The loops are written with a bound on their rounds: one for each
byte that is left, or a count. A loop that would go on after its last round has an outcome of its own, `Outcome.OutOfRounds`, which is never
reached, since each round takes a byte or more; a larger bound changes nothing. A count that is larger than the number of bytes left is refused
before the first round.
-/

namespace WasmInspect

open Reader Grammar

/-! ## Positions -/

/-- Every production ends further on, and inside of the input. -/
theorem Production.forward {q : Production} {p : CountPolicy} {i j : Input} {v : q.Value} (h : q.read.Gives p i v j) :
    i.pos < j.pos ∧ j.pos ≤ i.pos + i.rest.length := by
  by_cases hq : q = .custom
  · subst hq
    obtain ⟨name, b⟩ := v
    obtain ⟨k, hname, _, rfl⟩ := gives_custom.mp h
    have hk := takes_nameText.rest_length hname
    simp only
    omega
  · have hj := (takes_read hq).rest_length h
    omega

namespace Cursor

variable {b : Bytes} {st : Int}

/-- The input at a position outside of the bytes is empty. -/
theorem rest_inputAt_of_outside (h : st < 0 ∨ (b.length : Int) ≤ st) : (inputAt b st).rest = [] := by
  unfold inputAt
  by_cases hneg : st < 0
  · rw [if_pos hneg]
  · rw [if_neg hneg]
    exact List.drop_eq_nil_of_le (by omega)

theorem inputAt_stop_lt (hb : b.length < lengthBound) (hst : st < lengthBound) : (inputAt b st).stop < lengthBound := by
  unfold inputAt
  by_cases hneg : st < 0
  · rw [if_pos hneg]
    exact Nat.lt_of_le_of_lt (Nat.zero_le _) hb
  · rw [if_neg hneg]
    simp only [Input.stop, Input.at, List.length_drop]
    omega

theorem length_rest_inputAt_le (b : Bytes) (st : Int) : (inputAt b st).rest.length ≤ b.length := by
  unfold inputAt
  by_cases hneg : st < 0
  · rw [if_pos hneg]
    exact Nat.zero_le _
  · rw [if_neg hneg]
    simp only [Input.at, List.length_drop]
    omega

/-- A failed read leaves the position as it is, and is no fault; outside of the bytes the input has ended. -/
theorem readAt_error (hb : b.length < lengthBound) (hst : st < lengthBound) {q : Production} {f : Failure}
    (h : (readAt q.read b st).result = .error f) :
    (readAt q.read b st).pos = st ∧ ∃ e, f = .error e ∧ (st < 0 ∨ (b.length : Int) ≤ st → e.cause = .outOfBounds) := by
  have hstop := inputAt_stop_lt hb hst
  unfold readAt at h ⊢
  cases hr : (q.read .checked (inputAt b st)).result with
  | ok v => simp [hr] at h
  | error s =>
    obtain ⟨x, pos⟩ := s
    simp only [hr, Except.error.injEq] at h ⊢
    subst h
    have hpos : pos = (inputAt b st).pos := Production.restores_read q .checked _ _ hr
    refine ⟨by omega, ?_⟩
    cases x with
    | fault x => exact absurd hr ((Production.moves_read (k := 0) q .checked _ hstop).noFault x pos)
    | error e =>
      refine ⟨e, rfl, fun hout => ?_⟩
      have hinput : inputAt b st = ⟨(inputAt b st).pos, []⟩ := by
        rw [← rest_inputAt_of_outside hout]
      obtain ⟨e', pos', he', hcause⟩ :=
        Production.starves_read q .checked _ (Nat.lt_of_le_of_lt (Nat.le_add_right _ _) hstop)
      rw [← hinput, hr, Except.error.injEq, Stop.mk.injEq, Failure.error.injEq] at he'
      rw [he'.1]
      exact hcause

/-- A read that succeeds starts inside of the bytes, and ends further on and no later than these. -/
theorem readAt_ok (hb : b.length < lengthBound) (hst : st < lengthBound) {q : Production} {v : q.Value}
    (h : (readAt q.read b st).result = .ok v) :
    0 ≤ st ∧ st < (readAt q.read b st).pos ∧ (readAt q.read b st).pos ≤ b.length := by
  have hstop := inputAt_stop_lt hb hst
  unfold readAt at h ⊢
  cases hr : (q.read .checked (inputAt b st)).result with
  | error e => simp [hr] at h
  | ok x =>
    obtain ⟨a, j⟩ := x
    simp only [hr]
    have hforward := Production.forward hr
    have hne := (Production.starves_read q).rest_ne_nil (Nat.lt_of_le_of_lt (Nat.le_add_right _ _) hstop) hr
    have hinside : ¬(st < 0 ∨ (b.length : Int) ≤ st) := fun hout => hne (rest_inputAt_of_outside hout)
    simp only [inputAt, if_neg (fun hneg => hinside (Or.inl hneg)), Input.at, List.length_drop] at hforward
    omega

/-- So many reads of a production in a row, each at the position where the one before ended. -/
inductive InRow (q : Production) (b : Bytes) : (n : Nat) → (st stop : Int) → Prop
  | none (st : Int) : InRow q b 0 st st
  | more {n : Nat} {st next stop : Int} {v : q.Value} :
      readAt q.read b st = ⟨next, .ok v⟩ → InRow q b n next stop → InRow q b (n + 1) st stop

/-- Each read in a row takes a byte. -/
theorem InRow.forward (hb : b.length < lengthBound) {q : Production} {n : Nat} {stop : Int} (h : InRow q b n st stop)
    (hst : st < lengthBound) : st + n ≤ stop ∧ (n = 0 ∧ stop = st ∨ 0 ≤ st ∧ stop ≤ b.length) := by
  induction h with
  | none st => exact ⟨by simp, Or.inl ⟨rfl, rfl⟩⟩
  | @more n st next stop v hread _ ih =>
    have hok : (readAt q.read b st).result = .ok v := by rw [hread]
    obtain ⟨h0, hlt, hle⟩ := readAt_ok hb hst hok
    simp only [hread] at hlt hle
    obtain ⟨hnext, hlast⟩ := ih (by omega)
    refine ⟨by omega, Or.inr ⟨h0, ?_⟩⟩
    rcases hlast with ⟨_, rfl⟩ | ⟨_, hstop⟩
    · exact hle
    · exact hstop

/-- There are no more reads in a row than bytes. -/
theorem InRow.le_length (hb : b.length < lengthBound) (hst : st < lengthBound) {q : Production} {n : Nat} {stop : Int}
    (h : InRow q b n st stop) : n ≤ b.length := by
  have hforward := h.forward hb hst
  omega

end Cursor

/-! ## Loops -/

/-- A loop would go on after all the rounds that it was given. -/
def Outcome.OutOfRounds {α : Type} (o : Outcome α) : Prop := ∃ pos, o.result = .error ⟨.fault .rounds, pos⟩

theorem Reader.MovesAt.not_outOfRounds {α : Type} {k : Nat} {r r' : Reader α} {p : CountPolicy} {i : Input} (h : MovesAt k r r' p i) :
    ¬(r p i).OutOfRounds :=
  fun ⟨pos, hpos⟩ => h.noFault .rounds pos hpos

namespace Grammar

variable {p : CountPolicy} {i k : Input}

/-- An expression ends after at most as many rounds as there are bytes: any bound from there on gives the same outcome. -/
theorem expressionLoop_eq_of_le {fuel fuel' : Bytes} (h : i.rest.length ≤ fuel.length) (h' : i.rest.length ≤ fuel'.length) :
    expressionLoop fuel p i = expressionLoop fuel' p i := by
  induction fuel generalizing fuel' i with
  | nil =>
    obtain ⟨pos, rest⟩ := i
    obtain rfl : rest = [] := List.eq_nil_of_length_eq_zero (Nat.le_zero.mp h)
    cases fuel' <;> rfl
  | cons x fuel ih =>
    cases fuel' with
    | nil =>
      obtain ⟨pos, rest⟩ := i
      obtain rfl : rest = [] := List.eq_nil_of_length_eq_zero (Nat.le_zero.mp h')
      rfl
    | cons y fuel' =>
      rw [expressionLoop, expressionLoop]
      refine bind_eq_bind rfl fun x j hx => ?_
      have hj := takes_instruction.rest_length hx
      simp only [List.length_cons] at h h'
      by_cases hend : x.op = .blockEnd
      · rw [if_pos hend, if_pos hend]
      · rw [if_neg hend, if_neg hend]
        exact bind_eq_bind (ih (by omega) (by omega)) fun _ _ _ => rfl

/-- The code of a body ends after at most as many rounds as bytes are left of the body. -/
theorem codeLoop_eq_of_le {fuel fuel' left : Nat} (h : left ≤ fuel) (h' : left ≤ fuel') :
    codeLoop fuel left p i = codeLoop fuel' left p i := by
  have hdone : ∀ n, codeLoop n 0 = pure [] := by
    intro n
    cases n <;> rfl
  induction fuel generalizing fuel' left i with
  | zero =>
    obtain rfl := Nat.le_zero.mp h
    rw [hdone, hdone]
  | succ fuel ih =>
    cases fuel' with
    | zero =>
      obtain rfl := Nat.le_zero.mp h'
      rw [hdone, hdone]
    | succ fuel' =>
      rw [codeLoop, codeLoop]
      by_cases hleft : 1 < left
      · rw [if_pos hleft, if_pos hleft]
        refine bind_eq_bind rfl ?_
        rintro ⟨x, n⟩ j hx
        refine bind_eq_bind ?_ fun _ _ _ => rfl
        obtain ⟨hx, hn⟩ := gives_measured.mp hx
        have hj := takes_instruction.rest_length hx
        exact ih (by omega) (by omega)
      · rw [if_neg hleft, if_neg hleft]

variable {α : Type} {r : Reader α} {n : Nat}

/-- A count that is checked is compared with the bytes that are left. -/
theorem value_admits_bind {f : Bool → Reader α} :
    ((admits n >>= f) .checked i).value = (f (decide (n ≤ i.rest.length)) .checked i).value := by
  have hadmits : (admits n).Gives .checked i (decide (n ≤ i.rest.length)) i := by
    refine gives_admits.mpr ⟨?_, rfl⟩
    simp only [reduceCtorEq, false_or]
  exact hadmits.value_bind

theorem value_ensure_bind {f : Unit → Reader α} {ok : Bool} {e : Error} :
    ((ensure ok e >>= f) p i).value = if ok then (f () p i).value else .error (.error e) := by
  cases ok with
  | false => rfl
  | true => exact (gives_ensure.mpr ⟨rfl, rfl⟩ : (ensure true e).Gives p i () i).value_bind

/-- A list is read only if it has no more entries than there are bytes left. -/
theorem value_list (counts item : String) (h : count.Gives .checked i n k) :
    (list counts item r .checked i).value =
      if n ≤ k.rest.length then (entries item r n 0 .checked k).value else .error (.error (.ofCause .outOfBounds)) := by
  unfold list
  rw [(gives_within.mpr h).value_bind, value_admits_bind, value_ensure_bind]
  simp only [decide_eq_true_eq]

/-- The entries of a section are read only if as many bytes are left as they take at least. -/
theorem value_vector (item : String) (least : Nat) (h : count.Gives .checked i n k) :
    (vector item least r .checked i).value =
      if n * least ≤ k.rest.length then (entries item r n 0 .checked k).value
      else .error (.error (.malformed (.listTooLong n k.rest.length))) := by
  unfold vector
  rw [value_restoring, (gives_within.mpr h).value_bind, value_admits_bind, (gives_remaining.mpr ⟨rfl, rfl⟩).value_bind,
    value_ensure_bind]
  simp only [decide_eq_true_eq]

end Grammar

/-- No loop that starts at the place `i` makes more than `bound` rounds. For loops that end when what they read says so, this means that
they do not run out of so many rounds or more, and that it does not matter how many these are; for those that follow a count it means that the
count is not larger. -/
structure RoundsWithin (bound : Nat) (i : Input) : Prop where
  /-- The sections of a module. -/
  sections : ∀ fuel : Bytes, bound ≤ fuel.length →
    ¬(sectionLoop fuel .checked i).OutOfRounds ∧ sectionLoop fuel .checked i = Grammar.sections .checked i
  /-- The instructions of an expression. -/
  expression : ∀ fuel : Bytes, bound ≤ fuel.length →
    ¬(expressionLoop fuel .checked i).OutOfRounds ∧ restoring (expressionLoop fuel) .checked i = Grammar.expression .checked i
  /-- The instructions of a body, after its local variables. -/
  body : ∀ size locals taken k, size ≤ i.rest.length →
    (measured (Grammar.list "local count" "local" localGroup)).Gives .checked i (locals, taken) k →
      size - taken ≤ bound ∧ ∀ fuel, bound ≤ fuel →
        ¬(codeLoop fuel (size - taken) .checked k).OutOfRounds ∧
          codeLoop fuel (size - taken) .checked k = codeLoop (size - taken) (size - taken) .checked k
  /-- The entries of a list: the targets of a branch table, parameters, local variables, the functions of an element. -/
  list : ∀ {α : Type} (r : Reader α) counts item n k, count.Gives .checked i n k →
    n ≤ bound ∧ (Grammar.list counts item r .checked i).value = (entries item r n 0 .checked k).value ∨
      (Grammar.list counts item r .checked i).value = .error (.error (.ofCause .outOfBounds))
  /-- The entries of a section. -/
  vector : ∀ {α : Type} (r : Reader α) item least n k, 0 < least → count.Gives .checked i n k →
    n ≤ bound ∧ (Grammar.vector item least r .checked i).value = (entries item r n 0 .checked k).value ∨
      (Grammar.vector item least r .checked i).value = .error (.error (.malformed (.listTooLong n k.rest.length)))

/-- The number of bytes is a bound on the rounds. -/
theorem roundsWithin {bound : Nat} {i : Input} (hi : i.stop < lengthBound) (h : i.rest.length ≤ bound) : RoundsWithin bound i where
  sections fuel hfuel := by
    have henough : i.rest.length ≤ fuel.length := Nat.le_trans h hfuel
    exact ⟨(movesAt_sectionLoop (k := 0) hi henough).not_outOfRounds, sectionLoop_fuel henough (Nat.le_refl _)⟩
  expression fuel hfuel := by
    have henough : i.rest.length ≤ fuel.length := Nat.le_trans h hfuel
    have hloop := expressionLoop_eq_of_le (p := .checked) henough (Nat.le_refl i.rest.length)
    exact ⟨(movesAt_expressionLoop (k := 0) hi henough).not_outOfRounds, restoring_congr hloop⟩
  body size locals taken k hsize hlocals := by
    have hleft : size - taken ≤ bound := Nat.le_trans (Nat.sub_le _ _) (Nat.le_trans hsize h)
    have hinside := ((moves_list (k := 0) "local count" "local" moves_localGroup).measured .checked i hi).inside _ _ hlocals
    have hk : k.stop + 0 < lengthBound := Nat.lt_of_le_of_lt hinside.stop_le hi
    refine ⟨hleft, fun fuel hfuel => ?_⟩
    have henough : size - taken ≤ fuel := Nat.le_trans hleft hfuel
    exact ⟨(moves_codeLoop henough .checked k hk).not_outOfRounds, codeLoop_eq_of_le henough (Nat.le_refl _)⟩
  list r counts item n k hcount := by
    have hk := takes_count.rest_length hcount
    rw [value_list counts item hcount]
    by_cases hn : n ≤ k.rest.length
    · exact Or.inl ⟨by omega, if_pos hn⟩
    · exact Or.inr (if_neg hn)
  vector r item least n k hleast hcount := by
    have hk := takes_count.rest_length hcount
    rw [value_vector item least hcount]
    by_cases hn : n * least ≤ k.rest.length
    · have hle : n ≤ n * least := Nat.le_mul_of_pos_right n hleast
      exact Or.inl ⟨by omega, if_pos hn⟩
    · exact Or.inr (if_neg hn)

namespace Cursor

/-- The position contract of a read, for every production and every position, negative ones and those past the bytes included. If it
fails, then not with a fault, the position is as before, and outside of the bytes the cause is that these end. If it succeeds, then it
starts inside of the bytes and ends further on, no later than these. So there are no more reads in a row than bytes, and no loop makes
more rounds than there are bytes: with so many rounds none runs out of them. -/
theorem readAt_contract (q : Production) (b : Bytes) (st : Int) (hb : b.length < lengthBound) (hst : st < lengthBound) :
    (∀ f, (readAt q.read b st).result = .error f → (readAt q.read b st).pos = st ∧
      ∃ e, f = .error e ∧ (st < 0 ∨ (b.length : Int) ≤ st → e.cause = .outOfBounds)) ∧
    (∀ v, (readAt q.read b st).result = .ok v →
      0 ≤ st ∧ st < (readAt q.read b st).pos ∧ (readAt q.read b st).pos ≤ b.length) ∧
    (∀ n stop, InRow q b n st stop → n ≤ b.length) ∧
    RoundsWithin b.length (inputAt b st) :=
  ⟨fun _ => readAt_error hb hst, fun _ => readAt_ok hb hst, fun _ _ => InRow.le_length hb hst,
    roundsWithin (inputAt_stop_lt hb hst) (length_rest_inputAt_le b st)⟩

/-- An expression of two instructions is read at its start and not before it; its second byte is one too, and no more bytes are there. Two rounds
are enough for it, and one is not. -/
theorem readAt_contract_expression :
    (∃ e, readAt Production.expression.read [0x01, 0x0b] (-1) = ⟨-1, .error (.error e)⟩ ∧ e.cause = .outOfBounds) ∧
      readAt Production.expression.read [0x01, 0x0b] 0 = ⟨2, .ok [⟨⟨0x01⟩, none⟩, ⟨⟨0x0b⟩, none⟩]⟩ ∧
      (0 : Int) < (readAt Production.expression.read [0x01, 0x0b] 0).pos ∧
      (∀ n stop, InRow .expression [0x01, 0x0b] n 0 stop → n ≤ 2) ∧
      ¬(expressionLoop [0, 0] .checked (inputAt [0x01, 0x0b] 0)).OutOfRounds ∧
      (expressionLoop [0] .checked (inputAt [0x01, 0x0b] 0)).OutOfRounds := by
  obtain ⟨hbefore, _⟩ := readAt_contract .expression [0x01, 0x0b] (-1) (by decide) (by decide)
  obtain ⟨_, hstart, hrow, hrounds⟩ := readAt_contract .expression [0x01, 0x0b] 0 (by decide) (by decide)
  obtain ⟨_, e, he, hcause⟩ := hbefore (.error (.ofCause .outOfBounds)) rfl
  obtain rfl := Failure.error.inj he
  obtain ⟨henough, _⟩ := hrounds.expression [0, 0] (by decide)
  exact ⟨⟨_, rfl, hcause (Or.inl (by decide))⟩, rfl, (hstart _ rfl).2.1, hrow, henough, ⟨2, rfl⟩⟩

end Cursor

end WasmInspect
