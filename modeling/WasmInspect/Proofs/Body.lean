import WasmInspect.Proofs.Outcome
import WasmInspect.Proofs.Progress

/-!
# The grammar of a body

A body is read without being cut off from what stands after it: its instructions are read from all that is left of the section, until one byte of
the declared size is left, and only the last check compares where they end with where the body should. So it is not plain that a body is
what its bytes alone say. It is: a body is read exactly when its bytes, on their own, are local variables and then instructions up to the end
of these bytes, the last of which is `end`.
-/

namespace WasmInspect

namespace Cursor

open Reader Grammar

variable {q : Production} {b : Bytes}

/-- Reads of a production in a row, each where the one before ended: the values, and where the last one ended. -/
inductive Sequence (q : Production) (b : Bytes) : (st : Nat) → List q.Value → (stop : Nat) → Prop
  | nil (st : Nat) : Sequence q b st [] st
  | cons {st next stop : Nat} {v : q.Value} {vs : List q.Value} :
      readAt q.read b st = ⟨next, .ok v⟩ → Sequence q b next vs stop → Sequence q b st (v :: vs) stop

/-- The bytes `w` are the content of a body: the number of its groups of local variables, these, and instructions to the end of `w`; the code
is all of them but the last, which is `end`. -/
def IsBody (w : Bytes) (locals : List LocalGroup) (code : Code) : Prop :=
  ∃ (first last : Nat) (x : Instruction), readAt Production.count.read w 0 = ⟨first, .ok locals.length⟩ ∧
    Sequence .localGroup w first locals last ∧ Sequence .instruction w last (code ++ [x]) w.length ∧ x.op = .blockEnd

/-! ## Reads in a row -/

/-- A read gives a value exactly when the reader does, which then stands at the place where the read ended. -/
theorem readAt_iff_gives (hq : q ≠ .custom) {st next : Nat} {v : q.Value} :
    readAt q.read b st = ⟨next, .ok v⟩ ↔ q.read.Gives .checked (Input.at b st) v (Input.at b next) := by
  rw [readAt_eq_ok_iff]
  constructor
  · rintro ⟨rest, h⟩
    have hat := (Production.takes_read hq).at_eq (show q.read.Gives .checked (Input.at b st) v _ from h)
    rwa [hat] at h
  · intro h
    exact ⟨_, h⟩

/-- A read goes forward, and ends inside of the bytes. -/
theorem readAt_forward {st next : Nat} {v : q.Value} (h : readAt q.read b st = ⟨next, .ok v⟩) : st < next ∧ next ≤ b.length := by
  obtain ⟨rest, h⟩ := readAt_eq_ok_iff.mp h
  have hforward := Production.forward h
  simp only [List.length_drop] at hforward
  omega

namespace Sequence

variable {st mid stop : Nat} {vs ws : List q.Value}

@[simp] theorem nil_iff : Sequence q b st [] stop ↔ st = stop := by
  constructor
  · rintro ⟨⟩
    rfl
  · rintro rfl
    exact nil st

@[simp] theorem cons_iff {v : q.Value} :
    Sequence q b st (v :: vs) stop ↔ ∃ next : Nat, readAt q.read b st = ⟨next, .ok v⟩ ∧ Sequence q b next vs stop := by
  constructor
  · rintro (_ | ⟨hread, hrest⟩)
    exact ⟨_, hread, hrest⟩
  · rintro ⟨next, hread, hrest⟩
    exact cons hread hrest

/-- Each read takes a byte, and none goes past the end. -/
theorem forward (h : Sequence q b st vs stop) : st + vs.length ≤ stop ∧ stop ≤ max st b.length := by
  induction h with
  | nil st => exact ⟨Nat.le_refl _, Nat.le_max_left _ _⟩
  | cons hread _ ih =>
    have hnext := readAt_forward hread
    rw [List.length_cons]
    omega

/-- Reads in a row go on with more reads. -/
theorem append (h : Sequence q b st vs mid) (h' : Sequence q b mid ws stop) : Sequence q b st (vs ++ ws) stop := by
  induction h with
  | nil st => exact h'
  | cons hread _ ih => exact cons hread (ih h')

/-- So many entries are so many reads in a row. -/
theorem entries_iff (hq : q ≠ .custom) (name : String) {n k : Nat} :
    (entries name q.read n k).Gives .checked (Input.at b st) vs (Input.at b stop) ↔ vs.length = n ∧ Sequence q b st vs stop := by
  induction n generalizing st vs k with
  | zero =>
    simp only [entries, gives_pure]
    constructor
    · rintro ⟨rfl, hat⟩
      exact ⟨rfl, nil_iff.mpr (congrArg Input.pos hat)⟩
    · rintro ⟨hlen, h⟩
      obtain rfl := List.eq_nil_of_length_eq_zero hlen
      obtain rfl := nil_iff.mp h
      exact ⟨rfl, rfl⟩
  | succ n ih =>
    simp only [entries, gives_bind, gives_within, gives_pure]
    constructor
    · rintro ⟨v, i, hv, vs, j, hvs, rfl, rfl⟩
      have hat := (Production.takes_read hq).at_eq hv
      rw [hat] at hv hvs
      obtain ⟨hlen, hrest⟩ := ih.mp hvs
      exact ⟨by rw [List.length_cons, hlen], cons ((readAt_iff_gives hq).mpr hv) hrest⟩
    · rintro ⟨hlen, h⟩
      obtain ⟨v, vs, rfl⟩ := List.exists_cons_of_length_eq_add_one hlen
      obtain ⟨next, hread, hrest⟩ := cons_iff.mp h
      exact ⟨v, _, (readAt_iff_gives hq).mp hread, vs, _, ih.mpr ⟨Nat.succ.inj hlen, hrest⟩, rfl, rfl⟩

end Sequence

/-! ## Reads in a part of the bytes -/

theorem length_part {start size : Nat} (h : start + size ≤ b.length) : ((b.drop start).take size).length = size := by
  rw [List.length_take, List.length_drop]
  omega

/-- A read depends on the bytes between its two positions alone. -/
theorem readAt_iff_slice (hq : q ≠ .custom) (hb : b.length < lengthBound) {st next : Nat} {v : q.Value} (hle : st ≤ next)
    (hnext : next ≤ b.length) :
    readAt q.read b st = ⟨next, .ok v⟩ ↔ readAt q.read ((b.drop st).take (next - st)) 0 = ⟨(next - st : Nat), .ok v⟩ := by
  have hlen : ((b.drop st).take (next - st)).length = next - st := length_part (by omega)
  have hpre : (b.take st).length = st := List.length_take_of_le (by omega)
  have hzero : (0 : Int) = ((0 : Nat) : Int) := rfl
  have hbound : (b.take st).length + ((b.drop st).take (next - st)).length + ((b.drop st).drop (next - st)).length < lengthBound := by
    simp only [List.length_drop]
    omega
  have hbetween := gives_between_iff (Production.takes_read hq) (fun _ => Production.moves_read q) (v := v) hbound
  rw [hpre, hlen, List.take_append_drop, Nat.add_sub_cancel' hle] at hbetween
  rw [readAt_eq_ok_iff, hbetween, hzero, readAt_eq_ok_iff, List.drop_zero]

/-- So a read inside of a part of the bytes is one of all the bytes, at the same place of these. -/
theorem readAt_part_iff (hq : q ≠ .custom) (hb : b.length < lengthBound) {start size st next : Nat} {v : q.Value}
    (hsize : start + size ≤ b.length) (hle : st ≤ next) (hnext : next ≤ size) :
    readAt q.read ((b.drop start).take size) st = ⟨next, .ok v⟩ ↔
      readAt q.read b (start + st : Nat) = ⟨(start + next : Nat), .ok v⟩ := by
  have hlen := length_part hsize
  have hsame : (((b.drop start).take size).drop st).take (next - st) = (b.drop (start + st)).take (next - st) := by
    rw [List.drop_take, List.take_take, List.drop_drop, Nat.min_eq_left (by omega)]
  have hsub : start + next - (start + st) = next - st := by omega
  rw [readAt_iff_slice hq (by omega) hle (by omega), readAt_iff_slice hq hb (by omega) (by omega), hsame, hsub]

theorem sequence_part_iff (hq : q ≠ .custom) (hb : b.length < lengthBound) {start size st stop : Nat} {vs : List q.Value}
    (hsize : start + size ≤ b.length) (hstop : stop ≤ size) :
    Sequence q ((b.drop start).take size) st vs stop ↔ Sequence q b (start + st) vs (start + stop) := by
  induction vs generalizing st with
  | nil =>
    simp only [Sequence.nil_iff]
    omega
  | cons v vs ih =>
    simp only [Sequence.cons_iff]
    constructor
    · rintro ⟨next, hread, hrest⟩
      have hforward := readAt_forward hread
      have hlast := hrest.forward
      exact ⟨start + next, (readAt_part_iff hq hb hsize (by omega) (by omega)).mp hread, ih.mp hrest⟩
    · rintro ⟨next, hread, hrest⟩
      have hforward := readAt_forward hread
      have hlast := hrest.forward
      obtain ⟨k, rfl⟩ : ∃ k, next = start + k := ⟨next - start, by omega⟩
      exact ⟨k, (readAt_part_iff hq hb hsize (by omega) (by omega)).mpr hread, ih.mpr hrest⟩

/-! ## The code of a body -/

variable {st stop : Nat} {code : Code} {x : Instruction}

/-- An `end` is one byte. -/
theorem readAt_blockEnd (h : readAt Production.instruction.read b st = ⟨stop, .ok x⟩) (hend : x.op = .blockEnd) : stop = st + 1 := by
  have hgives := (readAt_iff_gives (by decide)).mp h
  obtain ⟨k, e, hbyte, he, hoperand⟩ := gives_bareInstruction.mp (gives_instruction.mp hgives)
  rw [hend] at he
  obtain rfl : e = ⟨"end", none⟩ := Option.some.inj (he.symm.trans rfl)
  obtain ⟨_, rfl⟩ := gives_pure.mp hoperand
  exact (gives_byte.mp hbyte).2

/-- What the loop over the code gives are instructions in a row, wherever it stops. -/
theorem sequence_of_codeLoop {fuel left : Nat} {j : Input} (h : (codeLoop fuel left).Gives .checked (Input.at b st) code j) :
    j = Input.at b j.pos ∧ Sequence .instruction b st code j.pos := by
  refine ⟨(takes_codeLoop fuel left).at_eq h, ?_⟩
  induction fuel generalizing st left code with
  | zero =>
    obtain ⟨_, rfl, rfl⟩ := gives_codeLoop_zero.mp h
    exact .nil st
  | succ fuel ih =>
    rw [codeLoop] at h
    by_cases hleft : 1 < left
    · rw [if_pos hleft] at h
      simp only [gives_bind, gives_pure, Prod.exists, gives_measured] at h
      obtain ⟨y, n, k, ⟨hy, _⟩, ys, _, hys, rfl, rfl⟩ := h
      have hat := takes_instruction.at_eq hy
      rw [hat] at hy hys
      exact .cons ((readAt_iff_gives (by decide)).mpr hy) (ih hys)
    · rw [if_neg hleft] at h
      obtain ⟨rfl, rfl⟩ := gives_pure.mp h
      exact .nil st

/-- The loop stops before the `end` that ends where the code should: as long as there is an instruction before it, more than one byte is left. -/
theorem codeLoop_of_sequence {fuel left : Nat} (h : Sequence .instruction b st (code ++ [x]) stop) (hend : x.op = .blockEnd)
    (hstop : stop = st + left) (hfuel : left ≤ fuel) :
    ∃ mid, (codeLoop fuel left).Gives .checked (Input.at b st) code (Input.at b mid) ∧
      readAt Production.instruction.read b mid = ⟨stop, .ok x⟩ := by
  induction code generalizing st fuel left with
  | nil =>
    obtain ⟨next, hread, hrest⟩ := Sequence.cons_iff.mp h
    obtain rfl := Sequence.nil_iff.mp hrest
    have hone := readAt_blockEnd hread hend
    obtain rfl : left = 1 := by omega
    obtain ⟨fuel, rfl⟩ : ∃ n, fuel = n + 1 := ⟨fuel - 1, by omega⟩
    exact ⟨st, gives_pure.mpr ⟨rfl, rfl⟩, hread⟩
  | cons y code ih =>
    obtain ⟨next, hread, hrest⟩ := Sequence.cons_iff.mp h
    have hforward := readAt_forward hread
    have hlast : next + (code ++ [x]).length ≤ stop := hrest.forward.1
    rw [List.length_append, List.length_singleton] at hlast
    obtain ⟨fuel, rfl⟩ : ∃ n, fuel = n + 1 := ⟨fuel - 1, by omega⟩
    have hleft : stop = next + (left - (next - st)) := by omega
    have hfuel' : left - (next - st) ≤ fuel := by omega
    obtain ⟨mid, hcode, hx⟩ := ih hrest hleft hfuel'
    refine ⟨mid, ?_, hx⟩
    rw [codeLoop, if_pos (by omega)]
    simp only [gives_bind, gives_pure, Prod.exists, gives_measured]
    exact ⟨y, _, _, ⟨(readAt_iff_gives (by decide)).mp hread, rfl⟩, code, _, hcode, rfl, rfl⟩

/-! ## Bodies -/

/-- A count is read where a body's list of local variables begins, and so many groups; then come instructions up to the declared end. -/
theorem gives_bodyContent_iff {start size : Nat} {f : FuncBody} :
    (bodyContent size start).Gives .checked (Input.at b start) f (Input.at b stop) ↔
      ∃ (first last : Nat) (x : Instruction), f.size = size ∧ stop = start + size ∧
        readAt Production.count.read b start = ⟨first, .ok f.locals.length⟩ ∧ Sequence .localGroup b first f.locals last ∧
        Sequence .instruction b last (f.code ++ [x]) stop ∧ x.op = .blockEnd := by
  constructor
  · intro h
    have hstop := bodyContent_size h
    simp only [bodyContent, gives_bind, gives_position, gives_ensure, gives_pure, Prod.exists, gives_measured, gives_list] at h
    obtain ⟨locals, n, k, ⟨⟨m, l, hm, _, hlocals⟩, _⟩, code, _, o, ⟨hcode, _⟩, _, _, ⟨_, rfl⟩, x, _, _, ⟨hx, _⟩, _, _, ⟨hend, rfl⟩, _, _,
      ⟨_, rfl⟩, rfl, rfl⟩ := h
    have hl := takes_count.at_eq hm
    rw [hl] at hm hlocals
    have hk := ((takes_localGroup.mono (Nat.zero_le _)).entries "local" m 0).at_eq hlocals
    rw [hk] at hlocals hcode
    obtain ⟨ho, hrow⟩ := sequence_of_codeLoop hcode
    rw [ho] at hx
    obtain ⟨hlen, hgroups⟩ := (Sequence.entries_iff (q := .localGroup) (by decide) "local").mp hlocals
    have hlast := (readAt_iff_gives (q := .instruction) (by decide)).mpr hx
    refine ⟨_, _, x, rfl, hstop, ?_, hgroups, hrow.append (.cons hlast (.nil _)), of_decide_eq_true hend⟩
    rw [hlen]
    exact (readAt_iff_gives (q := .count) (by decide)).mpr hm
  · rintro ⟨first, last, x, rfl, rfl, hcount, hlocals, hcode, hend⟩
    have hfirst := readAt_forward hcount
    have hlast := hlocals.forward
    have hcodeEnd := hcode.forward
    have hleft : start + f.size = last + (f.size - (last - start)) := by omega
    obtain ⟨mid, hloop, hx⟩ := codeLoop_of_sequence hcode hend hleft (Nat.le_refl _)
    have hmid := (sequence_of_codeLoop hloop).2.forward
    have hxforward := readAt_forward hx
    have hroom : f.locals.length ≤ (Input.at b first).rest.length := by
      simp only [Input.at, List.length_drop]
      omega
    have hgroups := (Sequence.entries_iff (k := 0) (by decide) "local").mpr ⟨rfl, hlocals⟩
    simp only [bodyContent, gives_bind, gives_position, gives_ensure, gives_pure, Prod.exists, gives_measured, gives_list]
    refine ⟨f.locals, _, _, ⟨⟨_, _, (readAt_iff_gives (by decide)).mp hcount, Or.inr hroom, hgroups⟩, rfl⟩, f.code, _, _, ⟨hloop, rfl⟩, _, _,
      ⟨rfl, rfl⟩, x, _, _, ⟨(readAt_iff_gives (by decide)).mp hx, rfl⟩, (), _, ⟨decide_eq_true hend, rfl⟩, (), _, ⟨decide_eq_true ?_, rfl⟩, rfl, rfl⟩
    simp only [Input.at] at hmid ⊢
    omega

/-- A body is its size, which does not go past the bytes, and its content. -/
theorem gives_funcBody_iff {f : FuncBody} :
    funcBody.Gives .checked (Input.at b st) f (Input.at b stop) ↔
      ∃ start : Nat, readAt Production.count.read b st = ⟨start, .ok f.size⟩ ∧ start + f.size ≤ b.length ∧
        (bodyContent f.size start).Gives .checked (Input.at b start) f (Input.at b stop) := by
  simp only [funcBody, gives_restoring, gives_bind, gives_within, gives_position, gives_hasRoom, gives_ensure]
  constructor
  · rintro ⟨size, k, hsize, _, _, ⟨rfl, rfl⟩, _, _, ⟨hroom, rfl⟩, _, _, ⟨hok, rfl⟩, hcontent⟩
    have hat := takes_count.at_eq hsize
    rw [hat] at hsize hcontent
    have hread := (readAt_iff_gives (q := .count) (by decide)).mpr hsize
    have hforward := readAt_forward hread
    obtain ⟨_, _, _, rfl, _⟩ := gives_bodyContent_iff.mp hcontent
    refine ⟨k.pos, hread, ?_, hcontent⟩
    rw [hok, hat, decide_eq_true_eq] at hroom
    simp only [Input.at, List.length_drop] at hroom
    omega
  · rintro ⟨start, hsize, hle, hcontent⟩
    have hroom : f.size ≤ (Input.at b start).rest.length := by
      simp only [Input.at, List.length_drop]
      omega
    exact ⟨f.size, _, (readAt_iff_gives (q := .count) (by decide)).mp hsize, start, _, ⟨rfl, rfl⟩, true, _, ⟨decide_eq_true hroom, rfl⟩,
      (), _, ⟨rfl, rfl⟩, hcontent⟩

/-- The content of a body is told by its own bytes. -/
theorem isBody_iff {start : Nat} {f : FuncBody} (hb : b.length < lengthBound) (hle : start + f.size ≤ b.length) :
    IsBody ((b.drop start).take f.size) f.locals f.code ↔
      (bodyContent f.size start).Gives .checked (Input.at b start) f (Input.at b (start + f.size)) := by
  have hzero : (0 : Int) = ((0 : Nat) : Int) := rfl
  rw [gives_bodyContent_iff, IsBody, length_part hle, hzero]
  constructor
  · rintro ⟨first, last, x, hcount, hlocals, hcode, hend⟩
    have hlast := hlocals.forward
    have hstop := hcode.forward
    have hcount' := (readAt_part_iff (q := .count) (by decide) hb hle (Nat.zero_le first) (by omega)).mp hcount
    have hlocals' := (sequence_part_iff (q := .localGroup) (by decide) hb hle (by omega)).mp hlocals
    have hcode' := (sequence_part_iff (q := .instruction) (by decide) hb hle (by omega)).mp hcode
    exact ⟨start + first, start + last, x, rfl, rfl, hcount', hlocals', hcode', hend⟩
  · rintro ⟨first, last, x, _, _, hcount, hlocals, hcode, hend⟩
    have hfirst := readAt_forward hcount
    have hlast := hlocals.forward
    have hstop := hcode.forward
    obtain ⟨k, rfl⟩ : ∃ k, first = start + k := ⟨first - start, by omega⟩
    obtain ⟨l, rfl⟩ : ∃ l, last = start + l := ⟨last - start, by omega⟩
    have hcount' := (readAt_part_iff (q := .count) (by decide) hb hle (Nat.zero_le k) (by omega)).mpr hcount
    have hlocals' := (sequence_part_iff (q := .localGroup) (by decide) hb hle (by omega)).mpr hlocals
    have hcode' := (sequence_part_iff (q := .instruction) (by decide) hb hle (by omega)).mpr hcode
    exact ⟨k, l, x, hcount', hlocals', hcode', hend⟩

/-- A read does not look at the bytes from its end on. -/
theorem readAt_take_append (hq : q ≠ .custom) {v : q.Value} (h : readAt q.read b st = ⟨stop, .ok v⟩) (suf : Bytes) :
    readAt q.read (b.take stop ++ suf) st = ⟨stop, .ok v⟩ := by
  have hforward := readAt_forward h
  obtain ⟨w, _, hw, hstop, hr⟩ := Production.takes_read hq _ _ _ _ ((readAt_iff_gives hq).mp h)
  simp only [Input.at] at hw hstop
  have hdrop : (b.take stop ++ suf).drop st = w ++ suf := by
    rw [List.drop_append_of_le_length (by rw [List.length_take]; omega), List.drop_take, hw, hstop, Nat.add_sub_cancel_left, List.take_left]
  rw [readAt_eq_ok_iff, hdrop]
  exact ⟨suf, hr .checked suf⟩

/-- A body is read at a position exactly when its size is read there, so many bytes follow, and these are the content of a body by themselves;
then it holds what they say, and ends after them. What stands after them is no part of it: with other bytes there it is the same. -/
theorem readAt_funcBody_iff (b : Bytes) (hb : b.length < lengthBound) (st : Nat) (stop : Int) (f : FuncBody) :
    (readAt Production.funcBody.read b st = ⟨stop, .ok f⟩ ↔
      ∃ start : Nat, readAt Production.count.read b st = ⟨start, .ok f.size⟩ ∧ start + f.size ≤ b.length ∧
        IsBody ((b.drop start).take f.size) f.locals f.code ∧ stop = (start + f.size : Nat)) ∧
    (readAt Production.funcBody.read b st = ⟨stop, .ok f⟩ →
      ∀ suf, readAt Production.funcBody.read (b.take stop.toNat ++ suf) st = ⟨stop, .ok f⟩) := by
  constructor
  · constructor
    · intro h
      obtain ⟨j, hj, rfl⟩ := readAt_eq_ok.mp h
      rw [inputAt_natCast] at hj
      rw [takes_funcBody.at_eq hj] at hj
      obtain ⟨start, hsize, hle, hcontent⟩ := gives_funcBody_iff.mp hj
      obtain hstop : j.pos = start + f.size := bodyContent_size hcontent
      rw [hstop] at hcontent ⊢
      exact ⟨start, hsize, hle, (isBody_iff hb hle).mpr hcontent, rfl⟩
    · rintro ⟨start, hsize, hle, hbody, rfl⟩
      refine (readAt_iff_gives (q := .funcBody) (by decide)).mpr (gives_funcBody_iff.mpr ⟨start, hsize, hle, ?_⟩)
      exact (isBody_iff hb hle).mp hbody
  · intro h suf
    obtain ⟨j, _, rfl⟩ := readAt_eq_ok.mp h
    exact readAt_take_append (q := .funcBody) (by decide) h suf

/-- A body with a block inside: two `end`s, the first of which belongs to the code. Another `end` after the body is no part of it. -/
theorem readAt_funcBody_nested_end :
    let b : Bytes := [0x00, 0x05, 0x00, 0x02, 0x40, 0x0b, 0x0b, 0x0b]
    let f : FuncBody := ⟨5, [], [⟨⟨0x02⟩, some (.block .empty)⟩, ⟨.blockEnd, none⟩]⟩
    readAt Production.funcBody.read b 1 = ⟨7, .ok f⟩ ∧ IsBody [0x00, 0x02, 0x40, 0x0b, 0x0b] f.locals f.code ∧
      readAt Production.funcBody.read [0x00, 0x05, 0x00, 0x02, 0x40, 0x0b, 0x0b, 0xff, 0xff] 1 = ⟨7, .ok f⟩ := by
  intro b f
  have hread : readAt Production.funcBody.read b (1 : Nat) = ⟨7, .ok f⟩ := rfl
  obtain ⟨hiff, hbeyond⟩ := readAt_funcBody_iff b (by decide) 1 7 f
  obtain ⟨start, hsize, _, hbody, _⟩ := hiff.mp hread
  obtain rfl : start = 2 := by
    have hpos : (2 : Int) = start := congrArg Located.pos hsize
    omega
  exact ⟨hread, hbody, hbeyond hread [0xff, 0xff]⟩

end Cursor

end WasmInspect
