import Mathlib.Data.List.Infix
import Mathlib.Data.List.Lemmas

/-!
# Parentheses and strings

A text is scanned from left to right: a quote starts or ends a string, and parentheses count outside strings only. Scanned from a place, a text
may leave everything as it was and close nothing that was open there (`Keeps`). Such texts are closed under what texts are put together with:
one after the other, parentheses around one, quotes around one that is kept inside a string. One in parentheses is an expression
(`isExpression_iff`), and the expressions in an expression are found by the same scan (`within`).
-/

namespace WasmInspect

/-- Where a scan stands: how many parentheses are open, and whether a string is. -/
structure Nesting where
  depth : Int
  inString : Bool
  deriving DecidableEq

namespace Nesting

/-- Nothing is open. -/
def outside : Nesting := ⟨0, false⟩

/-- Scans a character. -/
def step (n : Nesting) (c : Char) : Nesting :=
  if c = '"' then ⟨n.depth, !n.inString⟩
  else if n.inString then n
  else if c = '(' then ⟨n.depth + 1, false⟩
  else if c = ')' then ⟨n.depth - 1, false⟩
  else n

/-- Scans a text. -/
def after (n : Nesting) (s : List Char) : Nesting := s.foldl step n

/-- At least so many parentheses are open wherever a scan of the text comes by, at its start and its end too. -/
def Above (floor : Int) (n : Nesting) (s : List Char) : Prop := ∀ p, p <+: s → floor ≤ (n.after p).depth

/-- After the text everything is as it was before it, and nothing of that was closed in between. -/
def Keeps (n : Nesting) (s : List Char) : Prop := n.after s = n ∧ Above n.depth n s

/-- No character is a quote or a parenthesis. -/
def IsQuiet (s : List Char) : Prop := ∀ c ∈ s, c ∉ ['(', ')', '"']

instance (s : List Char) : Decidable (IsQuiet s) := List.decidableBAll (fun c => c ∉ ['(', ')', '"']) s

/-- A text that begins with a parenthesis, of which the scan is outside again at the end and not before. -/
structure IsExpression (s : List Char) : Prop where
  opens : s.head? = some '('
  inner : ∀ p, p <+: s → p ≠ [] → p ≠ s → 0 < (outside.after p).depth
  closes : outside.after s = outside

/-- The parts of a text during which more than `floor` parentheses are open, each with the one that closes it, where `part` is what the scan has
of one already. What is not closed at the end is no part. -/
def within (floor : Int) : Nesting → (part : List Char) → List Char → List (List Char)
  | _, _, [] => []
  | n, part, c :: s =>
    if floor < (n.step c).depth then within floor (n.step c) (part ++ [c]) s
    else if floor < n.depth then (part ++ [c]) :: within floor (n.step c) [] s
    else within floor (n.step c) [] s

/-- The expressions in an expression. -/
def children (s : List Char) : List (List Char) := within 1 outside [] s

/-! ## The scan -/

section

variable {n : Nesting} {s t : List Char} {c : Char} {d floor : Int} {q : Bool}

theorem after_nil (n : Nesting) : n.after [] = n := rfl

theorem after_cons (n : Nesting) (c : Char) (s : List Char) : n.after (c :: s) = (n.step c).after s := rfl

theorem after_append (n : Nesting) (s t : List Char) : n.after (s ++ t) = (n.after s).after t := List.foldl_append

/-- A character that is no quote and no parenthesis changes nothing. -/
theorem step_of_not_mem (h : c ∉ ['(', ')', '"']) : n.step c = n := by
  simp only [List.mem_cons, List.not_mem_nil, or_false, not_or] at h
  obtain ⟨hopen, hclose, hquote⟩ := h
  rw [step, if_neg hquote, if_neg hopen, if_neg hclose, ite_self]

/-- The parenthesis that closes the last one. -/
theorem step_close (d : Int) : step ⟨d + 1, false⟩ ')' = ⟨d, false⟩ := congrArg (Nesting.mk · false) (Int.add_sub_cancel d 1)

/-- More open parentheses around it change nothing of a step. -/
theorem step_add (k d : Int) (q : Bool) (c : Char) : step ⟨d + k, q⟩ c = ⟨(step ⟨d, q⟩ c).depth + k, (step ⟨d, q⟩ c).inString⟩ := by
  unfold step
  split_ifs <;> simp only [Nesting.mk.injEq, and_true] <;> omega

theorem after_add (k d : Int) (q : Bool) (s : List Char) :
    after ⟨d + k, q⟩ s = ⟨(after ⟨d, q⟩ s).depth + k, (after ⟨d, q⟩ s).inString⟩ := by
  induction s generalizing d q with
  | nil => rfl
  | cons c s ih => rw [after_cons, after_cons, step_add, ih]

/-- Of two scans of a text, one from inside a string and one from outside, one ends inside a string and the other one outside. -/
theorem inString_after_not (d e : Int) (q : Bool) (s : List Char) : (after ⟨d, !q⟩ s).inString = !(after ⟨e, q⟩ s).inString := by
  induction s generalizing d e q with
  | nil => rfl
  | cons c s ih =>
    have hstep : (step ⟨d, !q⟩ c).inString = !(step ⟨e, q⟩ c).inString := by
      unfold step
      cases q <;> split_ifs <;> simp_all
    have h := ih (step ⟨d, !q⟩ c).depth (step ⟨e, q⟩ c).depth (step ⟨e, q⟩ c).inString
    rwa [← hstep] at h

/-! ## Where a scan comes by -/

theorem Above.nil (h : floor ≤ n.depth) : Above floor n [] := by
  intro p hp
  rwa [List.prefix_nil.mp hp]

theorem above_cons : Above floor n (c :: s) ↔ floor ≤ n.depth ∧ Above floor (n.step c) s := by
  constructor
  · intro h
    exact ⟨h [] List.nil_prefix, fun p hp => h (c :: p) (List.cons_prefix_cons.mpr ⟨rfl, hp⟩)⟩
  · rintro ⟨hfirst, hothers⟩ p hp
    obtain rfl | ⟨r, rfl, hr⟩ := List.prefix_cons_iff.mp hp
    · exact hfirst
    · exact hothers r hr

theorem above_append : Above floor n (s ++ t) ↔ Above floor n s ∧ Above floor (n.after s) t := by
  induction s generalizing n with
  | nil =>
    refine ⟨fun h => ⟨.nil (h [] List.nil_prefix), h⟩, fun h => h.2⟩
  | cons c s ih => rw [List.cons_append, above_cons, above_cons, ih, and_assoc, after_cons]

theorem above_add (k : Int) : Above (floor + k) ⟨d + k, q⟩ s ↔ Above floor ⟨d, q⟩ s := by
  refine forall₂_congr fun p _ => ?_
  rw [after_add]
  exact Int.add_le_add_iff_right k

theorem Above.mono {lower : Int} (hle : lower ≤ floor) (h : Above floor n s) : Above lower n s := fun p hp => Int.le_trans hle (h p hp)

instance (floor : Int) (n : Nesting) (s : List Char) : Decidable (Above floor n s) :=
  decidable_of_iff (∀ p ∈ s.inits, floor ≤ (n.after p).depth) (by simp only [List.mem_inits, Above])

/-! ## Texts that keep what is open -/

instance (n : Nesting) (s : List Char) : Decidable (Keeps n s) := inferInstanceAs (Decidable (n.after s = n ∧ Above n.depth n s))

namespace Keeps

theorem nil (n : Nesting) : Keeps n [] := ⟨rfl, .nil (Int.le_refl _)⟩

theorem append (hs : Keeps n s) (ht : Keeps n t) : Keeps n (s ++ t) := by
  refine ⟨by rw [after_append, hs.1, ht.1], above_append.mpr ⟨hs.2, ?_⟩⟩
  rw [hs.1]
  exact ht.2

/-- What is kept with some parentheses open is kept with any number of them. -/
theorem of_depth (h : Keeps ⟨d, q⟩ s) (e : Int) : Keeps ⟨e, q⟩ s := by
  obtain ⟨hafter, habove⟩ := h
  have hd : e = d + (e - d) := by omega
  constructor
  · rw [hd, after_add, hafter]
  · rw [hd]
    exact (above_add _).mpr habove

theorem of_quiet (h : IsQuiet s) : Keeps n s := by
  induction s with
  | nil => exact nil n
  | cons c s ih =>
    have hstep : n.step c = n := step_of_not_mem (h c List.mem_cons_self)
    obtain ⟨hafter, habove⟩ := ih fun c hc => h c (List.mem_cons_of_mem _ hc)
    exact ⟨by rw [after_cons, hstep, hafter], above_cons.mpr ⟨Int.le_refl _, by rwa [hstep]⟩⟩

theorem flatMap {α : Type} {f : α → List Char} {xs : List α} (h : ∀ x ∈ xs, Keeps n (f x)) : Keeps n (xs.flatMap f) := by
  induction xs with
  | nil => exact nil n
  | cons x xs ih => exact (h x List.mem_cons_self).append (ih fun y hy => h y (List.mem_cons_of_mem x hy))

/-- A text between two characters of which one opens what the other closes. -/
theorem between {m : Nesting} {e : Char} (hopen : n.step c = m) (hclose : m.step e = n) (hle : n.depth ≤ m.depth) (h : Keeps m s) :
    Keeps n (c :: (s ++ [e])) := by
  obtain ⟨hafter, habove⟩ := h
  constructor
  · rw [after_cons, hopen, after_append, hafter, after_cons, hclose, after_nil]
  · rw [above_cons, hopen, above_append, hafter, above_cons, hclose]
    exact ⟨Int.le_refl _, habove.mono hle, hle, .nil (Int.le_refl _)⟩

/-- Parentheses around a text. -/
theorem paren (h : Keeps ⟨d, false⟩ s) : Keeps ⟨d, false⟩ ('(' :: (s ++ [')'])) :=
  between (m := ⟨d + 1, false⟩) rfl (step_close d) (Int.le_add_one (Int.le_refl d)) (h.of_depth (d + 1))

/-- Quotes around a text: it is to be kept inside a string. -/
theorem quoted_iff : Keeps ⟨d, false⟩ ('"' :: (s ++ ['"'])) ↔ Keeps ⟨d, true⟩ s := by
  refine ⟨fun ⟨hafter, habove⟩ => ?_, between rfl rfl (Int.le_refl d)⟩
  have hopen : step ⟨d, false⟩ '"' = ⟨d, true⟩ := rfl
  rw [after_cons, hopen, after_append, after_cons, after_nil] at hafter
  have hdepth : (after ⟨d, true⟩ s).depth = d := congrArg depth hafter
  have hstring : (!(after ⟨d, true⟩ s).inString) = false := congrArg inString hafter
  refine ⟨?_, (above_append.mp (above_cons.mp habove).2).1⟩
  rw [Nesting.mk.injEq]
  exact ⟨hdepth, by simpa using hstring⟩

/-- A text is kept if it is kept up to where it is sure that the rest is. -/
theorem append_iff_left (ht : Keeps (n.after s) t) : Keeps n (s ++ t) ↔ Keeps n s := by
  refine ⟨fun ⟨hafter, habove⟩ => ⟨?_, (above_append.mp habove).1⟩, fun hs => hs.append (hs.1 ▸ ht)⟩
  rwa [after_append, ht.1] at hafter

/-- A text is kept if it is kept from where it is sure that the start is. -/
theorem append_iff_right (hs : Keeps n s) : Keeps n (s ++ t) ↔ Keeps n t := by
  refine ⟨fun ⟨hafter, habove⟩ => ?_, hs.append⟩
  rw [above_append, hs.1] at habove
  rw [after_append, hs.1] at hafter
  exact ⟨hafter, habove.2⟩

end Keeps

/-! ## Expressions -/

/-- The character after which there are more open parentheses than `floor` opens one. -/
theorem eq_of_lt_step (h : n.depth ≤ floor) (hstep : floor < (n.step c).depth) : c = '(' ∧ n = ⟨floor, false⟩ := by
  obtain ⟨depth, inString⟩ := n
  unfold step at hstep
  split_ifs at hstep with hquote hstring hopen hclose
  · exact absurd hstep (Int.not_lt.mpr h)
  · exact absurd hstep (Int.not_lt.mpr h)
  · refine ⟨hopen, ?_⟩
    simp only [Nesting.mk.injEq, Bool.not_eq_true] at *
    exact ⟨by omega, hstring⟩
  · simp only at *
    omega
  · exact absurd hstep (Int.not_lt.mpr h)

/-- The character after which there are no more of them closes one. -/
theorem eq_of_step_le (h : floor < n.depth) (hstep : (n.step c).depth ≤ floor) : c = ')' ∧ n = ⟨floor + 1, false⟩ := by
  obtain ⟨depth, inString⟩ := n
  unfold step at hstep
  split_ifs at hstep with hquote hstring hopen hclose
  · exact absurd hstep (Int.not_le.mpr h)
  · exact absurd hstep (Int.not_le.mpr h)
  · simp only at *
    omega
  · refine ⟨hclose, ?_⟩
    simp only [Nesting.mk.injEq, Bool.not_eq_true] at *
    exact ⟨by omega, hstring⟩
  · exact absurd hstep (Int.not_le.mpr h)

/-- An expression is a text in parentheses that is kept there. -/
theorem isExpression_iff : IsExpression s ↔ ∃ inner, s = '(' :: (inner ++ [')']) ∧ Keeps outside inner := by
  constructor
  · rintro ⟨hopens, hinner, hcloses⟩
    obtain ⟨t, rfl⟩ : ∃ t, s = '(' :: t := ⟨s.tail, (List.cons_head?_tail hopens).symm⟩
    obtain rfl | ⟨inner, c, rfl⟩ := List.eq_nil_or_concat' t
    · cases hcloses
    have hne : ∀ p, p <+: inner → '(' :: p ≠ '(' :: (inner ++ [c]) := by
      intro p hp heq
      have hlength := hp.length_le
      rw [(List.cons.inj heq).2, List.length_append, List.length_singleton] at hlength
      omega
    have hopen : ∀ p, p <+: inner → 0 < (after ⟨1, false⟩ p).depth := fun p hp =>
      hinner ('(' :: p) (List.cons_prefix_cons.mpr ⟨rfl, hp.trans (List.prefix_append _ _)⟩) (List.cons_ne_nil _ _) (hne p hp)
    have hlast : (after ⟨1, false⟩ inner).step c = outside := by
      rw [← hcloses, after_cons, after_append]
      rfl
    obtain ⟨rfl, hafter⟩ := eq_of_step_le (hopen inner (List.prefix_refl _)) (Int.le_of_eq (congrArg depth hlast))
    have hkeeps : Keeps ⟨1, false⟩ inner := ⟨hafter, hopen⟩
    exact ⟨inner, rfl, hkeeps.of_depth 0⟩
  · rintro ⟨inner, rfl, hkeeps⟩
    refine ⟨rfl, fun p hp hnil hne => ?_, hkeeps.paren.1⟩
    obtain rfl | ⟨q, rfl, hq⟩ := List.prefix_cons_iff.mp hp
    · exact absurd rfl hnil
    obtain rfl | hq := List.prefix_concat_iff.mp hq
    · exact absurd rfl hne
    · exact (hkeeps.of_depth 1).2 q hq

theorem IsExpression.keeps (h : IsExpression s) (d : Int) : Keeps ⟨d, false⟩ s := by
  obtain ⟨inner, rfl, hkeeps⟩ := isExpression_iff.mp h
  exact (hkeeps.of_depth d).paren

/-! ## The expressions in an expression -/

/-- A part goes on as long as there are more parentheses open. -/
theorem within_append {part : List Char} (h : Above (floor + 1) n s) (rest : List Char) :
    within floor n part (s ++ rest) = within floor (n.after s) (part ++ s) rest := by
  induction s generalizing n part with
  | nil => rw [List.nil_append, List.append_nil, after_nil]
  | cons c s ih =>
    obtain ⟨-, hothers⟩ := above_cons.mp h
    have hnext : floor < (n.step c).depth := hothers [] List.nil_prefix
    rw [List.cons_append, within, if_pos hnext, ih hothers, after_cons, List.append_assoc, List.singleton_append]

/-- An expression is a part. -/
theorem within_expression (h : IsExpression s) (rest : List Char) :
    within floor ⟨floor, false⟩ [] (s ++ rest) = s :: within floor ⟨floor, false⟩ [] rest := by
  obtain ⟨inner, rfl, hkeeps⟩ := isExpression_iff.mp h
  obtain ⟨hafter, habove⟩ := hkeeps.of_depth (floor + 1)
  have hopen : step ⟨floor, false⟩ '(' = ⟨floor + 1, false⟩ := rfl
  have hlt : floor < floor + 1 := Int.lt_succ floor
  rw [List.cons_append, within, hopen, if_pos hlt, List.append_assoc, within_append habove, hafter, List.singleton_append, within,
    step_close, if_neg (Int.lt_irrefl floor), if_pos hlt]
  rfl

/-- What is between parts is skipped, as long as it is no expression itself. -/
theorem within_quiet (h : IsQuiet s) (rest : List Char) :
    within floor ⟨floor, false⟩ [] (s ++ rest) = within floor ⟨floor, false⟩ [] rest := by
  induction s with
  | nil => rfl
  | cons c s ih =>
    have hlt : ¬floor < floor := Int.lt_irrefl floor
    rw [List.cons_append, within, step_of_not_mem (h c List.mem_cons_self), if_neg hlt, if_neg hlt, ih fun c hc => h c (List.mem_cons_of_mem _ hc)]

/-- Expressions with a text in front of each are the parts, as long as this text has no parentheses itself. -/
theorem within_separated {separator : List Char} (hseparator : IsQuiet separator) {xs : List (List Char)}
    (h : ∀ x ∈ xs, IsExpression x) (rest : List Char) :
    within floor ⟨floor, false⟩ [] (xs.flatMap (separator ++ ·) ++ rest) = xs ++ within floor ⟨floor, false⟩ [] rest := by
  induction xs with
  | nil => rfl
  | cons x xs ih =>
    rw [List.flatMap_cons, List.append_assoc, List.append_assoc, within_quiet hseparator, within_expression (h x List.mem_cons_self),
      ih fun y hy => h y (List.mem_cons_of_mem x hy), List.cons_append]

/-- What a scan has of a part: nothing, or the parenthesis that opens it and a text in which it is not closed. -/
def IsPart (floor : Int) (n : Nesting) (part : List Char) : Prop :=
  (n.depth ≤ floor ∧ part = []) ∨ ∃ inner, part = '(' :: inner ∧ after ⟨floor + 1, false⟩ inner = n ∧ Above (floor + 1) ⟨floor + 1, false⟩ inner

/-- All parts are expressions. -/
theorem isExpression_of_mem_within {part : List Char} (h : IsPart floor n part) : ∀ x ∈ within floor n part s, IsExpression x := by
  induction s generalizing n part with
  | nil => exact fun _ hx => absurd hx List.not_mem_nil
  | cons c s ih =>
    rw [within]
    split_ifs with hnext hnow
    · refine ih (.inr ?_)
      obtain ⟨hle, rfl⟩ | ⟨inner, rfl, hafter, habove⟩ := h
      · obtain ⟨rfl, rfl⟩ := eq_of_lt_step hle hnext
        exact ⟨[], rfl, rfl, .nil (Int.le_refl _)⟩
      · refine ⟨inner ++ [c], rfl, by rw [after_append, hafter]; rfl, above_append.mpr ⟨habove, ?_⟩⟩
        rw [hafter, above_cons]
        exact ⟨hafter ▸ habove inner (List.prefix_refl _), .nil hnext⟩
    · have hothers : ∀ x ∈ within floor (n.step c) [] s, IsExpression x := ih (.inl ⟨Int.not_lt.mp hnext, rfl⟩)
      refine List.forall_mem_cons.mpr ⟨?_, hothers⟩
      obtain ⟨hle, -⟩ | ⟨inner, rfl, hafter, habove⟩ := h
      · exact absurd hnow (Int.not_lt.mpr hle)
      · obtain ⟨rfl, rfl⟩ := eq_of_step_le hnow (Int.not_lt.mp hnext)
        have hkeeps : Keeps ⟨floor + 1, false⟩ inner := ⟨hafter, habove⟩
        exact isExpression_iff.mpr ⟨inner, rfl, hkeeps.of_depth 0⟩
    · exact ih (.inl ⟨Int.not_lt.mp hnext, rfl⟩)

theorem isExpression_of_mem_children : ∀ x ∈ children s, IsExpression x := isExpression_of_mem_within (.inl ⟨by decide, rfl⟩)

end

end Nesting

end WasmInspect
