import Mathlib.Data.List.Forall2
import WasmInspect.Decimal.FloatText

/-!
# Texts that can be taken apart

A number is read back from its digits, so different numbers have different texts. A word ends where a stop character comes next that is not
in it, and so a text that starts with a word says which one; in the same way words with blanks between them say which words they are. Forms
one after the other are taken apart one by one.

A plain text has no character that the shape of an expression rests on: no parenthesis, no quote and no line break. All texts of numbers are
plain, those of floating-point numbers too.
-/

namespace WasmInspect.Text

/-! ## Numbers -/

/-- The number is what its digits stand for. -/
theorem decimal_inj {m n : Nat} : decimal m = decimal n ↔ m = n := by
  refine ⟨fun h => ?_, congrArg decimal⟩
  have hdigits : Nat.toDigits 10 m = Nat.toDigits 10 n := String.ofList_injective h
  calc m = Nat.ofDigitChars 10 (Nat.toDigits 10 m) 0 := Nat.ofDigitChars_ten_toDigits.symm
    _ = Nat.ofDigitChars 10 (Nat.toDigits 10 n) 0 := by rw [hdigits]
    _ = n := Nat.ofDigitChars_ten_toDigits

/-- The text of a number is made of digits. -/
theorem isDigit_of_mem_decimal {n : Nat} {c : Char} (h : c ∈ (decimal n).toList) : c.isDigit := by
  rw [decimal, String.toList_ofList] at h
  exact Nat.isDigit_of_mem_toDigits (by decide) (by decide) h

theorem not_mem_decimal {n : Nat} {c : Char} (h : c.isDigit = false) : c ∉ (decimal n).toList := by
  intro hmem
  rw [isDigit_of_mem_decimal hmem] at h
  cases h

theorem decimal_ne_empty (n : Nat) : decimal n ≠ "" := by
  intro h
  have hdigits := congrArg String.toList h
  rw [decimal, String.toList_ofList, String.toList_empty] at hdigits
  exact Nat.toDigits_ne_nil hdigits

/-- The integer is what its sign and its digits stand for. -/
theorem signedDecimal_inj {i j : Int} : signedDecimal i = signedDecimal j ↔ i = j := by
  refine ⟨fun h => ?_, congrArg signedDecimal⟩
  -- a text with a sign is not one without: a sign is no digit
  have hsign : ∀ m n : Nat, "-" ++ decimal m ≠ decimal n := by
    intro m n heq
    have hmem : '-' ∈ (decimal n).toList := by
      rw [← heq, String.toList_append]
      exact List.mem_append_left _ (List.mem_singleton.mpr rfl)
    exact not_mem_decimal (by decide) hmem
  unfold signedDecimal at h
  by_cases hi : i < 0 <;> by_cases hj : j < 0
  · rw [if_pos hi, if_pos hj, String.append_right_inj, decimal_inj] at h
    omega
  · rw [if_pos hi, if_neg hj] at h
    exact absurd h (hsign _ _)
  · rw [if_neg hi, if_pos hj] at h
    exact absurd h.symm (hsign _ _)
  · rw [if_neg hi, if_neg hj, decimal_inj] at h
    omega

/-! ## Words -/

section

variable {stop : Char} {w w' s s' : List Char}

/-- A word ends at the first stop character, or at the end of the text, so the text says which word it starts with. -/
theorem word_inj (hw : stop ∉ w) (hw' : stop ∉ w') (hs : ∀ c ∈ s.head?, c = stop) (hs' : ∀ c ∈ s'.head?, c = stop)
    (h : w ++ s = w' ++ s') : w = w' ∧ s = s' := by
  induction w generalizing w' with
  | nil =>
    cases w' with
    | nil => exact ⟨rfl, h⟩
    | cons c w' =>
      obtain rfl : c = stop := hs c (by rw [show s = c :: (w' ++ s') from h]; rfl)
      exact absurd List.mem_cons_self hw'
  | cons c w ih =>
    cases w' with
    | nil =>
      obtain rfl : c = stop := hs' c (by rw [← show c :: (w ++ s) = s' from h]; rfl)
      exact absurd List.mem_cons_self hw
    | cons c' w' =>
      obtain ⟨rfl, htail⟩ := List.cons.inj h
      obtain ⟨rfl, rfl⟩ := ih (fun hmem => hw (List.mem_cons_of_mem _ hmem)) (fun hmem => hw' (List.mem_cons_of_mem _ hmem)) htail
      exact ⟨rfl, rfl⟩

end

/-- A word in front of a separator ends where this starts, if the character that it starts with is not in the word. -/
theorem append_separator_inj (separator : String) (stop : Char) (hstop : separator.toList.head? = some stop) {w w' s s' : String}
    (hw : stop ∉ w.toList) (hw' : stop ∉ w'.toList) (h : w ++ separator ++ s = w' ++ separator ++ s') : w = w' ∧ s = s' := by
  have hhead : ∀ t : String, ∀ c ∈ (separator.toList ++ t.toList).head?, c = stop := by
    intro t c hc
    rw [List.head?_append, hstop] at hc
    exact (Option.some.inj hc).symm
  have hlists := congrArg String.toList h
  simp only [String.toList_append, List.append_assoc] at hlists
  obtain ⟨hword, hrest⟩ := word_inj hw hw' (hhead s) (hhead s') hlists
  exact ⟨String.toList_inj.mp hword, String.toList_inj.mp (List.append_cancel_left hrest)⟩

/-- Neither of two texts is what the other starts with. -/
def Apart (p q : String) : Prop := ¬p.toList <+: q.toList ∧ ¬q.toList <+: p.toList

instance (p q : String) : Decidable (Apart p q) := inferInstanceAs (Decidable (¬p.toList <+: q.toList ∧ ¬q.toList <+: p.toList))

/-- Texts whose starts are apart are not the same, whatever comes after these. -/
theorem Apart.append_ne {p q : String} (h : Apart p q) (s t : String) : p ++ s ≠ q ++ t := by
  intro heq
  have hlists := congrArg String.toList heq
  rw [String.toList_append, String.toList_append] at hlists
  rcases List.prefix_or_prefix_of_prefix (List.prefix_append _ _) (hlists ▸ List.prefix_append _ _) with hqp | hpq
  · exact h.2 hqp
  · exact h.1 hpq

/-- Forms one after the other can be taken apart if each of them can be told from the text that it is the start of, and none of them is the
start of what comes after the last. -/
theorem join_map_inj {α : Type} {form : α → String} {R : α → α → Prop} {xs ys : List α} {s s' : String}
    (hform : ∀ (k : Nat) (x y : α), xs[k]? = some x → ys[k]? = some y → ∀ t t', form x ++ t = form y ++ t' → R x y ∧ t = t')
    (hs : ∀ x t, form x ++ t ≠ s) (hs' : ∀ x t, form x ++ t ≠ s')
    (h : String.join (xs.map form) ++ s = String.join (ys.map form) ++ s') : List.Forall₂ R xs ys ∧ s = s' := by
  induction xs generalizing ys with
  | nil =>
    cases ys with
    | nil => exact ⟨.nil, by simpa using h⟩
    | cons y ys =>
      rw [List.map_nil, String.join_nil, String.empty_append, List.map_cons, String.join_cons, String.append_assoc] at h
      exact absurd h.symm (hs y _)
  | cons x xs ih =>
    cases ys with
    | nil =>
      rw [List.map_nil, String.join_nil, String.empty_append, List.map_cons, String.join_cons, String.append_assoc] at h
      exact absurd h (hs' x _)
    | cons y ys =>
      simp only [List.map_cons, String.join_cons, String.append_assoc] at h
      obtain ⟨hxy, hrest⟩ := hform 0 x y rfl rfl _ _ h
      obtain ⟨htail, hend⟩ := ih (fun k => hform (k + 1)) hrest
      exact ⟨.cons hxy htail, hend⟩

/-- A text that has some character and no blank. -/
def IsWord (s : String) : Prop := s ≠ "" ∧ ' ' ∉ s.toList

instance (s : String) : Decidable (IsWord s) := inferInstanceAs (Decidable (s ≠ "" ∧ ' ' ∉ s.toList))

theorem isWord_decimal (n : Nat) : IsWord (decimal n) := ⟨decimal_ne_empty n, not_mem_decimal (by decide)⟩

/-- What is in texts with a separator between them is in the separator or in one of them. -/
theorem mem_intercalate {sep : String} {xs : List String} {c : Char} (h : c ∈ (sep.intercalate xs).toList) :
    c ∈ sep.toList ∨ ∃ s ∈ xs, c ∈ s.toList := by
  induction xs with
  | nil =>
    rw [String.intercalate_nil] at h
    cases h
  | cons s ss ih =>
    cases ss with
    | nil => exact .inr ⟨s, List.mem_cons_self, by simpa using h⟩
    | cons s' ss =>
      rw [String.intercalate_cons_cons, String.toList_append, String.toList_append, List.mem_append, List.mem_append] at h
      obtain (h | h) | h := h
      · exact .inr ⟨s, List.mem_cons_self, h⟩
      · exact .inl h
      · exact (ih h).imp_right fun ⟨t, ht, hc⟩ => ⟨t, List.mem_cons_of_mem _ ht, hc⟩

/-- A list of texts without blanks is the only one that its members make when they are put between blanks, unless there are none. -/
theorem intercalate_blank_inj {xs ys : List (List Char)} (hx : ∀ w ∈ xs, ' ' ∉ w) (hy : ∀ w ∈ ys, ' ' ∉ w) (hxs : xs ≠ []) (hys : ys ≠ [])
    (h : [' '].intercalate xs = [' '].intercalate ys) : xs = ys := by
  rw [← List.splitOn_intercalate ' ' hx hxs, h, List.splitOn_intercalate ' ' hy hys]

/-- Words with blanks between them say which words they are, and how many. -/
theorem intercalate_word_inj {xs ys : List String} (hx : ∀ s ∈ xs, IsWord s) (hy : ∀ s ∈ ys, IsWord s)
    (h : " ".intercalate xs = " ".intercalate ys) : xs = ys := by
  -- some words make a text that is not empty
  have hne : ∀ (s : String) (ss : List String), IsWord s → " ".intercalate (s :: ss) ≠ "" := by
    intro s ss hs heq
    have hlist := congrArg String.toList heq
    rw [String.toList_intercalate, List.map_cons] at hlist
    have hnil : s.toList = [] := by
      cases ss with
      | nil => simpa using hlist
      | cons s' ss => simp [List.intercalate_cons_cons] at hlist
    exact hs.1 (String.toList_eq_nil_iff.mp hnil)
  have hlists := congrArg String.toList h
  simp only [String.toList_intercalate] at hlists
  cases xs with
  | nil =>
    cases ys with
    | nil => rfl
    | cons s ss => exact absurd h.symm (hne s ss (hy s List.mem_cons_self))
  | cons s ss =>
    cases ys with
    | nil => exact absurd h (hne s ss (hx s List.mem_cons_self))
    | cons s' ss' =>
      have hmap : (s :: ss).map String.toList = (s' :: ss').map String.toList := by
        refine intercalate_blank_inj ?_ ?_ (by simp) (by simp) hlists
        · exact List.forall_mem_map.mpr fun t ht => (hx t ht).2
        · exact List.forall_mem_map.mpr fun t ht => (hy t ht).2
      exact (List.map_inj_right fun _ _ => String.toList_inj.mp).mp hmap

/-! ## Plain texts -/

/-- The characters that the shape of an expression rests on. -/
def shapeCharacters : List Char := ['(', ')', '"', '\n']

/-- No character is one that the shape of an expression rests on. -/
def IsPlain (s : String) : Prop := ∀ c ∈ s.toList, c ∉ shapeCharacters

instance (s : String) : Decidable (IsPlain s) := List.decidableBAll (fun c => c ∉ shapeCharacters) s.toList

theorem isPlain_append {s t : String} : IsPlain (s ++ t) ↔ IsPlain s ∧ IsPlain t := by
  simp only [IsPlain, String.toList_append, List.forall_mem_append]

theorem isPlain_ofList {cs : List Char} : IsPlain (String.ofList cs) ↔ ∀ c ∈ cs, c ∉ shapeCharacters := by
  rw [IsPlain, String.toList_ofList]

/-- A digit is none of them. -/
theorem not_mem_shapeCharacters_of_isDigit {c : Char} (h : c.isDigit) : c ∉ shapeCharacters := by
  intro hmem
  simp only [shapeCharacters, List.mem_cons, List.not_mem_nil, or_false] at hmem
  obtain rfl | rfl | rfl | rfl := hmem <;> cases h

theorem isPlain_decimal (n : Nat) : IsPlain (decimal n) := fun _ hc => not_mem_shapeCharacters_of_isDigit (isDigit_of_mem_decimal hc)

theorem isPlain_signedDecimal (i : Int) : IsPlain (signedDecimal i) := by
  unfold signedDecimal
  split
  · exact isPlain_append.mpr ⟨by decide, isPlain_decimal _⟩
  · exact isPlain_decimal _

theorem isPlain_intercalate {sep : String} {xs : List String} (hsep : IsPlain sep) (hx : ∀ s ∈ xs, IsPlain s) : IsPlain (sep.intercalate xs) := by
  intro c hc
  rcases mem_intercalate hc with hc | ⟨s, hs, hc⟩
  · exact hsep c hc
  · exact hx s hs c hc

end WasmInspect.Text

/-! ## Floating-point numbers -/

namespace WasmInspect.Decimal

open Text

/-- What is laid out are the digits, more zeros, a point and an exponent. -/
theorem Layout.digits_plain (l : Layout) {ds : List Char} (hds : ∀ c ∈ ds, c ∉ shapeCharacters) (exponent : Int) :
    ∀ c ∈ l.digits ds exponent, c ∉ shapeCharacters := by
  have hpointed : ∀ k, ∀ c ∈ pointed (ds.drop k), c ∉ shapeCharacters := by
    intro k c hc
    unfold pointed at hc
    split at hc
    · cases hc
    · obtain rfl | hc := List.mem_cons.mp hc
      · decide
      · exact hds c (List.mem_of_mem_drop hc)
  have hzeros : ∀ k, ∀ c ∈ List.replicate k '0', c ∉ shapeCharacters := by
    intro k c hc
    rw [List.eq_of_mem_replicate hc]
    decide
  have htake : ∀ k, ∀ c ∈ ds.take k, c ∉ shapeCharacters := fun k c hc => hds c (List.mem_of_mem_take hc)
  have hexponent : ∀ c ∈ padded l.exponentWidth (Nat.toDigits 10 exponent.natAbs), c ∉ shapeCharacters := by
    refine List.forall_mem_append.mpr ⟨hzeros _, fun c hc => ?_⟩
    exact not_mem_shapeCharacters_of_isDigit (Nat.isDigit_of_mem_toDigits (by decide) (by decide) hc)
  unfold Layout.digits
  split
  · refine List.forall_mem_append.mpr ⟨List.forall_mem_append.mpr ⟨htake 1, hpointed 1⟩, ?_⟩
    refine List.forall_mem_cons.mpr ⟨by decide, List.forall_mem_cons.mpr ⟨?_, hexponent⟩⟩
    split <;> decide
  · split
    · exact List.forall_mem_append.mpr ⟨List.forall_mem_cons.mpr ⟨by decide, List.forall_mem_cons.mpr ⟨by decide, hzeros _⟩⟩, hds⟩
    · exact List.forall_mem_append.mpr ⟨List.forall_mem_append.mpr ⟨htake _, hzeros _⟩, hpointed _⟩

theorem Layout.isPlain_scaled (l : Layout) (s : Scaled) : IsPlain (l.scaled s) := by
  refine isPlain_ofList.mpr (l.digits_plain (fun c hc => ?_) _)
  -- the digits without the zeros at the end are digits
  rw [stripZeros, List.mem_reverse] at hc
  have hmem := List.mem_reverse.mp ((List.dropWhile_suffix _).mem hc)
  exact not_mem_shapeCharacters_of_isDigit (Nat.isDigit_of_mem_toDigits (by decide) (by decide) hmem)

/-- The text of a floating-point number is plain, whatever its bits. -/
theorem Format.isPlain_text (f : Format) (bits : Nat) : IsPlain (f.text bits) := by
  have hsign : ∀ negative : Bool, IsPlain (if negative then "-" else "") := by decide
  unfold Format.text
  obtain ⟨negative, reading⟩ := f.read bits
  cases reading with
  | notANumber => exact (by decide : IsPlain "NaN")
  | infinity => exact (by decide : ∀ negative : Bool, IsPlain (if negative then "-Inf" else "+Inf")) negative
  | zero => exact isPlain_append.mpr ⟨hsign negative, by decide⟩
  | finite v => exact isPlain_append.mpr ⟨hsign negative, Layout.isPlain_scaled _ _⟩

end WasmInspect.Decimal
