import Mathlib.Data.Prod.Lex
import Mathlib.Data.String.Basic
import WasmInspect.Proofs.Mismatches
import WasmInspect.Proofs.Utf8

/-!
# The report of a comparison

An engine may list its functions in any order, and a sort may leave mismatches of the same place in any order. Neither can be seen in a report:
no two mismatches have the same place in it, so there is one way to sort them.
-/

namespace WasmInspect.Agreement

/-! ## The order of a report -/

namespace Mismatch

variable {a b : Mismatch}

/-- The mismatch has its place before another one: by the bytes of the exports' names, and for one export by the bytes of what differs. -/
def Before (a b : Mismatch) : Prop :=
  Text.utf8 a.name < Text.utf8 b.name ∨ a.name = b.name ∧ Text.utf8 a.what < Text.utf8 b.what

instance (a b : Mismatch) : Decidable (a.Before b) :=
  inferInstanceAs (Decidable (Text.utf8 a.name < Text.utf8 b.name ∨ a.name = b.name ∧ Text.utf8 a.what < Text.utf8 b.what))

/-- The place of a mismatch is that of what it is about. -/
theorem before_iff : a.Before b ↔ toLex a.key < toLex b.key := by
  simp only [Before, Text.utf8_lt_iff, key, Prod.Lex.toLex_lt_toLex]

theorem le_iff : a.le b = true ↔ toLex a.key ≤ toLex b.key := by
  simp only [le, key, Prod.Lex.toLex_le_toLex]
  split
  · next h => simp [h]
  · next h => simp [h, le_iff_lt_or_eq]

theorem Before.asymm (h : a.Before b) : ¬b.Before a := by
  rw [before_iff] at h ⊢
  exact lt_asymm h

/-- Of two mismatches that are about different things one has its place before the other. -/
theorem before_of_not_before (hkey : a.key ≠ b.key) (h : ¬b.Before a) : a.Before b := by
  rw [before_iff] at h ⊢
  exact lt_of_le_of_ne (not_lt.mp h) (toLex.injective.ne hkey)

end Mismatch

section

variable {xs ys : List Mismatch}

/-- If no two mismatches are about the same thing, then sorting puts each before those after it. -/
theorem pairwise_before (hnodup : (xs.map Mismatch.key).Nodup) (h : xs.Pairwise fun a b => ¬b.Before a) : xs.Pairwise Mismatch.Before := by
  have hkeys : xs.Pairwise fun a b => a.key ≠ b.key := List.pairwise_map.mp hnodup
  exact (hkeys.and h).imp fun ⟨hkey, hbefore⟩ => Mismatch.before_of_not_before hkey hbefore

/-- There is one way to sort such mismatches. -/
theorem eq_of_pairwise_before (hperm : xs.Perm ys) (hx : xs.Pairwise Mismatch.Before) (hy : ys.Pairwise Mismatch.Before) : xs = ys :=
  hperm.eq_of_pairwise (fun _ _ _ _ hab hba => absurd hba hab.asymm) hx hy

/-- The sort of a comparison leaves no mismatch after one before which it has its place. -/
theorem pairwise_mergeSort (xs : List Mismatch) : (xs.mergeSort Mismatch.le).Pairwise fun a b => ¬b.Before a := by
  refine (List.pairwise_mergeSort ?_ ?_ xs).imp fun {a b} h => ?_
  · intro a b c hab hbc
    exact Mismatch.le_iff.mpr ((Mismatch.le_iff.mp hab).trans (Mismatch.le_iff.mp hbc))
  · intro a b
    rw [Bool.or_eq_true, Mismatch.le_iff, Mismatch.le_iff]
    exact le_total _ _
  · rw [Mismatch.before_iff]
    exact not_lt.mpr (Mismatch.le_iff.mp h)

end

/-! ## Reports -/

/-- A report that may come of a comparison: the functions of the engine are gone through in some order, and what is found is sorted in some way,
so that no mismatch stands after one before which it has its place. -/
def MayReport (typeName : ValueType → String) (model : Model) (theirs : List (String × Engine.Signature)) (report : List Mismatch) : Prop :=
  ∃ order found, order.Perm theirs ∧ model.exports.mapM (compareExport typeName model.functions order) = .ok found ∧
    report.Perm (found.flatten ++ unknown model.exports order) ∧ report.Pairwise fun a b => ¬b.Before a

variable {typeName : ValueType → String} {model : Model} {theirs : List (String × Engine.Signature)} {report : List Mismatch}

/-- Whatever the order, the report has the same mismatches. -/
theorem mayReport_iff (htheirs : (theirs.map Prod.fst).Nodup) :
    MayReport typeName model theirs report ↔ report.Perm (mismatches typeName model theirs) ∧ report.Pairwise fun a b => ¬b.Before a := by
  have hfound : ∀ order, model.exports.mapM (compareExport typeName model.functions order) =
      .ok (model.exports.map (exportMismatches typeName model.functions order)) := fun order => mapM_eq_ok_map (compareExport_eq _ _ order) _
  constructor
  · rintro ⟨order, found, horder, hours, hperm, hsorted⟩
    obtain rfl := Except.ok.inj ((hfound order).symm.trans hours)
    rw [← List.flatMap_def] at hperm
    exact ⟨hperm.trans (mismatches_perm horder.symm htheirs).symm, hsorted⟩
  · rintro ⟨hperm, hsorted⟩
    rw [mismatches, List.flatMap_def] at hperm
    exact ⟨theirs, _, List.Perm.refl _, hfound theirs, hperm, hsorted⟩

/-- A comparison has one report, whatever the order in which the engine lists its functions and whatever the sort does where it is free. The
mismatches in it strictly ascend, by the bytes of the exports' names and then of what differs; and there is none exactly when the model and the
engine have the same functions. The engine's names of types are words. -/
theorem comparison_determined (hword : ∀ t, Text.IsWord (typeName t)) (hours : (functionNames model.exports).Nodup)
    (htheirs : (theirs.map Prod.fst).Nodup) :
    ∃ report, compareNaming typeName model theirs = .ok report ∧ (∀ report', MayReport typeName model theirs report' ↔ report' = report) ∧
      report.Pairwise Mismatch.Before ∧ (report = [] ↔ SameFunctions typeName model theirs) := by
  have hperm := List.mergeSort_perm (mismatches typeName model theirs) Mismatch.le
  have hkeys : ∀ {xs : List Mismatch}, xs.Perm (mismatches typeName model theirs) → (xs.map Mismatch.key).Nodup := fun h =>
    (h.map Mismatch.key).nodup_iff.mpr (nodup_keys hours htheirs)
  have hsorted := pairwise_mergeSort (mismatches typeName model theirs)
  have hascending := pairwise_before (hkeys hperm) hsorted
  refine ⟨_, compareNaming_eq typeName model theirs, fun report' => ?_, hascending, ?_⟩
  · rw [mayReport_iff htheirs]
    constructor
    · rintro ⟨hperm', hsorted'⟩
      exact eq_of_pairwise_before (hperm'.trans hperm.symm) (pairwise_before (hkeys hperm') hsorted') hascending
    · rintro rfl
      exact ⟨hperm, hsorted⟩
  · rw [← List.perm_nil, hperm.congr_left, List.perm_nil]
    exact ⟨sameFunctions_of_mismatches_eq_nil hword htheirs, fun h => h.mismatches_eq_nil htheirs⟩

/-- Two functions are exported, of which the engine has one, with another index and other parameters; and it has one more. -/
theorem comparison_determined_three_names :
    let typeName : ValueType → String := fun t => if t ∈ ValueType.all then t.name else "unknown"
    let model : Model := ⟨1, [⟨0, "b", .function⟩, ⟨0, "a", .memory⟩, ⟨1, "a", .function⟩],
      [⟨some "$b", [], [], false, []⟩, ⟨some "$a", [⟨0x7f⟩], [⟨0x7f⟩], false, []⟩]⟩
    let theirs : List (String × Engine.Signature) := [("é", ⟨2, [], []⟩), ("a", ⟨0, [⟨0x7f⟩, ⟨0x7e⟩], [⟨0x7f⟩]⟩)]
    let report : List Mismatch := [⟨"a", "index", "1", "0"⟩, ⟨"a", "params", "[i32]", "[i32 i64]"⟩, ⟨"b", "missing", "present", "absent"⟩,
      ⟨"é", "missing", "absent", "present"⟩]
    (∀ t, Text.IsWord (typeName t)) ∧ (functionNames model.exports).Nodup ∧ (theirs.map Prod.fst).Nodup ∧
      compareNaming typeName model theirs = .ok report ∧ ¬SameFunctions typeName model theirs ∧
      ∀ report', MayReport typeName model theirs report' ↔ report' = report := by
  intro typeName model theirs report
  have hword : ∀ t, Text.IsWord (typeName t) := by
    intro t
    by_cases ht : t ∈ ValueType.all
    · simp only [typeName, if_pos ht]
      exact (by decide : ∀ t ∈ ValueType.all, Text.IsWord t.name) t ht
    · simp only [typeName, if_neg ht]
      decide
  have hours : (functionNames model.exports).Nodup := by decide
  have htheirs : (theirs.map Prod.fst).Nodup := by decide
  obtain ⟨report', hreport, hmay, _, hsame⟩ := comparison_determined hword hours htheirs
  have hmayReport : MayReport typeName model theirs report :=
    ⟨theirs, _, List.Perm.refl _, rfl, by decide +kernel, by decide +kernel⟩
  obtain rfl : report = report' := (hmay report).mp hmayReport
  exact ⟨hword, hours, htheirs, hreport, fun h => List.cons_ne_nil _ _ (hsame.mpr h), hmay⟩

end WasmInspect.Agreement
