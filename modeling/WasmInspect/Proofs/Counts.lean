import WasmInspect.Proofs.Locality
import WasmInspect.Proofs.Stream

/-!
# Checks of counts

A list is refused before an entry of it is read if its count says that it cannot fit into the bytes that are left. Such a check refuses
nothing that could be read: an entry takes at least as many bytes as the check assumes, so what is refused would fail at an entry. Without
the checks (`Reader.unguarded`) the same values are read, up to the same positions. Only errors may differ.
-/

namespace WasmInspect

open Reader Grammar

/-! ## Readers without checks -/

section

variable {α : Type}

/-- The reader without its checks of counts. -/
def Reader.unguarded (r : Reader α) : Reader α := fun _ i => r .unchecked i

/-- A check that is not made lets every count pass. -/
theorem Reader.admits_unchecked (n : Nat) (i : Input) : admits n .unchecked i = ⟨[], .ok (true, i)⟩ := by
  simp only [admits, decide_true, Bool.true_or]

/-- Without its check a list is its count and so many entries. -/
theorem Grammar.unguarded_list (counts item : String) (r : Reader α) :
    (list counts item r).unguarded = (within (.part counts) count >>= fun n => entries item r n 0).unguarded := by
  funext _ i
  refine bind_eq_bind rfl fun n k _ => ?_
  show (admits n >>= fun fits => ensure fits (.ofCause .outOfBounds) >>= fun _ => entries item r n 0) .unchecked k = _
  rw [bind_of_ok (admits_unchecked n k)]
  rfl

/-- Without its check the content of a section is its count and so many entries. -/
theorem Grammar.unguarded_vector (item : String) (least : Nat) (r : Reader α) :
    (vector item least r).unguarded =
      (restoring (within (.part "vector length") count >>= fun n => entries item r n 0)).unguarded := by
  funext _ i
  refine restoring_congr (bind_eq_bind rfl fun n k _ => ?_)
  show (admits (n * least) >>= fun fits => remaining >>= fun rest =>
    ensure fits (.malformed (.listTooLong n rest.length)) >>= fun _ => entries item r n 0) .unchecked k = _
  rw [bind_of_ok (admits_unchecked (n * least) k)]
  rfl

end

/-! ## What the checks leave -/

/-- Whether counts are checked does not matter for a success. -/
def Reader.Lenient {α : Type} (r : Reader α) : Prop := ∀ p q i a j, r.Gives p i a j → r.Gives q i a j

/-- A reader whose successes are due to the bytes that it takes. -/
theorem Reader.Takes.lenient {α : Type} {n : Nat} {r : Reader α} (h : Takes n r) : Lenient r := by
  intro p q i a j hg
  obtain ⟨w, _, hw, _, halone⟩ := h p i a j hg
  have hread := halone q j.rest
  rwa [← hw] at hread

/-- A custom payload has no count but the length of its name. -/
theorem Grammar.lenient_custom : Lenient custom := by
  intro p q i a j hg
  obtain ⟨n, b⟩ := a
  obtain ⟨k, hname, hrest⟩ := gives_custom.mp hg
  exact gives_custom.mpr ⟨k, takes_nameText.lenient p q _ _ _ hname, hrest⟩

/-- Every production. -/
theorem Production.lenient_read (q : Production) : Lenient q.read := by
  by_cases hq : q = .custom
  · subst hq
    exact lenient_custom
  · exact (takes_read hq).lenient

/-- A stream of sections, one after the other. -/
theorem Grammar.lenient_sections : Lenient sections := by
  intro p q i ss j hg
  induction ss generalizing i with
  | nil =>
    rcases gives_sections.mp hg with hnil | ⟨_, _, _, _, hss, _, _⟩
    · exact gives_sections.mpr (Or.inl hnil)
    · cases hss
  | cons s ss ih =>
    rcases gives_sections.mp hg with ⟨_, hss, _⟩ | ⟨_, _, k, hne, hss, hs, hrest⟩
    · cases hss
    · obtain ⟨rfl, rfl⟩ := List.cons.inj hss
      exact gives_sections.mpr (Or.inr ⟨s, ss, k, hne, rfl, takes_anySection.lenient p q _ _ _ hs, ih k hrest⟩)

/-- A module. -/
theorem Grammar.lenient_module : Lenient module := by
  intro p q i m j hg
  simp only [module, gives_bind, gives_located, gives_orElseFail, gives_within, gives_ensure] at hg ⊢
  obtain ⟨magic, k, hmagic, u, l, hok, version, k', hversion, u', l', hok', ss, e, hss, hm⟩ := hg
  exact ⟨magic, k, takes_uint32.lenient p q _ _ _ hmagic, u, l, hok, version, k', takes_uint32.lenient p q _ _ _ hversion, u', l', hok',
    ss, e, lenient_sections p q _ _ _ hss, hm⟩

section

variable {α : Type} {r : Reader α} {b : Bytes}

theorem Reader.Lenient.readAt_unguarded (h : Lenient r) {st pos : Int} {v : α} :
    Cursor.readAt r b st = ⟨pos, .ok v⟩ ↔ Cursor.readAt r.unguarded b st = ⟨pos, .ok v⟩ := by
  rw [Cursor.readAt_eq_ok, Cursor.readAt_eq_ok]
  constructor
  · rintro ⟨j, hg, hpos⟩
    exact ⟨j, h .checked .unchecked _ _ _ hg, hpos⟩
  · rintro ⟨j, hg, hpos⟩
    exact ⟨j, h .unchecked .checked _ _ _ hg, hpos⟩

end

/-- The checks of counts refuse nothing. Without them a list is its count and so many entries, which are read one after the other until one
fails. At every position of every byte string each production then gives the same value and ends at the same position, if it gives
one at all with the checks or without them, and the same bytes are modules. -/
theorem count_checks_refuse_nothing (b : Bytes) :
    (∀ (α : Type) (counts item : String) (r : Reader α),
      (list counts item r).unguarded = (within (.part counts) count >>= fun n => entries item r n 0).unguarded) ∧
    (∀ (α : Type) (item : String) (least : Nat) (r : Reader α), (vector item least r).unguarded =
      (restoring (within (.part "vector length") count >>= fun n => entries item r n 0)).unguarded) ∧
    (∀ (q : Production) (st pos : Int) (v : q.Value),
      Cursor.readAt q.read b st = ⟨pos, .ok v⟩ ↔ Cursor.readAt q.read.unguarded b st = ⟨pos, .ok v⟩) ∧
    ∀ m, (decode b).result = .ok m ↔ (decodeWith .unchecked b).result = .ok m := by
  refine ⟨fun α => unguarded_list, fun α => unguarded_vector, fun q st pos v => q.lenient_read.readAt_unguarded, fun m => ?_⟩
  show (module .checked _).value = .ok m ↔ (module .unchecked _).value = .ok m
  rw [value_eq_ok, value_eq_ok]
  constructor
  · rintro ⟨j, hg⟩
    exact ⟨j, lenient_module .checked .unchecked _ _ _ hg⟩
  · rintro ⟨j, hg⟩
    exact ⟨j, lenient_module .unchecked .checked _ _ _ hg⟩

/-- Two bodies cannot stand in three bytes. Without the check the first one is read, and the second one ends too early. -/
example :
    (Cursor.readAt code [2, 2, 0, 0x0b] 0).result =
      .error (.error (.malformed (.listTooLong 2 3))) ∧
    (Cursor.readAt code.unguarded [2, 2, 0, 0x0b] 0).result =
      .error (.error ⟨[.item "code" 1, .part "body size"], .outOfBounds⟩) := ⟨rfl, rfl⟩

end WasmInspect
