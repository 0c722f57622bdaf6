import WasmInspect.Proofs.Outcome

/-!
# Sections without a meaning

A section whose id has no meaning of its own can stand at any boundary of a module. It is read as a custom section, and the other sections
are those that were there before. But a custom section starts with a name, whatever its id is, so this holds only of a payload that does: one that
declares a name longer than itself is out of bounds, and the module around it is not read. The section that counts the data segments, which
came to the format later, has a payload of that kind.
-/

namespace WasmInspect

open Reader Grammar

/-! ## Payloads that start with a name -/

/-- The bytes are a name and a rest: the groups of the name's length, so many bytes, and what is left. -/
def StartsWithName (w : Bytes) (name : String) (rest : Bytes) : Prop :=
  ∃ g n, Leb128.IsNumber (Leb128.limit 32) g ∧ n.length = Leb128.unsigned g % UInt32.size ∧ name = Bytes.nameText n ∧ w = g ++ (n ++ rest)

namespace Grammar

variable {p : CountPolicy} {pos : Nat} {w : Bytes}

/-- The length in front of a name is found where the groups of a number are. -/
theorem count_of_isNumber {g rest : Bytes} (hg : Leb128.IsNumber (Leb128.limit 32) g) :
    count.Gives p ⟨pos, g ++ rest⟩ (Leb128.unsigned g % UInt32.size) ⟨pos + g.length, rest⟩ := by
  simp only [count, varuint32, varuint, gives_restoring, gives_bind, gives_pure, gives_leb128]
  exact ⟨_, _, ⟨_, _, ⟨g, _, ⟨hg, rfl, rfl⟩, rfl, rfl⟩, rfl, rfl⟩, rfl, rfl⟩

/-- Where there are no groups of a number there is no length either. -/
theorem count_of_groups_eq_none (hg : Leb128.groups (Leb128.limit 32) w = none) :
    (count p ⟨pos, w⟩).result = .error ⟨.error (.ofCause .outOfBounds), pos⟩ := by
  have hleb : (leb128 32 p ⟨pos, w⟩).result = .error ⟨.error (.ofCause .outOfBounds), pos + w.length⟩ := by
    rw [leb128, groups_eq]
    simp only [hg]
  have hvaruint : (varuint 32 p ⟨pos, w⟩).result = .error ⟨.error (.ofCause .outOfBounds), pos⟩ := by
    simp only [varuint, restoring, result_bind_eq_error.mpr (Or.inl hleb), mapError_error]
  exact result_bind_eq_error.mpr (Or.inl (result_bind_eq_error.mpr (Or.inl hvaruint)))

/-- Fewer bytes than a name has are out of bounds. -/
theorem bytes_of_lt {n : Nat} (hn : w.length < n) (hbound : pos + n < positionBound) :
    (bytes n p ⟨pos, w⟩).result = .error ⟨.error (.ofCause .outOfBounds), pos⟩ := by
  have hreaches : (reaches n).Gives p ⟨pos, w⟩ false ⟨pos, w⟩ := by
    rw [gives_reaches]
    refine ⟨decide_eq_false ?_, rfl⟩
    rintro (hle | hle)
    · exact absurd hbound (Nat.not_lt_of_le hle)
    · exact absurd hn (Nat.not_lt_of_le hle)
  rw [bytes, hreaches.result_bind]
  rfl

/-- Bytes that start with a name are read as one, up to the rest. -/
theorem gives_nameText_of_startsWithName {name : String} {rest : Bytes} (h : StartsWithName w name rest)
    (hbound : pos + w.length < positionBound) : nameText.Gives p ⟨pos, w⟩ name ⟨pos + (w.length - rest.length), rest⟩ := by
  obtain ⟨g, n, hg, hn, rfl, rfl⟩ := h
  simp only [List.length_append] at hbound ⊢
  have hcount : count.Gives p ⟨pos, g ++ (n ++ rest)⟩ n.length ⟨pos + g.length, n ++ rest⟩ := hn ▸ count_of_isNumber hg
  have hbytes : (bytes n.length).Gives p ⟨pos + g.length, n ++ rest⟩ n ⟨pos + g.length + n.length, rest⟩ :=
    gives_bytes.mpr ⟨by simp only; omega, rfl, rfl, rfl⟩
  simp only [nameText, name, gives_restoring, gives_bind, gives_pure]
  refine ⟨n, _, ⟨_, _, hcount, hbytes⟩, rfl, ?_⟩
  rw [show pos + (g.length + (n.length + rest.length) - rest.length) = pos + g.length + n.length by omega]

/-- Bytes that do not start with a name are out of bounds for one: there is no length, or there are not so many bytes. -/
theorem nameText_of_not_startsWithName (h : ¬∃ name rest, StartsWithName w name rest) (hbound : pos + w.length < lengthBound) :
    (nameText p ⟨pos, w⟩).result = .error ⟨.error (.ofCause .outOfBounds), pos⟩ := by
  have hinner : ∃ pos', ((count >>= bytes) p ⟨pos, w⟩).result = .error ⟨.error (.ofCause .outOfBounds), pos'⟩ := by
    cases hgroups : Leb128.groups (Leb128.limit 32) w with
    | none => exact ⟨pos, result_bind_eq_error.mpr (Or.inl (count_of_groups_eq_none hgroups))⟩
    | some v =>
      obtain ⟨g, rest⟩ := v
      obtain ⟨hg, rfl⟩ := Leb128.groups_eq_some_iff.mp hgroups
      have hlt : Leb128.unsigned g % UInt32.size < UInt32.size := Nat.mod_lt _ (by decide)
      have hshort : rest.length < Leb128.unsigned g % UInt32.size := by
        by_contra hle
        refine h ⟨_, rest.drop (Leb128.unsigned g % UInt32.size), g, rest.take (Leb128.unsigned g % UInt32.size), hg, ?_, rfl, ?_⟩
        · exact List.length_take_of_le (Nat.le_of_not_lt hle)
        · rw [List.take_append_drop]
      have hend : pos + g.length + Leb128.unsigned g % UInt32.size < positionBound := by
        rw [List.length_append] at hbound
        unfold lengthBound at hbound
        unfold positionBound
        unfold UInt32.size at hlt ⊢
        omega
      refine ⟨pos + g.length, ?_⟩
      rw [(count_of_isNumber hg).result_bind]
      exact bytes_of_lt hshort hend
  obtain ⟨pos', hinner⟩ := hinner
  have hname : (name p ⟨pos, w⟩).result = .error ⟨.error (.ofCause .outOfBounds), pos⟩ := by
    simp only [name, restoring, show (_ : Except Stop _) = _ from hinner, mapError_error]
  exact result_bind_eq_error.mpr (Or.inl hname)

/-- The payload of a section without a meaning of its own, if it starts with a name. -/
theorem gives_payload_of_startsWithName {id : SectionId} (hid : ¬id.isKnown = true) {name : String} {rest : Bytes}
    (h : StartsWithName w name rest) (hbound : pos + w.length < positionBound) :
    (payload id).Gives p ⟨pos, w⟩ (.custom name rest) ⟨pos + w.length, []⟩ := by
  have hlen : rest.length ≤ w.length := by
    obtain ⟨g, n, _, _, _, rfl⟩ := h
    simp only [List.length_append]
    omega
  rw [payload_of_not_isKnown hid]
  refine gives_map.mpr ⟨(name, rest), gives_custom.mpr ⟨_, gives_nameText_of_startsWithName h hbound, rfl, ?_⟩, rfl⟩
  rw [Nat.add_assoc, Nat.sub_add_cancel hlen]

/-- Any other payload of such a section is an error. -/
theorem payload_of_not_startsWithName {id : SectionId} (hid : ¬id.isKnown = true) (h : ¬∃ name rest, StartsWithName w name rest)
    (hbound : pos + w.length < lengthBound) :
    (payload id p ⟨pos, w⟩).result = .error ⟨.error ⟨[.part "name"], .outOfBounds⟩, pos⟩ := by
  have hcustom : (custom p ⟨pos, w⟩).result = .error ⟨.error ⟨[.part "name"], .outOfBounds⟩, pos⟩ := by
    simp only [custom, restoring, followed, within, nameText_of_not_startsWithName h hbound, mapError_error]
    rfl
  rw [payload_of_not_isKnown hid]
  exact result_bind_eq_error.mpr (Or.inl hcustom)

end Grammar

/-! ## A section between two parts of a byte string -/

section

variable {pre w suf : Bytes} {id : SectionId}

/-- What is left behind the first part of a string. -/
theorem Input.at_append {pos : Nat} (b : Bytes) (hpos : pre.length = pos) : Input.at (pre ++ b) pos = ⟨pos, b⟩ := by
  rw [Input.at, List.drop_left' hpos]

theorem Encode.length_sectionOf (id : SectionId) (w : Bytes) :
    (Encode.sectionOf id w).length = 1 + ((Encode.number w.length).length + w.length) := by
  rw [sectionOf, sized, List.length_cons, List.length_append, Nat.add_comm]

/-- The header of a section stands where the section was written, and its payload is what was written for it. -/
theorem headerAt_sectionOf (hid : id.byte < 128) (hw : w.length < UInt32.size)
    (hlen : (pre ++ (Encode.sectionOf id w ++ suf)).length < lengthBound) :
    HeaderAt (pre ++ (Encode.sectionOf id w ++ suf)) pre.length id w.length ∧
      ∃ start, start + w.length = pre.length + (Encode.sectionOf id w).length ∧
        payloadAt (pre ++ (Encode.sectionOf id w ++ suf)) pre.length w.length = ⟨start, w⟩ := by
  have hnumber := Encode.length_number_le hw
  have hsize : 5 < UInt32.size := by decide
  have hbytes : Encode.sectionOf id w ++ suf = [id.byte] ++ (Encode.number w.length ++ (w ++ suf)) := by
    rw [Encode.sectionOf, Encode.sized, List.cons_append, List.append_assoc]
    rfl
  rw [List.length_append, List.length_append, Encode.length_sectionOf] at hlen
  unfold lengthBound at hlen
  -- what is left after the id, and after the size
  have hafterId : Input.at (pre ++ (Encode.sectionOf id w ++ suf)) (pre.length + 1) =
      ⟨pre.length + 1, Encode.number w.length ++ (w ++ suf)⟩ := by
    rw [hbytes, ← List.append_assoc]
    exact Input.at_append _ (List.length_append ..)
  have hafterSize : Input.at (pre ++ (Encode.sectionOf id w ++ suf)) (pre.length + 1 + (Encode.number w.length).length) =
      ⟨pre.length + 1 + (Encode.number w.length).length, w ++ suf⟩ := by
    rw [hbytes, ← List.append_assoc, ← List.append_assoc]
    exact Input.at_append _ (by rw [List.length_append, List.length_append, List.length_singleton])
  have hcount : count.Gives .checked (Input.at (pre ++ (Encode.sectionOf id w ++ suf)) (pre.length + 1)) w.length
      (Input.at (pre ++ (Encode.sectionOf id w ++ suf)) (pre.length + 1 + (Encode.number w.length).length)) := by
    rw [hafterId, hafterSize]
    refine reads_count hw (by omega) .checked (pre.length + 1) (w ++ suf) ?_
    unfold positionBound
    omega
  have hstart : payloadStart (pre ++ (Encode.sectionOf id w ++ suf)) pre.length =
      pre.length + 1 + (Encode.number w.length).length := by
    rw [payloadStart, Cursor.readAt_eq_ok_iff.mpr ⟨_, hcount⟩]
    exact Int.toNat_natCast _
  refine ⟨⟨?_, ?_, ?_⟩, pre.length + 1 + (Encode.number w.length).length, ?_, ?_⟩
  · rw [Input.at_append _ rfl, hafterId, hbytes]
    refine reads_varuint7 hid ?_ .checked pre.length _ ?_
    · rw [List.length_singleton]
      omega
    · rw [List.length_singleton]
      unfold positionBound
      omega
  · rw [hstart]
    exact hcount
  · rw [hstart, List.length_append, List.length_append, Encode.length_sectionOf]
    omega
  · rw [Encode.length_sectionOf]
    omega
  · have hdrop : (pre ++ (Encode.sectionOf id w ++ suf)).drop (pre.length + 1 + (Encode.number w.length).length) = w ++ suf :=
      congrArg Input.rest hafterSize
    rw [payloadAt, hstart, hdrop, List.take_left]

/-- A section without a meaning is read where it was written, if its payload starts with a name. -/
theorem gives_sectionOf_of_startsWithName (hid : id.byte < 128) (hknown : ¬id.isKnown = true) (hw : w.length < UInt32.size)
    {name : String} {rest : Bytes} (h : StartsWithName w name rest) {pos : Nat} (hpos : pos + (Encode.sectionOf id w).length < positionBound) :
    anySection.Gives .checked ⟨pos, Encode.sectionOf id w ++ suf⟩ ⟨id, w.length, w.length, .custom name rest⟩
      ⟨pos + (Encode.sectionOf id w).length, suf⟩ :=
  gives_sectionOf suf hid hw hpos fun _ hpos' => gives_payload_of_startsWithName hknown h (by omega)

/-- Any other payload makes the section an error. -/
theorem anySection_of_not_startsWithName (hid : id.byte < 128) (hknown : ¬id.isKnown = true) (hw : w.length < UInt32.size)
    (hlen : (pre ++ (Encode.sectionOf id w ++ suf)).length < lengthBound) (h : ¬∃ name rest, StartsWithName w name rest) :
    (anySection .checked ⟨pre.length, Encode.sectionOf id w ++ suf⟩).result =
      .error ⟨.error ⟨[.payloadOf id, .part "name"], .outOfBounds⟩, pre.length⟩ := by
  obtain ⟨hheader, start, hstart, hpayload⟩ := headerAt_sectionOf hid hw hlen
  have hbound : start + w.length < lengthBound := by
    rw [List.length_append, List.length_append] at hlen
    omega
  have hfails := payload_of_not_startsWithName (p := .checked) hknown h hbound
  rw [← hpayload] at hfails
  have hsection := hheader.anySection_of_error hlen hfails
  rw [Input.at_append _ rfl] at hsection
  rw [hsection]
  rfl

end

/-! ## A section between two parts of a stream -/

section

variable {b : Bytes} {pos j : Nat} {ss : List Section} {e : Input}

/-- From a boundary on, a stream has the sections that start there or later. -/
theorem sections_drop (h : sections.Gives .checked ⟨pos, b.drop pos⟩ ss e) (hj : j ≤ ss.length) :
    ∃ e', sections.Gives .checked ⟨boundaryFrom b pos ss j, b.drop (boundaryFrom b pos ss j)⟩ (ss.drop j) e' := by
  induction ss generalizing pos j with
  | nil =>
    obtain rfl : j = 0 := Nat.le_zero.mp hj
    exact ⟨e, h⟩
  | cons s ss ih =>
    cases j with
    | zero => exact ⟨e, h⟩
    | succ j =>
      obtain ⟨_, _, _, _, _, hrest⟩ := parts_of_sections h
      exact ih hrest (Nat.le_of_succ_le_succ hj)

/-- Boundaries are not past the end. -/
theorem boundaryFrom_le (h : sections.Gives .checked ⟨pos, b.drop pos⟩ ss e) (hpos : pos ≤ b.length) (hj : j ≤ ss.length) :
    boundaryFrom b pos ss j ≤ b.length := by
  have hmono := boundaryFrom_mono b pos hj (Nat.le_refl _)
  rwa [boundaryFrom_length h hpos] at hmono

/-- Up to a boundary, a stream has the sections that start before it. -/
theorem sections_take_boundary (hlen : b.length < lengthBound) (h : sections.Gives .checked ⟨pos, b.drop pos⟩ ss e) (hpos : pos ≤ b.length)
    (hj : j ≤ ss.length) : ∃ e', sections.Gives .checked ⟨pos, (b.take (boundaryFrom b pos ss j)).drop pos⟩ (ss.take j) e' := by
  rcases sections_take hlen h (le_boundaryFrom b pos ss j) (boundaryFrom_le h hpos hj) with ⟨k, hk, heq, hgives⟩ | ⟨k, hk, _, _, hinside⟩
  · obtain rfl := boundaryFrom_inj hj hk heq
    exact hgives
  · -- a boundary is no cut inside of a section
    have hstart := lt_payloadStart b (boundaryFrom b pos ss k)
    have hsize := boundaryFrom_succ b pos (List.getElem?_eq_getElem hk)
    have hne : boundaryFrom b pos ss j ≠ boundaryFrom b pos ss j := by
      refine ne_boundaryFrom_of_inside hk ?_ ?_ hj
      · rcases hinside with ⟨hlt, _, _⟩ | ⟨hle, _, _⟩ <;> omega
      · rcases hinside with ⟨_, hlt, _⟩ | ⟨_, hlt, _⟩ <;> omega
    exact absurd rfl hne

/-- A stream that can be read is read further on as well. -/
theorem sections_moved {i k : Input} (n : Nat) (hlen : i.stop + n < lengthBound) (h : sections.Gives .checked i ss k) :
    sections.Gives .checked (i.moved n) ss (k.moved n) := by
  have hmoved := (moves_sections (k := n) .checked i hlen).moved
  rw [Gives, hmoved, Outcome.moved, show (sections .checked i).result = _ from h]

end

section

variable {b : Bytes} {m : Module} {j : Nat}

/-- The boundaries of a module are from the end of its header to its own end. -/
theorem Module.boundary_bounds (h : (decode b).result = .ok m) (hj : j ≤ m.sections.length) : 8 ≤ m.boundary b j ∧ m.boundary b j ≤ b.length := by
  obtain ⟨hb, _, e, hss⟩ := sections_of_decode h
  refine ⟨le_boundaryFrom b 8 m.sections j, boundaryFrom_le hss ?_ hj⟩
  have hlen := congrArg List.length hb
  rw [List.length_append, length_header] at hlen
  omega

/-- What stands behind the sections before a boundary is read from there, and its sections come after these. -/
theorem decode_take_append (hlen : b.length < lengthBound) (h : (decode b).result = .ok m) (hj : j ≤ m.sections.length) (s : Bytes) :
    (decode (b.take (m.boundary b j) ++ s)).result =
      (sections .checked ⟨m.boundary b j, s⟩).value.map fun ss => Module.ofSections (m.sections.take j ++ ss) := by
  obtain ⟨hb, _, _, hss⟩ := sections_of_decode h
  obtain ⟨hle8, hle⟩ := Module.boundary_bounds h hj
  obtain ⟨_, hbefore⟩ := sections_take_boundary hlen hss (Nat.le_trans hle8 hle) hj
  have hheader : (b.take (m.boundary b j)).take 8 = Module.header := by
    rw [List.take_take, Nat.min_eq_left hle8, hb]
    exact List.take_left' length_header
  have hsplit : b.take (m.boundary b j) ++ s = Module.header ++ ((b.take (m.boundary b j)).drop 8 ++ s) := by
    rw [← hheader, ← List.append_assoc, List.take_append_drop]
  have hstart : 8 + ((b.take (m.boundary b j)).drop 8).length = m.boundary b j := by
    rw [List.length_drop, List.length_take_of_le hle]
    omega
  have hjoin := result_sections_append hbefore s
  rw [show boundaryFrom b 8 m.sections j = m.boundary b j from rfl, hstart] at hjoin
  rw [hsplit, decode_header, Outcome.value, hjoin, Outcome.value]
  cases (sections .checked ⟨m.boundary b j, s⟩).result <;> rfl

/-- A section without a meaning stands at any boundary of a module, if its payload starts with a name: it is read as a custom section that takes
all of its payload, and the other sections are read as before. If the payload does not start with a name, the module is not read, and the
error says that the name of this section is out of bounds. -/
theorem decode_insert_unknown (h : (decode b).result = .ok m) (hj : j ≤ m.sections.length) {id : SectionId} (hid : id.byte < 128)
    (hknown : ¬id.isKnown = true) {w : Bytes} (hw : w.length < UInt32.size)
    (hlen : b.length + (Encode.sectionOf id w).length < lengthBound) :
    let inserted := b.take (m.boundary b j) ++ (Encode.sectionOf id w ++ b.drop (m.boundary b j))
    (∀ name rest, StartsWithName w name rest → (decode inserted).result =
      .ok (Module.ofSections (m.sections.take j ++ ⟨id, w.length, w.length, .custom name rest⟩ :: m.sections.drop j))) ∧
    ((¬∃ name rest, StartsWithName w name rest) → (decode inserted).result =
      .error (.error ⟨[.position (m.boundary b j), .payloadOf id, .part "name"], .outOfBounds⟩)) := by
  intro inserted
  obtain ⟨_, hle⟩ := Module.boundary_bounds h hj
  have hread := decode_take_append (by omega) h hj (Encode.sectionOf id w ++ b.drop (m.boundary b j))
  have htake : (b.take (m.boundary b j)).length = m.boundary b j := List.length_take_of_le hle
  have hne : (⟨m.boundary b j, Encode.sectionOf id w ++ b.drop (m.boundary b j)⟩ : Input).rest ≠ [] := List.cons_ne_nil _ _
  rw [show inserted = _ from rfl, hread, Outcome.value]
  constructor
  · intro name rest hname
    -- the section that is put in, and then the sections after it, further on by its length
    have hpos : m.boundary b j + (Encode.sectionOf id w).length < positionBound := by
      unfold lengthBound at hlen
      unfold positionBound
      omega
    obtain ⟨_, _, _, hss⟩ := sections_of_decode h
    obtain ⟨_, hafter⟩ := sections_drop hss hj
    have hstop : Input.stop ⟨m.boundary b j, b.drop (m.boundary b j)⟩ + (Encode.sectionOf id w).length < lengthBound := by
      simp only [Input.stop, List.length_drop]
      omega
    have hall := gives_sections.mpr (Or.inr ⟨_, _, _, hne, rfl, gives_sectionOf_of_startsWithName hid hknown hw hname hpos,
      sections_moved _ hstop hafter⟩)
    rw [show (sections .checked _).result = _ from hall]
    rfl
  · intro hname
    have hbound : (b.take (m.boundary b j) ++ (Encode.sectionOf id w ++ b.drop (m.boundary b j))).length < lengthBound := by
      rw [List.length_append, List.length_append, htake, List.length_drop]
      omega
    have hsection := anySection_of_not_startsWithName hid hknown hw hbound hname
    rw [htake] at hsection
    have hlocated : (located anySection .checked ⟨m.boundary b j, Encode.sectionOf id w ++ b.drop (m.boundary b j)⟩).result =
        .error ⟨.error ⟨[.position (m.boundary b j), .payloadOf id, .part "name"], .outOfBounds⟩, m.boundary b j⟩ := by
      rw [located, hsection, mapError_error]
      rfl
    rw [sections_cons hne, result_bind_eq_error.mpr (Or.inl hlocated)]
    rfl

end

/-- A section of an id without a meaning between two start sections, with a name of one byte and one more byte, and one with a name that is longer
than its payload. -/
theorem decode_insert_unknown_between :
    let b := Module.header ++ [8, 1, 0, 8, 1, 1]
    (decode (b.take 11 ++ (Encode.sectionOf ⟨42⟩ [1, 0x61, 0xff] ++ b.drop 11))).result = .ok (Module.ofSections
      [⟨.start, 1, 1, .start 0⟩, ⟨⟨42⟩, 3, 3, .custom "a" [0xff]⟩, ⟨.start, 1, 1, .start 1⟩]) ∧
    (decode (b.take 11 ++ (Encode.sectionOf ⟨42⟩ [5] ++ b.drop 11))).result =
      .error (.error ⟨[.position 11, .payloadOf ⟨42⟩, .part "name"], .outOfBounds⟩) := by
  intro b
  have hm : (decode b).result = .ok (Module.ofSections [⟨.start, 1, 1, .start 0⟩, ⟨.start, 1, 1, .start 1⟩]) := rfl
  constructor
  · have hlength : Leb128.groups (Leb128.limit 32) [1] = some ([1], []) := rfl
    exact (decode_insert_unknown (j := 1) hm (by decide) (by decide) (by decide) (by decide) (by decide +kernel)).1 "a" [0xff]
      ⟨[1], [0x61], (Leb128.groups_eq_some_iff.mp hlength).1, rfl, rfl, rfl⟩
  · refine (decode_insert_unknown (j := 1) hm (by decide) (by decide) (by decide) (by decide) (by decide +kernel)).2 ?_
    rintro ⟨_, rest, g, n, hg, hn, _, hw⟩
    -- the length takes the only byte, so there is none for the name
    have hgroups : Leb128.groups (Leb128.limit 32) [5] = some (g, n ++ rest) := Leb128.groups_eq_some_iff.mpr ⟨hg, hw⟩
    obtain ⟨rfl, hrest⟩ := Prod.mk.inj (Option.some.inj hgroups)
    obtain ⟨rfl, _⟩ := List.append_eq_nil_iff.mp hrest.symm
    cases hn

/-- The section that counts the data segments of a module, put at the end of an empty one with a count of 5: it is not read. -/
theorem data_count_not_custom :
    (decode Module.header).result = .ok (Module.ofSections []) ∧ (Module.ofSections []).boundary Module.header 0 = 8 ∧
      (decode (Module.header.take 8 ++ (Encode.sectionOf ⟨12⟩ [5] ++ Module.header.drop 8))).result =
        .error (.error ⟨[.position 8, .payloadOf ⟨12⟩, .part "name"], .outOfBounds⟩) :=
  ⟨rfl, rfl, by decide +kernel⟩

end WasmInspect
