import WasmInspect.Proofs.Grammar.Moves
import WasmInspect.Proofs.Grammar.Takes
import WasmInspect.Proofs.Reader.Failure

/-!
# The parts of a section

The bytes of a section are its id, the groups of its size, what its payload takes, and the slack: the rest of the size, which nothing
reads. `Parts` holds these, and every section that is read has such parts (`exists_parts`). It is read from them whatever the slack is.

A section that is cut is not read. If the cut is in the size, the input ends too early; if it is behind the size, then the size is larger than
what is left. No part of a payload is looked at before that.
-/

namespace WasmInspect

open Reader Grammar

variable {p : CountPolicy} {i j : Input}

/-! ## Headers -/

/-- No part of a number from its start is a number. -/
theorem Leb128.groups_take_eq_none {n k : Nat} {g : Bytes} (hg : Leb128.IsNumber n g) (hk : k < g.length) :
    Leb128.groups n (g.take k) = none := by
  cases hpart : Leb128.groups n (g.take k) with
  | none => rfl
  | some v =>
    -- a number inside of `g` would be what is found in `g`, which is `g` itself
    obtain ⟨g', rest⟩ := v
    obtain ⟨hg', hrest⟩ := Leb128.groups_eq_some_iff.mp hpart
    have hsplit : g = g' ++ (rest ++ g.drop k) := by
      rw [← List.append_assoc, ← hrest, List.take_append_drop]
    have hwhole : Leb128.groups n g = some (g, []) := Leb128.groups_eq_some_iff.mpr ⟨hg, (List.append_nil g).symm⟩
    have hfound : Leb128.groups n g = some (g', rest ++ g.drop k) := Leb128.groups_eq_some_iff.mpr ⟨hg', hsplit⟩
    rw [hwhole, Option.some.injEq, Prod.mk.injEq] at hfound
    have hlen := congrArg List.length hrest
    rw [List.length_append, List.length_take, ← hfound.1] at hlen
    omega

namespace Grammar

/-- A number of seven bits takes one byte. -/
theorem gives_varuint7_cons {x : UInt8} (h : varuint7.Gives p i x j) : ∃ y, i.rest = y :: j.rest ∧ j.pos = i.pos + 1 := by
  simp only [varuint7, varuint, gives_restoring, gives_bind, gives_pure, gives_leb128] at h
  obtain ⟨_, _, ⟨g, _, ⟨hg, hrest, hpos⟩, _, rfl⟩, _, rfl⟩ := h
  have hle : g.length ≤ 1 := hg.length_le
  have hpos' : 0 < g.length := hg.length_pos (by decide)
  obtain ⟨y, rfl⟩ : ∃ y, g = [y] := List.length_eq_one_iff.mp (by omega)
  exact ⟨y, hrest, hpos⟩

/-- The bytes of a count are those of a number, of which no part from the start is a count. -/
theorem count_take {n k : Nat} {g rest : Bytes} (h : count.Gives p ⟨i.pos, g ++ rest⟩ n ⟨i.pos + g.length, rest⟩) (hk : k < g.length) :
    count.Fails p ⟨i.pos, g.take k⟩ .outOfBounds := by
  simp only [count, varuint32, varuint, gives_restoring, gives_bind, gives_pure, gives_leb128] at h
  obtain ⟨_, _, ⟨_, _, ⟨g', l, ⟨hg, hrest, hpos⟩, _, rfl⟩, _, rfl⟩, _, rfl⟩ := h
  obtain ⟨rfl, _⟩ := List.append_inj hrest (by simp only at hpos; omega)
  have hnone := Leb128.groups_take_eq_none hg hk
  have hleb : (leb128 32).Fails p ⟨i.pos, g.take k⟩ .outOfBounds := by
    refine ⟨.ofCause .outOfBounds, i.pos + (g.take k).length, ?_, rfl⟩
    rw [leb128, groups_eq]
    simp only [hnone]
  exact hleb.bind.restoring.bind.bind

end Grammar

/-! ## Parts -/

/-- The bytes of a section in four parts. -/
structure Parts where
  id : UInt8
  size : Bytes
  taken : Bytes
  slack : Bytes

namespace Parts

/-- The id and the size. -/
def header (c : Parts) : Bytes := c.id :: c.size

/-- All bytes of the section. -/
def bytes (c : Parts) : Bytes := c.header ++ (c.taken ++ c.slack)

/-- The parts, at a position, are those of the section `s`: the readers find them so, with whatever slack of the same length. -/
structure Of (c : Parts) (pos : Nat) (s : Section) : Prop where
  id : ∀ p suf, ∃ x, varuint7.Gives p ⟨pos, c.id :: suf⟩ x ⟨pos + 1, suf⟩ ∧ s.id = ⟨x⟩
  size : ∀ p suf, count.Gives p ⟨pos + 1, c.size ++ suf⟩ s.size ⟨pos + 1 + c.size.length, suf⟩
  consumed_pos : 1 ≤ c.taken.length
  consumed : c.taken.length = s.consumed
  size_eq : c.taken.length + c.slack.length = s.size
  custom : ¬s.id.isKnown = true → c.slack = []
  gives : ∀ p slack suf, slack.length = c.slack.length →
    anySection.Gives p ⟨pos, c.header ++ (c.taken ++ (slack ++ suf))⟩ s ⟨pos + c.bytes.length, suf⟩

theorem length_header (c : Parts) : c.header.length = 1 + c.size.length := Nat.add_comm _ _

theorem length_bytes (c : Parts) : c.bytes.length = 1 + c.size.length + (c.taken.length + c.slack.length) := by
  rw [bytes, List.length_append, List.length_append, length_header]

end Parts

/-- What a payload takes decides it, up to the slack after it; there is none after a custom payload. -/
theorem Grammar.payload_slack {id : SectionId} {a : Payload} (h : (payload id).Gives p i a j) :
    ∃ v, 1 ≤ v.length ∧ i.rest = v ++ j.rest ∧ j.pos = i.pos + v.length ∧ (¬id.isKnown = true → j.rest = []) ∧
      ∀ q slack, slack.length = j.rest.length → (payload id).Gives q ⟨i.pos, v ++ slack⟩ a ⟨j.pos, slack⟩ := by
  by_cases hid : id.isKnown = true
  · obtain ⟨v, hv, hrest, hpos, hgives⟩ := takes_payload hid p i a j h
    exact ⟨v, hv, hrest, hpos, fun hnot => absurd hid hnot, fun q slack _ => hgives q slack⟩
  · have hcustom := h
    rw [payload_of_not_isKnown hid] at hcustom
    simp only [gives_map, Prod.exists, gives_custom] at hcustom
    obtain ⟨n, b, ⟨k, hname, _, rfl⟩, _⟩ := hcustom
    have hk := takes_nameText.rest_length hname
    refine ⟨i.rest, by omega, (List.append_nil _).symm, hk.1, fun _ => rfl, fun q slack hslack => ?_⟩
    obtain rfl := List.eq_nil_of_length_eq_zero hslack
    rw [List.append_nil]
    exact payload_policy h

/-- A section that is read has parts. -/
theorem exists_parts {s : Section} (h : anySection.Gives p i s j) :
    ∃ c : Parts, c.Of i.pos s ∧ i.rest = c.bytes ++ j.rest ∧ j.pos = i.pos + c.bytes.length := by
  obtain ⟨x, k, size, l, a, o, hid, hsize, ⟨hbound, hroom⟩, hpayload, rfl, rfl⟩ := gives_anySection.mp h
  obtain ⟨y, hy, hk⟩ := gives_varuint7_cons hid
  obtain ⟨w, _, hw, _, hid'⟩ := takes_varuint7 _ _ _ _ hid
  obtain rfl : w = [y] := List.append_cancel_right (hw.symm.trans hy)
  obtain ⟨g, _, hg, hl, hsize'⟩ := takes_count _ _ _ _ hsize
  obtain ⟨v, hv, htake, ho, hcustom, hpayload'⟩ := payload_slack hpayload
  have hlen : v.length + o.rest.length = size := by
    rw [← List.length_append, ← htake]
    exact List.length_take_of_le hroom
  have hconsumed : o.pos - l.pos = v.length := by
    rw [ho]
    exact Nat.add_sub_cancel_left _ _
  simp only at htake ho hpayload'
  rw [hk] at hid' hl hsize'
  rw [hl] at hsize' hpayload'
  have hpos : l.pos + size = i.pos + (Parts.mk y g v o.rest).bytes.length := by
    simp only [Parts.length_bytes]
    omega
  refine ⟨⟨y, g, v, o.rest⟩, ⟨?_, ?_, hv, hconsumed.symm, hlen, hcustom, ?_⟩, ?_, hpos⟩
  · exact fun q suf => ⟨x, hid' q suf, rfl⟩
  · exact hsize'
  · intro q slack suf hslack
    refine gives_anySection.mpr ⟨x, ⟨i.pos + 1, g ++ (v ++ (slack ++ suf))⟩, size, ⟨i.pos + 1 + g.length, v ++ (slack ++ suf)⟩, a,
      ⟨o.pos, slack⟩, hid' q _, hsize' q _, ⟨by rwa [← hl], ?_⟩, ?_, ?_, ?_⟩
    · simp only [List.length_append] at hslack ⊢
      omega
    · have hcut : (v ++ (slack ++ suf)).take size = v ++ slack := by
        rw [← List.append_assoc]
        exact List.take_left' (by rw [List.length_append, hslack, hlen])
      simp only [hcut]
      exact hpayload' q slack hslack
    · simp only [hl]
    · have hcut : (v ++ (slack ++ suf)).drop size = suf := by
        rw [← List.append_assoc]
        exact List.drop_left' (by rw [List.length_append, hslack, hlen])
      simp only [hcut, ← hl, hpos]
  · calc
      i.rest = y :: (g ++ l.rest) := by rw [hy, hg]
      _ = y :: (g ++ (v ++ o.rest ++ l.rest.drop size)) := by rw [← htake, List.take_append_drop]
      _ = _ := by simp only [Parts.bytes, Parts.header, List.append_assoc, List.cons_append]

/-! ## Sections that are cut -/

namespace Parts.Of

variable {c : Parts} {pos n : Nat} {s : Section}

/-- A section that is cut in its size ends too early. -/
theorem cut_header (h : c.Of pos s) (hpos : 0 < n) (hn : n < c.header.length) :
    anySection.Fails p ⟨pos, c.bytes.take n⟩ .outOfBounds := by
  obtain ⟨n, rfl⟩ : ∃ k, n = k + 1 := ⟨n - 1, by omega⟩
  have hlt : n < c.size.length := by
    rw [length_header] at hn
    omega
  have hbytes : c.bytes.take (n + 1) = c.id :: c.size.take n := by
    rw [bytes, List.take_append_of_le_length (Nat.le_of_lt hn)]
    rfl
  obtain ⟨x, hid, _⟩ := h.id p (c.size.take n)
  have hcount := count_take (i := ⟨pos + 1, []⟩) (h.size p []) hlt
  rw [hbytes]
  apply Fails.restoring
  refine (gives_position.mpr ⟨rfl, rfl⟩).fails_bind ?_
  refine (gives_within.mpr hid).fails_bind ?_
  exact (hcount.within _).bind

/-- A section that is cut behind its size is shorter than that. -/
theorem cut_payload (h : c.Of pos s) (hstop : pos + c.bytes.length < lengthBound) (hn : c.header.length ≤ n)
    (hn' : n < c.bytes.length) :
    anySection.Fails p ⟨pos, c.bytes.take n⟩ .malformedBody := by
  have hbytes : c.bytes.take n = c.id :: (c.size ++ (c.taken ++ c.slack).take (n - c.header.length)) := by
    rw [bytes, List.take_append, List.take_of_length_le hn]
    rfl
  generalize hrest : (c.taken ++ c.slack).take (n - c.header.length) = rest at hbytes
  have hshort : rest.length < s.size := by
    rw [← hrest, ← h.size_eq, List.length_take, List.length_append]
    rw [length_bytes, ← length_header] at hn'
    omega
  have hbound : ¬positionBound ≤ pos + 1 + c.size.length + s.size := by
    rw [length_bytes, h.size_eq] at hstop
    unfold lengthBound at hstop
    unfold positionBound
    omega
  have hreaches : (reaches s.size).Gives p ⟨pos + 1 + c.size.length, rest⟩ false ⟨pos + 1 + c.size.length, rest⟩ := by
    rw [gives_reaches]
    refine ⟨decide_eq_false ?_, rfl⟩
    rintro (hle | hle)
    · exact hbound hle
    · simp only at hle
      omega
  obtain ⟨x, hid, _⟩ := h.id p (c.size ++ rest)
  rw [hbytes]
  apply Fails.restoring
  refine (gives_position.mpr ⟨rfl, rfl⟩).fails_bind ?_
  refine (gives_within.mpr hid).fails_bind ?_
  refine (gives_within.mpr (h.size p rest)).fails_bind ?_
  refine hreaches.fails_bind ?_
  exact (fails_ensure (.malformed (.payloadTooLong ⟨x⟩ s.size))).bind

end Parts.Of

end WasmInspect
