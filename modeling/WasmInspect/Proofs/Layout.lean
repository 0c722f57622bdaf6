import WasmInspect.Proofs.Grammar.Failure
import WasmInspect.Proofs.Grammar.Reads
import WasmInspect.Proofs.Locality
import WasmInspect.Proofs.Parts
import WasmInspect.Proofs.Stream
import WasmInspect.SExpr

/-!
# Where the sections of a module stand

The sections of a module that can be read stand one after the other, without a gap, from the header to the last byte. `Module.boundary`
says where each of them starts.

Two things follow. A module that is cut is read only if the cut is at a boundary, and then it has the sections before the cut; every other
cut is an error whose cause says where the cut is. And the bytes between the end of what a payload takes and the end of its section
are not looked at: with any others in their place the same module is read.
-/

namespace WasmInspect

open Reader Grammar

/-! ## Boundaries -/

/-- Where the payload of the section at a position starts: after its id, which is one byte, and its size. -/
def payloadStart (b : Bytes) (pos : Nat) : Nat := (Cursor.readAt count b (pos + 1 : Nat)).pos.toNat

/-- Where the section with the number `j` of a stream starts that itself starts at `pos`; after the last one, where the stream ends. -/
def boundaryFrom (b : Bytes) : (pos : Nat) → List Section → (j : Nat) → Nat
  | pos, _, 0 => pos
  | pos, [], _ + 1 => pos
  | pos, s :: ss, j + 1 => boundaryFrom b (payloadStart b pos + s.size) ss j

/-- Where the section with the number `j` of a module starts that was read from `b`; the first one starts after the eight bytes of the
header. -/
def Module.boundary (m : Module) (b : Bytes) (j : Nat) : Nat := boundaryFrom b 8 m.sections j

/-- A payload does not start before its section. -/
theorem lt_payloadStart (b : Bytes) (pos : Nat) : pos < payloadStart b pos := by
  unfold payloadStart
  cases hr : (count .checked (Cursor.inputAt b (pos + 1 : Nat))).result with
  | error e =>
    have hback := restores_count _ _ _ hr
    simp only [Cursor.readAt, hr]
    omega
  | ok v =>
    obtain ⟨n, j⟩ := v
    have hj := (takes_count.rest_length hr).2
    have hin : (Cursor.inputAt b (pos + 1 : Nat)).pos = pos + 1 := by
      rw [Cursor.inputAt_natCast]
      rfl
    simp only [Cursor.readAt, hr, Int.toNat_natCast]
    omega

section

variable {b : Bytes} {pos j k : Nat} {s : Section} {ss : List Section}

/-- A section ends so many bytes after the start of its payload as its size says, and there the next one starts. -/
theorem boundaryFrom_succ (b : Bytes) (pos : Nat) (h : ss[j]? = some s) :
    boundaryFrom b pos ss (j + 1) = payloadStart b (boundaryFrom b pos ss j) + s.size := by
  induction ss generalizing pos j with
  | nil => simp at h
  | cons t ss ih =>
    cases j with
    | zero =>
      obtain rfl : t = s := by simpa using h
      cases ss <;> rfl
    | succ j => exact ih _ (by simpa using h)

/-- Each boundary is before the next one. -/
theorem boundaryFrom_lt_succ (b : Bytes) (pos : Nat) (h : j < ss.length) :
    boundaryFrom b pos ss j < boundaryFrom b pos ss (j + 1) := by
  rw [boundaryFrom_succ b pos (List.getElem?_eq_getElem h)]
  have := lt_payloadStart b (boundaryFrom b pos ss j)
  omega

theorem boundaryFrom_mono (b : Bytes) (pos : Nat) (hjk : j ≤ k) (hk : k ≤ ss.length) :
    boundaryFrom b pos ss j ≤ boundaryFrom b pos ss k := by
  induction k with
  | zero => rw [Nat.le_zero.mp hjk]
  | succ k ih =>
    rcases Nat.eq_or_lt_of_le hjk with rfl | hlt
    · exact Nat.le_refl _
    · have hstep := boundaryFrom_lt_succ b pos (Nat.lt_of_succ_le hk)
      exact Nat.le_trans (ih (Nat.le_of_lt_succ hlt) (Nat.le_of_succ_le hk)) (Nat.le_of_lt hstep)

theorem le_boundaryFrom (b : Bytes) (pos : Nat) (ss : List Section) (j : Nat) : pos ≤ boundaryFrom b pos ss j := by
  induction ss generalizing pos j with
  | nil => cases j <;> exact Nat.le_refl pos
  | cons s ss ih =>
    cases j with
    | zero => exact Nat.le_refl pos
    | succ j =>
      have hstart := lt_payloadStart b pos
      have := ih (payloadStart b pos + s.size) j
      rw [boundaryFrom]
      omega

theorem boundaryFrom_inj (hj : j ≤ ss.length) (hk : k ≤ ss.length) (h : boundaryFrom b pos ss j = boundaryFrom b pos ss k) :
    j = k := by
  -- of two numbers the smaller one has the smaller boundary
  have hlt : ∀ {j k}, j < k → k ≤ ss.length → boundaryFrom b pos ss j < boundaryFrom b pos ss k := by
    intro j k hjk hk
    exact Nat.lt_of_lt_of_le (boundaryFrom_lt_succ b pos (Nat.lt_of_lt_of_le hjk hk)) (boundaryFrom_mono b pos hjk hk)
  rcases Nat.lt_trichotomy j k with hjk | hjk | hjk
  · exact absurd h (Nat.ne_of_lt (hlt hjk hk))
  · exact hjk
  · exact absurd h.symm (Nat.ne_of_lt (hlt hjk hj))

/-- A place strictly inside of a section is no boundary. -/
theorem ne_boundaryFrom_of_inside {n : Nat} (hj : j < ss.length) (h : boundaryFrom b pos ss j < n)
    (h' : n < boundaryFrom b pos ss (j + 1)) (hk : k ≤ ss.length) : n ≠ boundaryFrom b pos ss k := by
  rintro rfl
  by_cases hkj : k ≤ j
  · have := boundaryFrom_mono b pos hkj (Nat.le_of_lt hj)
    omega
  · have := boundaryFrom_mono b pos (Nat.succ_le_of_lt (Nat.lt_of_not_le hkj)) hk
    simp only [Nat.succ_eq_add_one] at this
    omega

end

/-! ## Streams and their boundaries -/

section

variable {b : Bytes} {pos : Nat} {s : Section} {ss : List Section} {e : Input}

/-- The size of a section is read after its id. -/
theorem Parts.Of.readAt_size {c : Parts} {rest : Bytes} (h : c.Of pos s) (hb : b.drop pos = c.bytes ++ rest) :
    Cursor.readAt count b (pos + 1 : Nat) = ⟨(pos + c.header.length : Nat), .ok s.size⟩ := by
  have hdrop : b.drop (pos + 1) = c.size ++ (c.taken ++ (c.slack ++ rest)) := by
    rw [← List.drop_drop, hb]
    simp only [Parts.bytes, Parts.header, List.append_assoc, List.cons_append, List.drop_succ_cons, List.drop_zero]
  rw [Cursor.readAt_eq_ok_iff, hdrop, c.length_header, ← Nat.add_assoc]
  exact ⟨_, h.size .checked _⟩

/-- The parts of a section say where its payload starts. -/
theorem Parts.Of.payloadStart_eq {c : Parts} {rest : Bytes} (h : c.Of pos s) (hb : b.drop pos = c.bytes ++ rest) :
    payloadStart b pos = pos + c.header.length := by
  rw [payloadStart, h.readAt_size hb]
  exact Int.toNat_natCast _

/-- The first section of a stream has parts, which end where the rest of the stream starts. -/
theorem parts_of_sections (h : sections.Gives .checked ⟨pos, b.drop pos⟩ (s :: ss) e) :
    ∃ c : Parts, c.Of pos s ∧ b.drop pos = c.bytes ++ b.drop (payloadStart b pos + s.size) ∧
      payloadStart b pos = pos + c.header.length ∧ payloadStart b pos + s.size = pos + c.bytes.length ∧
      sections.Gives .checked ⟨payloadStart b pos + s.size, b.drop (payloadStart b pos + s.size)⟩ ss e := by
  rcases gives_sections.mp h with ⟨_, hss, _⟩ | ⟨_, _, k, _, hss, hs, hrest⟩
  · cases hss
  · obtain ⟨rfl, rfl⟩ := List.cons.inj hss
    obtain ⟨c, hc, hb, hk⟩ := exists_parts hs
    simp only at hb hk hc
    have hstart := hc.payloadStart_eq hb
    have hend : payloadStart b pos + s.size = pos + c.bytes.length := by
      rw [hstart, c.length_header, c.length_bytes, hc.size_eq, Nat.add_assoc]
    have hdrop : b.drop (pos + c.bytes.length) = k.rest := by
      rw [← List.drop_drop, hb, List.drop_left]
    refine ⟨c, hc, ?_, hstart, hend, ?_⟩
    · rw [hend, hdrop, hb]
    · rw [hend, hdrop, ← hk]
      exact hrest

/-- The sections of a stream stand one after the other up to its end. -/
theorem boundaryFrom_length (h : sections.Gives .checked ⟨pos, b.drop pos⟩ ss e) (hpos : pos ≤ b.length) :
    boundaryFrom b pos ss ss.length = b.length := by
  induction ss generalizing pos with
  | nil =>
    rcases gives_sections.mp h with ⟨hnil, _, _⟩ | ⟨_, _, _, _, hss, _⟩
    · exact Nat.le_antisymm hpos (List.drop_eq_nil_iff.mp hnil)
    · cases hss
  | cons s ss ih =>
    obtain ⟨c, _, hb, _, hend, hrest⟩ := parts_of_sections h
    refine ih hrest ?_
    have hlen := congrArg List.length hb
    rw [List.length_append, List.length_drop, List.length_drop] at hlen
    have := c.length_bytes
    omega

/-- Each section of a stream has parts, at its boundary. -/
theorem parts_at (h : sections.Gives .checked ⟨pos, b.drop pos⟩ ss e) {j : Nat} (hj : ss[j]? = some s) :
    ∃ c : Parts, c.Of (boundaryFrom b pos ss j) s ∧
      b.drop (boundaryFrom b pos ss j) = c.bytes ++ b.drop (boundaryFrom b pos ss (j + 1)) := by
  induction ss generalizing pos j with
  | nil => simp at hj
  | cons t ss ih =>
    obtain ⟨c, hc, hb, _, _, hrest⟩ := parts_of_sections h
    cases j with
    | zero =>
      obtain rfl : t = s := by simpa using hj
      refine ⟨c, hc, ?_⟩
      rw [boundaryFrom_succ b pos hj]
      exact hb
    | succ j => exact ih hrest (by simpa using hj)

/-- What is read at the boundary of a section: the section, and its size after the id. -/
theorem readAt_boundaryFrom (h : sections.Gives .checked ⟨pos, b.drop pos⟩ ss e) {j : Nat} (hj : ss[j]? = some s) :
    Cursor.readAt anySection b (boundaryFrom b pos ss j) = ⟨boundaryFrom b pos ss (j + 1), .ok s⟩ ∧
      Cursor.readAt count b (boundaryFrom b pos ss j + 1 : Nat) = ⟨payloadStart b (boundaryFrom b pos ss j), .ok s.size⟩ ∧
      1 ≤ s.consumed ∧ s.consumed ≤ s.size ∧ (¬s.id.isKnown = true → s.consumed = s.size) := by
  obtain ⟨c, hc, hb⟩ := parts_at h hj
  have hstart := hc.payloadStart_eq hb
  have hsize := hc.size_eq
  have hconsumed := hc.consumed
  refine ⟨?_, ?_, ?_, ?_, ?_⟩
  · rw [Cursor.readAt_eq_ok_iff, boundaryFrom_succ b pos hj, hstart, hb, ← hsize, Nat.add_assoc, c.length_header, ← c.length_bytes]
    refine ⟨b.drop (boundaryFrom b pos ss (j + 1)), ?_⟩
    have hgives := hc.gives .checked c.slack (b.drop (boundaryFrom b pos ss (j + 1))) rfl
    rwa [← List.append_assoc c.taken, ← List.append_assoc, ← Parts.bytes] at hgives
  · rw [hstart]
    exact hc.readAt_size hb
  · have := hc.consumed_pos
    omega
  · omega
  · intro hcustom
    rw [hc.custom hcustom, List.length_nil] at hsize
    omega

end

/-! ## Streams that are cut -/

/-- A stream fails where its first section does. -/
theorem sections_fails_of_first {p : CountPolicy} {i : Input} {c : Cause} (hne : i.rest ≠ []) (h : anySection.Fails p i c) :
    sections.Fails p i c :=
  h.located.bind.congr (sections_cons hne)

/-- A stream fails where its rest does after the first section. -/
theorem sections_fails_of_rest {p : CountPolicy} {i k : Input} {s : Section} {c : Cause} (hs : anySection.Gives p i s k)
    (h : sections.Fails p k c) : sections.Fails p i c := by
  have hne : i.rest ≠ [] := by
    intro hnil
    have := takes_anySection.rest_length hs
    rw [hnil, List.length_nil] at this
    omega
  exact ((gives_located.mpr hs).fails_bind h.bind).congr (sections_cons hne)

/-- A cut at `n` is strictly inside of a section that starts at `start` and has its payload at `payload`, and `cause` is the cause of what is
read then: the end of the input if the cut is in the header of the section, and a size that is too large if it is in the payload. -/
def CutInside (n start payload stop : Nat) (cause : Cause) : Prop :=
  start < n ∧ n < payload ∧ cause = .outOfBounds ∨ payload ≤ n ∧ n < stop ∧ cause = .malformedBody

/-- A stream that is cut at `n` gives the sections up to there if the cut is at a boundary, and else an error. -/
theorem sections_take {b : Bytes} {pos n : Nat} {ss : List Section} {e : Input} (hlen : b.length < lengthBound)
    (h : sections.Gives .checked ⟨pos, b.drop pos⟩ ss e) (hpos : pos ≤ n) (hn : n ≤ b.length) :
    (∃ j ≤ ss.length, n = boundaryFrom b pos ss j ∧ ∃ e', sections.Gives .checked ⟨pos, (b.take n).drop pos⟩ (ss.take j) e') ∨
    ∃ j < ss.length, ∃ x, sections.Fails .checked ⟨pos, (b.take n).drop pos⟩ x ∧
      CutInside n (boundaryFrom b pos ss j) (payloadStart b (boundaryFrom b pos ss j)) (boundaryFrom b pos ss (j + 1)) x := by
  induction ss generalizing pos with
  | nil =>
    left
    have hend := boundaryFrom_length h (Nat.le_trans hpos hn)
    refine ⟨0, Nat.le_refl 0, ?_, ⟨pos, []⟩, ?_⟩
    · exact Nat.le_antisymm (hend ▸ hn) hpos
    · have hnil : (b.take n).drop pos = [] := by
        rw [List.drop_eq_nil_iff, List.length_take, show b.length = pos from hend.symm]
        exact Nat.min_le_right n pos
      rw [hnil]
      rfl
  | cons s ss ih =>
    obtain ⟨c, hc, hb, hstart, hend, hrest⟩ := parts_of_sections h
    have hcut : (b.take n).drop pos = (c.bytes ++ b.drop (payloadStart b pos + s.size)).take (n - pos) := by
      rw [List.drop_take, hb]
    have hfit : pos + c.bytes.length ≤ b.length := by
      have := congrArg List.length hb
      rw [List.length_append, List.length_drop, List.length_drop] at this
      omega
    by_cases hfirst : n = pos
    · -- the cut is before the section
      left
      refine ⟨0, Nat.zero_le _, hfirst, ⟨pos, []⟩, ?_⟩
      rw [hcut, hfirst, Nat.sub_self]
      rfl
    by_cases hinside : n < payloadStart b pos + s.size
    · -- the cut is in the section
      right
      rw [List.take_append_of_le_length (by omega)] at hcut
      have hne : (b.take n).drop pos ≠ [] := by
        rw [← List.length_pos_iff, hcut, List.length_take]
        omega
      refine ⟨0, Nat.succ_pos _, ?_⟩
      rw [boundaryFrom_succ (s := s) b pos rfl]
      show ∃ x, _ ∧ CutInside n pos (payloadStart b pos) _ x
      by_cases hheader : n < payloadStart b pos
      · have hx := hc.cut_header (p := .checked) (n := n - pos) (by omega) (by omega)
        rw [← hcut] at hx
        exact ⟨_, sections_fails_of_first hne hx, Or.inl ⟨by omega, hheader, rfl⟩⟩
      · have hx := hc.cut_payload (p := .checked) (n := n - pos) (by omega) (by omega) (by omega)
        rw [← hcut] at hx
        exact ⟨_, sections_fails_of_first hne hx, Or.inr ⟨by omega, hinside, rfl⟩⟩
    · -- the cut is after the section, which is read before the rest is
      have hsplit : (b.take n).drop pos = c.bytes ++ (b.take n).drop (payloadStart b pos + s.size) := by
        rw [hcut, List.take_append, List.take_of_length_le (by omega), List.drop_take, hend, Nat.sub_sub]
      have hs : anySection.Gives .checked ⟨pos, (b.take n).drop pos⟩ s
          ⟨payloadStart b pos + s.size, (b.take n).drop (payloadStart b pos + s.size)⟩ := by
        have hgives := hc.gives .checked c.slack ((b.take n).drop (payloadStart b pos + s.size)) rfl
        rwa [← List.append_assoc c.taken, ← List.append_assoc, ← Parts.bytes, ← hsplit, ← hend] at hgives
      rcases ih hrest (by omega) with ⟨j, hj, hboundary, e', hgives⟩ | ⟨j, hj, x, hx, hinside⟩
      · left
        refine ⟨j + 1, Nat.succ_le_succ hj, hboundary, e', gives_sections.mpr (Or.inr ⟨s, ss.take j, _, ?_, rfl, hs, hgives⟩)⟩
        rw [← List.length_pos_iff, hsplit, List.length_append, c.length_bytes]
        have := hc.consumed_pos
        omega
      · right
        exact ⟨j + 1, Nat.succ_lt_succ hj, x, sections_fails_of_rest hs hx, hinside⟩

/-! ## Headers -/

/-- The bytes of a word are those that are written for it. -/
theorem Encode.littleEndian_of_bytes (w : Bytes) : Encode.littleEndian w.length w.littleEndian = w := by
  induction w with
  | nil => rfl
  | cons x w ih =>
    have hx := x.toNat_lt
    have hlow : (x.toNat + 256 * Bytes.littleEndian w) % 256 = x.toNat := by omega
    have hhigh : (x.toNat + 256 * Bytes.littleEndian w) / 256 = Bytes.littleEndian w := by omega
    rw [List.length_cons, Bytes.littleEndian, Encode.littleEndian, hlow, hhigh, ih, UInt8.ofNat_toNat]

theorem littleEndian_lt (w : Bytes) : w.littleEndian < 256 ^ w.length := by
  induction w with
  | nil => exact Nat.one_pos
  | cons x w ih =>
    have hx := x.toNat_lt
    rw [Bytes.littleEndian, List.length_cons, Nat.pow_succ]
    omega

namespace Grammar

variable {p : CountPolicy} {i j : Input}

/-- A word of 32 bits is read from the bytes that are written for it and from no others. -/
theorem rest_of_gives_uint32 {v : UInt32} (h : uint32.Gives p i v j) :
    i.rest = Encode.littleEndian 4 v.toNat ++ j.rest ∧ j.pos = i.pos + 4 := by
  simp only [uint32, word, gives_bind, gives_bytes, gives_pure] at h
  obtain ⟨_, _, ⟨w, _, ⟨_, hw, hrest, hpos⟩, rfl, rfl⟩, rfl, rfl⟩ := h
  refine ⟨?_, hpos⟩
  have hlt := littleEndian_lt w
  rw [hw] at hlt
  have hv : (UInt32.ofNat w.littleEndian).toNat = w.littleEndian := UInt32.toNat_ofNat_of_lt' hlt
  have hbytes := Encode.littleEndian_of_bytes w
  rw [hw] at hbytes
  rw [hrest, hv, hbytes]

/-- Where there are less than four bytes there is no word of 32 bits. -/
theorem uint32_short {pos : Nat} {b : Bytes} (hpos : pos + 4 < positionBound) (h : b.length < 4) :
    uint32.Fails p ⟨pos, b⟩ .outOfBounds := by
  have hreaches : (reaches 4).Gives p ⟨pos, b⟩ false ⟨pos, b⟩ := by
    rw [gives_reaches]
    exact ⟨decide_eq_false (by simp only; omega), rfl⟩
  have hbytes : (bytes 4).Fails p ⟨pos, b⟩ .outOfBounds := hreaches.fails_bind (fails_ensure (.ofCause .outOfBounds)).bind
  exact hbytes.bind.bind

end Grammar

/-- What is read starts with the header. -/
theorem header_of_decode {b : Bytes} {m : Module} (h : (decode b).result = .ok m) : ∃ s, b = Module.header ++ s := by
  obtain ⟨j, hm⟩ := value_eq_ok.mp (show (module .checked ⟨0, b⟩).value = .ok m from h)
  simp only [module, gives_bind, gives_located, gives_orElseFail, gives_within, gives_ensure, gives_pure] at hm
  obtain ⟨magic, k, hmagic, _, _, ⟨heq, rfl⟩, version, l, hversion, _, _, ⟨heq', rfl⟩, _⟩ := hm
  obtain rfl := of_decide_eq_true heq
  obtain rfl := of_decide_eq_true heq'
  refine ⟨l.rest, ?_⟩
  have hfirst : b = _ := (rest_of_gives_uint32 hmagic).1
  rw [hfirst, (rest_of_gives_uint32 hversion).1, ← List.append_assoc]
  rfl

/-- A failure of the reader of modules is one of reading. -/
theorem decode_of_fails {b : Bytes} {c : Cause} (h : module.Fails .checked ⟨0, b⟩ c) :
    ∃ e, (decode b).result = .error (.error e) ∧ e.cause = c := by
  obtain ⟨e, pos, he, hc⟩ := h
  refine ⟨e, ?_, hc⟩
  show (module .checked ⟨0, b⟩).value = .error (.error e)
  rw [Outcome.value, he]
  rfl

/-- A module that is cut in its first word is not told from bytes that are none. -/
theorem decode_cut_magic {b : Bytes} (h : b.length < 4) : ∃ e, (decode b).result = .error (.error e) ∧ e.cause = .badMagic := by
  have hword : uint32.Fails .checked ⟨0, b⟩ .outOfBounds := uint32_short (by decide) h
  exact decode_of_fails (hword.orElseFail (.ofCause .badMagic)).located.bind

/-- A module that is cut in its second word ends too early. -/
theorem decode_cut_version {b : Bytes} (h : b.length < 4) :
    ∃ e, (decode (Encode.littleEndian 4 Module.magicWord.toNat ++ b)).result = .error (.error e) ∧ e.cause = .outOfBounds := by
  have hmagic : uint32.Gives .checked ⟨0, Encode.littleEndian 4 Module.magicWord.toNat ++ b⟩ Module.magicWord ⟨4, b⟩ :=
    reads_uint32 Module.magicWord (by decide) .checked 0 b (by decide)
  have hword : uint32.Fails .checked ⟨4, b⟩ .outOfBounds := uint32_short (by decide) h
  refine decode_of_fails ?_
  refine (gives_located.mpr (gives_orElseFail.mpr hmagic)).fails_bind ?_
  refine (gives_located.mpr ((gives_ensure (u := ())).mpr ⟨by decide, rfl⟩)).fails_bind ?_
  exact (hword.within _).located.bind

/-- A stream that fails after the header is a module that fails. -/
theorem decode_header_of_fails {s : Bytes} {c : Cause} (h : sections.Fails .checked ⟨8, s⟩ c) :
    ∃ e, (decode (Module.header ++ s)).result = .error (.error e) ∧ e.cause = c := by
  obtain ⟨e, pos, he, hc⟩ := h
  refine ⟨e, ?_, hc⟩
  rw [decode_header, Outcome.value, he]
  rfl

/-- A module that is cut in its header is not read. -/
theorem decode_cut_header {s : Bytes} {n : Nat} (hn : n < 8) :
    ∃ e, (decode ((Module.header ++ s).take n)).result = .error (.error e) ∧
      (n < 4 ∧ e.cause = .badMagic ∨ 4 ≤ n ∧ n < 8 ∧ e.cause = .outOfBounds) := by
  by_cases h4 : n < 4
  · have hshort : ((Module.header ++ s).take n).length < 4 := by
      rw [List.length_take]
      omega
    obtain ⟨e, he, hcause⟩ := decode_cut_magic hshort
    exact ⟨e, he, Or.inl ⟨h4, hcause⟩⟩
  · have htake : (Module.header ++ s).take n =
        Encode.littleEndian 4 Module.magicWord.toNat ++ (Encode.littleEndian 4 Module.supportedVersion.toNat ++ s).take (n - 4) := by
      rw [Module.header, Encode.header, List.append_assoc, List.take_append, Encode.length_littleEndian,
        List.take_of_length_le (by rw [Encode.length_littleEndian]; omega)]
    have hshort : ((Encode.littleEndian 4 Module.supportedVersion.toNat ++ s).take (n - 4)).length < 4 := by
      rw [List.length_take]
      omega
    obtain ⟨e, he, hcause⟩ := decode_cut_version hshort
    rw [htake]
    exact ⟨e, he, Or.inr ⟨by omega, hn, hcause⟩⟩

/-! ## Modules -/

section

variable {b : Bytes} {m : Module}

/-- What is read is the header and a stream of sections from there on. -/
theorem sections_of_decode (h : (decode b).result = .ok m) :
    b = Module.header ++ b.drop 8 ∧ m = Module.ofSections m.sections ∧
      ∃ e, sections.Gives .checked ⟨8, b.drop 8⟩ m.sections e := by
  obtain ⟨s, rfl⟩ := header_of_decode h
  obtain ⟨e, hss, hm⟩ := decode_header_eq_ok.mp h
  have hdrop : (Module.header ++ s).drop 8 = s := List.drop_left' length_header
  rw [hdrop]
  exact ⟨rfl, hm, e, hss⟩

/-- What is read of a module that is cut at `n`. -/
theorem decode_take (hlen : b.length < lengthBound) (h : (decode b).result = .ok m) {n : Nat} (hn : n < b.length) :
    (∃ j ≤ m.sections.length, n = m.boundary b j ∧ (decode (b.take n)).result = .ok (Module.ofSections (m.sections.take j))) ∨
    (∀ j ≤ m.sections.length, n ≠ m.boundary b j) ∧ ∃ e, (decode (b.take n)).result = .error (.error e) ∧
      (n < 4 ∧ e.cause = .badMagic ∨ 4 ≤ n ∧ n < 8 ∧ e.cause = .outOfBounds ∨
        ∃ j < m.sections.length,
          CutInside n (m.boundary b j) (payloadStart b (m.boundary b j)) (m.boundary b (j + 1)) e.cause) := by
  obtain ⟨hb, _, e, hss⟩ := sections_of_decode h
  by_cases hn8 : n < 8
  · right
    refine ⟨fun j _ heq => ?_, ?_⟩
    · have hle : 8 ≤ m.boundary b j := le_boundaryFrom b 8 m.sections j
      omega
    · obtain ⟨x, hx, hcause⟩ := decode_cut_header (s := b.drop 8) hn8
      rw [← hb] at hx
      exact ⟨x, hx, hcause.imp_right Or.inl⟩
  · have hcut : b.take n = Module.header ++ (b.take n).drop 8 := by
      have hheader : (b.take n).take 8 = Module.header := by
        rw [List.take_take, Nat.min_eq_left (by omega), hb]
        exact List.take_left' length_header
      rw [← hheader, List.take_append_drop]
    rcases sections_take hlen hss (n := n) (by omega) (by omega) with ⟨j, hj, heq, e', hgives⟩ | ⟨j, hj, x, hx, hinside⟩
    · left
      refine ⟨j, hj, heq, ?_⟩
      rw [hcut, decode_header_eq_ok]
      exact ⟨e', hgives, rfl⟩
    · right
      obtain ⟨y, hy, hcause⟩ := decode_header_of_fails hx
      rw [← hcut] at hy
      rw [← hcause] at hinside
      refine ⟨fun k hk => ?_, y, hy, Or.inr (Or.inr ⟨j, hj, hinside⟩)⟩
      have hstart := lt_payloadStart b (boundaryFrom b 8 m.sections j)
      have hsize := boundaryFrom_succ b 8 (List.getElem?_eq_getElem hj)
      have hbetween : boundaryFrom b 8 m.sections j < n ∧ n < boundaryFrom b 8 m.sections (j + 1) := by
        rcases hinside with ⟨h1, h2, _⟩ | ⟨h1, h2, _⟩
        · omega
        · omega
      exact ne_boundaryFrom_of_inside hj hbetween.1 hbetween.2 hk

/-- The sections of a module tile its bytes, from the header to the end, and a module that is cut is never misread. Each section is
read at its boundary and ends where the next one starts; what its payload takes is not empty and not more than its size, and all of it in a custom
section. Cut at `n`, the module is read exactly if `n` is a boundary, with the sections before it. Any other cut is an error: in the
first word one of the magic word, in the second word and between the id of a section and the end of its size one of the bounds, and in a
payload one of its size. -/
theorem decode_tiles (hlen : b.length < lengthBound) (h : (decode b).result = .ok m) :
    m.boundary b 0 = 8 ∧ m.boundary b m.sections.length = b.length ∧
    (∀ j s, m.sections[j]? = some s →
      m.boundary b j < m.boundary b (j + 1) ∧
      Cursor.readAt anySection b (m.boundary b j) = ⟨m.boundary b (j + 1), .ok s⟩ ∧
      Cursor.readAt count b (m.boundary b j + 1 : Nat) = ⟨payloadStart b (m.boundary b j), .ok s.size⟩ ∧
      m.boundary b (j + 1) = payloadStart b (m.boundary b j) + s.size ∧
      1 ≤ s.consumed ∧ s.consumed ≤ s.size ∧ (¬s.id.isKnown = true → s.consumed = s.size)) ∧
    ∀ n < b.length,
      (∀ m', (decode (b.take n)).result = .ok m' ↔
        ∃ j ≤ m.sections.length, n = m.boundary b j ∧ m' = Module.ofSections (m.sections.take j)) ∧
      ((∀ j ≤ m.sections.length, n ≠ m.boundary b j) → ∃ e, (decode (b.take n)).result = .error (.error e) ∧
        (n < 4 ∧ e.cause = .badMagic ∨ 4 ≤ n ∧ n < 8 ∧ e.cause = .outOfBounds ∨
          ∃ j < m.sections.length,
            CutInside n (m.boundary b j) (payloadStart b (m.boundary b j)) (m.boundary b (j + 1)) e.cause)) := by
  obtain ⟨hb, _, e, hss⟩ := sections_of_decode h
  have hlen8 : 8 ≤ b.length := by
    have := congrArg List.length hb
    rw [List.length_append, length_header] at this
    omega
  refine ⟨rfl, boundaryFrom_length hss hlen8, ?_, ?_⟩
  · intro j s hj
    obtain ⟨hread, hcount, hbounds⟩ := readAt_boundaryFrom hss hj
    obtain ⟨hlt, _⟩ := List.getElem?_eq_some_iff.mp hj
    exact ⟨boundaryFrom_lt_succ b 8 hlt, hread, hcount, boundaryFrom_succ b 8 hj, hbounds⟩
  · intro n hn
    rcases decode_take hlen h hn with ⟨j, hj, heq, hok⟩ | ⟨hne, x, hx, hcause⟩
    · refine ⟨fun m' => ?_, fun hne => absurd heq (hne j hj)⟩
      rw [hok, Except.ok.injEq]
      constructor
      · rintro rfl
        exact ⟨j, hj, heq, rfl⟩
      · rintro ⟨k, hk, heq', rfl⟩
        rw [boundaryFrom_inj hj hk (heq.symm.trans heq')]
    · refine ⟨fun m' => ?_, fun _ => ⟨x, hx, hcause⟩⟩
      rw [hx]
      constructor
      · intro hok
        cases hok
      · rintro ⟨j, hj, heq, _⟩
        exact absurd heq (hne j hj)

end

/-- A start section with a needless group in its size and a byte that nothing reads, and a custom section. A cut in the size of the first one
is an error of the bounds. -/
theorem decode_tiles_padded_size :
    let b := Module.header ++ [8, 0x82, 0, 3, 0xff, 0, 2, 1, 0x61]
    let m := Module.ofSections [⟨.start, 2, 1, .start 3⟩, ⟨⟨0⟩, 2, 2, .custom "a" []⟩]
    (decode b).result = .ok m ∧ [m.boundary b 0, m.boundary b 1, m.boundary b 2] = [8, 13, b.length] ∧
      Cursor.readAt anySection b (m.boundary b 1) = ⟨m.boundary b 2, .ok ⟨⟨0⟩, 2, 2, .custom "a" []⟩⟩ ∧
      (decode (b.take 13)).result = .ok (Module.ofSections [⟨.start, 2, 1, .start 3⟩]) ∧
      ∃ e, (decode (b.take 10)).result = .error (.error e) ∧ e.cause = .outOfBounds := by
  intro b m
  have hm : (decode b).result = .ok m := rfl
  obtain ⟨_, _, hsections, hcuts⟩ := decode_tiles (b := b) (m := m) (by decide) hm
  refine ⟨hm, rfl, (hsections 1 _ rfl).2.1, ((hcuts 13 (by decide)).1 _).mpr ⟨1, by decide, rfl, rfl⟩, ?_⟩
  obtain ⟨e, he, hcause⟩ := (hcuts 10 (by decide)).2 (by decide)
  refine ⟨e, he, ?_⟩
  rcases hcause with ⟨hn, _⟩ | ⟨_, hn, _⟩ | ⟨j, hj, ⟨_, _, hcause⟩ | ⟨hstart, hend, _⟩⟩
  · exact absurd hn (by decide)
  · exact absurd hn (by decide)
  · exact hcause
  · -- the payloads start at the positions 11 and 15
    have hpayloads : ∀ j < 2, ¬payloadStart b (m.boundary b j) ≤ 10 := by decide
    exact absurd hstart (hpayloads j hj)

/-! ## Slack -/

/-- A position is in the slack of a section of a stream: after what its payload takes and before its end. -/
def InSlack (b : Bytes) (pos : Nat) (ss : List Section) (n : Nat) : Prop :=
  ∃ j s, ss[j]? = some s ∧ payloadStart b (boundaryFrom b pos ss j) + s.consumed ≤ n ∧
    n < payloadStart b (boundaryFrom b pos ss j) + s.size

section

variable {b b' : Bytes} {pos n : Nat} {s : Section} {ss : List Section} {e : Input}

/-- In the bytes of the first section, only its own slack is slack. -/
theorem not_inSlack_of_lt (hn : n < payloadStart b pos + s.consumed) (hend : n < payloadStart b pos + s.size) :
    ¬InSlack b pos (s :: ss) n := by
  rintro ⟨j, t, hj, hle, _⟩
  cases j with
  | zero =>
    obtain rfl : s = t := by simpa using hj
    exact absurd hle (Nat.not_le_of_lt hn)
  | succ j =>
    have hboundary := le_boundaryFrom b (payloadStart b pos + s.size) ss j
    have hstart := lt_payloadStart b (boundaryFrom b (payloadStart b pos + s.size) ss j)
    rw [boundaryFrom] at hle
    omega

/-- After the first section the slack is that of the others. -/
theorem InSlack.tail (h : InSlack b pos (s :: ss) n) (hn : payloadStart b pos + s.size ≤ n) :
    InSlack b (payloadStart b pos + s.size) ss n := by
  obtain ⟨j, t, hj, hle, hlt⟩ := h
  cases j with
  | zero =>
    obtain rfl : s = t := by simpa using hj
    exact absurd hn (Nat.not_le_of_lt hlt)
  | succ j => exact ⟨j, t, by simpa using hj, hle, hlt⟩

/-- Strings that agree on the first `k` bytes from a position on have these bytes in common. -/
theorem take_drop_eq_of_agree (pos k : Nat) (h : ∀ n, pos ≤ n → n < pos + k → b'[n]? = b[n]?) :
    (b'.drop pos).take k = (b.drop pos).take k := by
  apply List.ext_getElem?
  intro n
  by_cases hn : n < k
  · rw [List.getElem?_take_of_lt hn, List.getElem?_take_of_lt hn, List.getElem?_drop, List.getElem?_drop]
    exact h (pos + n) (Nat.le_add_right _ _) (Nat.add_lt_add_left hn _)
  · rw [List.getElem?_take_eq_none (Nat.le_of_not_lt hn), List.getElem?_take_eq_none (Nat.le_of_not_lt hn)]

/-- Bytes that differ from those of a stream in its slack alone are read as the same sections. -/
theorem sections_of_slack (h : sections.Gives .checked ⟨pos, b.drop pos⟩ ss e) (hlen : b'.length = b.length)
    (hagree : ∀ n, pos ≤ n → b'[n]? ≠ b[n]? → InSlack b pos ss n) : sections.Gives .checked ⟨pos, b'.drop pos⟩ ss e := by
  induction ss generalizing pos with
  | nil =>
    rcases gives_sections.mp h with ⟨hnil, _, rfl⟩ | ⟨_, _, _, _, hss, _⟩
    · have hnil' : b'.drop pos = [] := by
        rw [List.drop_eq_nil_iff, hlen]
        exact List.drop_eq_nil_iff.mp hnil
      simp only at hnil
      rw [hnil', hnil]
      rfl
    · cases hss
  | cons s ss ih =>
    obtain ⟨c, hc, hb, hstart, hend, hrest⟩ := parts_of_sections h
    have htaken := hc.consumed
    have hsize := hc.size_eq
    -- up to the slack of the first section the bytes are the same
    have hread : (b'.drop pos).take (c.header ++ c.taken).length = c.header ++ c.taken := by
      have hhere : (b.drop pos).take (c.header ++ c.taken).length = c.header ++ c.taken := by
        rw [hb, Parts.bytes, ← List.append_assoc c.header, List.append_assoc (c.header ++ c.taken)]
        exact List.take_left
      refine Eq.trans (take_drop_eq_of_agree pos _ fun n hn hn' => ?_) hhere
      rw [List.length_append] at hn'
      by_contra hne
      exact not_inSlack_of_lt (by omega) (by omega) (hagree n hn hne)
    -- and behind it there are as many bytes
    have hsplit : b'.drop pos = c.header ++ (c.taken ++ ((b'.drop (pos + (c.header ++ c.taken).length)).take c.slack.length ++
        b'.drop (payloadStart b pos + s.size))) := by
      have hlast : b'.drop (payloadStart b pos + s.size) = (b'.drop (pos + (c.header ++ c.taken).length)).drop c.slack.length := by
        rw [List.drop_drop, hend, c.length_bytes, List.length_append, c.length_header]
        congr 1
        omega
      rw [hlast, List.take_append_drop, ← List.append_assoc]
      nth_rewrite 1 [← hread]
      rw [← List.drop_drop, List.take_append_drop]
    have hslack : ((b'.drop (pos + (c.header ++ c.taken).length)).take c.slack.length).length = c.slack.length := by
      have hfit := congrArg List.length hb
      rw [List.length_append, List.length_drop, List.length_drop, hend, c.length_bytes] at hfit
      rw [List.length_take, List.length_drop, hlen, List.length_append, c.length_header]
      omega
    have hs := hc.gives .checked _ (b'.drop (payloadStart b pos + s.size)) hslack
    rw [← hsplit, ← hend] at hs
    refine gives_sections.mpr (Or.inr ⟨s, ss, _, ?_, rfl, hs, ih hrest fun n hn hne => ?_⟩)
    · rw [hsplit]
      simp [Parts.header]
    · refine InSlack.tail (hagree n ?_ hne) hn
      have := lt_payloadStart b pos
      omega

end

/-- Slack is invisible. Bytes that differ from those of a module in the slack of its sections alone are read as the same module, so the two
models of it and their texts are the same too, and so is what is written for the bytes as a whole. -/
theorem decode_of_slack (b b' : Bytes) (m : Module) (h : (decode b).result = .ok m) (hlen : b'.length = b.length)
    (hagree : ∀ n, b'[n]? ≠ b[n]? → ∃ j s, m.sections[j]? = some s ∧
      payloadStart b (m.boundary b j) + s.consumed ≤ n ∧ n < payloadStart b (m.boundary b j) + s.size) :
    (decode b').result = (decode b).result ∧ disassemble b' = disassemble b ∧
    ∀ m', (decode b').result = .ok m' → m'.sections = m.sections ∧
      Model.positional m' = Model.positional m ∧ Model.indexed m' = Model.indexed m ∧
      ∀ view ∈ [Model.positional, Model.indexed], ∀ highlight buffer,
        (view m').map (SExpr.append highlight buffer) = (view m).map (SExpr.append highlight buffer) := by
  obtain ⟨hb, hm, e, hss⟩ := sections_of_decode h
  have hslack : ∀ n, b'[n]? ≠ b[n]? → InSlack b 8 m.sections n := hagree
  have hheader : b'.take 8 = Module.header := by
    have hhere : b.take 8 = Module.header := by
      rw [hb]
      exact List.take_left' length_header
    rw [← hhere]
    refine take_drop_eq_of_agree 0 8 fun n _ hn => ?_
    by_contra hne
    obtain ⟨j, s, _, hle, _⟩ := hslack n hne
    have hboundary := le_boundaryFrom b 8 m.sections j
    have hstart := lt_payloadStart b (boundaryFrom b 8 m.sections j)
    omega
  have hb' : b' = Module.header ++ b'.drop 8 := by
    rw [← hheader, List.take_append_drop]
  have hsame : (decode b').result = .ok m := by
    rw [hb', decode_header_eq_ok]
    exact ⟨e, sections_of_slack hss hlen fun n _ => hslack n, hm⟩
  have hresult := hsame.trans h.symm
  refine ⟨hresult, ?_, fun m' hm' => ?_⟩
  · rw [disassemble, hresult, disassemble]
  obtain rfl : m = m' := Except.ok.inj (hsame.symm.trans hm')
  exact ⟨rfl, rfl, rfl, fun _ _ _ _ => rfl⟩

/-- Two bytes after the index of a start function are replaced. -/
theorem decode_of_slack_start_section :
    let b := Module.header ++ [8, 3, 0, 0xff, 0xff, 8, 1, 1]
    let b' := Module.header ++ [8, 3, 0, 0x80, 0x0b, 8, 1, 1]
    (decode b).result = .ok (Module.ofSections [⟨.start, 3, 1, .start 0⟩, ⟨.start, 1, 1, .start 1⟩]) ∧
      (decode b').result = (decode b).result := by
  intro b b'
  have hm : (decode b).result = .ok (Module.ofSections [⟨.start, 3, 1, .start 0⟩, ⟨.start, 1, 1, .start 1⟩]) := rfl
  refine ⟨hm, (decode_of_slack b b' _ hm rfl fun n hne => ?_).1⟩
  refine ⟨0, ⟨.start, 3, 1, .start 0⟩, rfl, ?_⟩
  -- the payload starts at position 10, and the strings differ at 11 and 12
  show 11 ≤ n ∧ n < 13
  have hcheck : ∀ n < 16, n < 11 ∨ 13 ≤ n → b'[n]? = b[n]? := by decide
  by_contra hout
  refine hne ?_
  by_cases hn : n < 16
  · exact hcheck n hn (by omega)
  · rw [List.getElem?_eq_none (show b'.length ≤ n from Nat.le_of_not_lt hn),
      List.getElem?_eq_none (show b.length ≤ n from Nat.le_of_not_lt hn)]

end WasmInspect
