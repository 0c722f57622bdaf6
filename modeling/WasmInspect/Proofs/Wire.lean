import Mathlib.Algebra.GroupWithZero.Nat
import Mathlib.Data.List.Basic
import WasmInspect.Proofs.Text
import WasmInspect.Proofs.Utf8
import WasmInspect.Wire.Read

/-!
# The wire form read back

Every item that is written is read back from its bytes, wherever these stand and whatever comes after them: a head is read back for every number of
64 bits, in each of the widths that it may have, and the kinds of items follow one by one.
-/

namespace WasmInspect.Wire

/-! ## Heads -/

section

variable {n : Nat} {rest : Bytes}

/-- Bytes are split where they were put together. -/
theorem split?_append (w rest : Bytes) : split? w.length (w ++ rest) = some (w, rest) := by
  have hroom : (w ++ rest).hasAtLeast w.length = true := by
    rw [Bytes.hasAtLeast_iff, List.length_append]
    exact Nat.le_add_right _ _
  rw [split?, if_pos hroom, List.take_left, List.drop_left]

theorem length_bigEndian (width n : Nat) : (bigEndian width n).length = width := by
  induction width generalizing n with
  | zero => rfl
  | succ width ih => rw [bigEndian, List.length_append, ih, List.length_singleton]

/-- The bytes of a number stand for it, if there are enough of them. -/
theorem ofBigEndian_bigEndian {width : Nat} (h : n < 256 ^ width) : ofBigEndian (bigEndian width n) = n := by
  induction width generalizing n with
  | zero => exact (Nat.lt_one_iff.mp h).symm
  | succ width ih =>
    have hlow : (UInt8.ofNat (n % 256)).toNat = n % 256 := UInt8.toNat_ofNat_of_lt' (Nat.mod_lt n (by decide))
    have hhigh : n / 256 < 256 ^ width := Nat.div_lt_of_lt_mul (by rwa [Nat.pow_succ, Nat.mul_comm] at h)
    have hfold : ofBigEndian (bigEndian (width + 1) n) = 256 * ofBigEndian (bigEndian width (n / 256)) + (UInt8.ofNat (n % 256)).toNat := by
      rw [bigEndian, ofBigEndian, List.foldl_append]
      rfl
    rw [hfold, ih hhigh, hlow]
    omega

/-- A kind is known by its code. -/
theorem Major.ofCode?_code (kind : Major) : ofCode? kind.code = some kind := by
  cases kind <;> rfl

/-- The first byte of a head says which kind it is, and where its number is. -/
theorem readHead_cons (kind : Major) {low : Nat} (hlow : low < 32) (b : Bytes) :
    readHead (.ofNat (kind.code * 32 + low) :: b) = (readNumber low b).map fun (n, rest) => (kind, n, rest) := by
  have hcode : kind.code ≤ 6 := by cases kind <;> decide
  have hbyte : (UInt8.ofNat (kind.code * 32 + low)).toNat = kind.code * 32 + low := UInt8.toNat_ofNat_of_lt' (by simp only [UInt8.size]; omega)
  have hdiv : (kind.code * 32 + low) / 32 = kind.code := by omega
  have hmod : (kind.code * 32 + low) % 32 = low := by omega
  rw [readHead, hbyte, hdiv, hmod, Major.ofCode?_code]
  cases readNumber low b <;> rfl

/-- A number in the bytes after the first one of its head. -/
theorem readNumber_bigEndian {k : Nat} (hk : k < 4) (h : n < 256 ^ Nat.pow 2 k) :
    readNumber (24 + k) (bigEndian (Nat.pow 2 k) n ++ rest) = some (n, rest) := by
  have hsplit := split?_append (bigEndian (Nat.pow 2 k) n) rest
  rw [length_bigEndian] at hsplit
  rw [readNumber, if_neg (by omega), if_pos (by omega), Nat.add_sub_cancel_left, hsplit, Option.map_some]
  simp only [ofBigEndian_bigEndian h]

/-- A head is read back, in each of the five forms that it may have. -/
theorem readHead_head (kind : Major) (h : n < UInt64.size) (rest : Bytes) : readHead (head kind n ++ rest) = some (kind, n, rest) := by
  unfold head
  by_cases h24 : n < 24
  · simp only [if_pos h24, List.singleton_append, readHead_cons kind (Nat.lt_trans h24 (by decide)), readNumber, Option.map_some]
  by_cases h8 : n < 0x100
  · have hread : readNumber 24 (bigEndian 1 n ++ rest) = _ := readNumber_bigEndian (k := 0) (by decide) h8
    simp only [if_neg h24, if_pos h8, List.cons_append, readHead_cons kind (by decide : 24 < 32), hread, Option.map_some]
  by_cases h16 : n < 0x10000
  · have hread : readNumber 25 (bigEndian 2 n ++ rest) = _ := readNumber_bigEndian (k := 1) (by decide) h16
    simp only [if_neg h24, if_neg h8, if_pos h16, List.cons_append, readHead_cons kind (by decide : 25 < 32), hread, Option.map_some]
  by_cases h32 : n < 0x100000000
  · have hread : readNumber 26 (bigEndian 4 n ++ rest) = _ := readNumber_bigEndian (k := 2) (by decide) h32
    simp only [if_neg h24, if_neg h8, if_neg h16, if_pos h32, List.cons_append, readHead_cons kind (by decide : 26 < 32), hread, Option.map_some]
  · have hread : readNumber 27 (bigEndian 8 n ++ rest) = _ := readNumber_bigEndian (k := 3) (by decide) h
    simp only [if_neg h24, if_neg h8, if_neg h16, if_neg h32, List.cons_append, readHead_cons kind (by decide : 27 < 32), hread, Option.map_some]

theorem length_head_pos (kind : Major) (n : Nat) : 0 < (head kind n).length := by
  unfold head
  simp only
  split_ifs <;> exact Nat.succ_pos _

end

/-! ## Texts -/

/-- The loop that makes a list of an array of bytes adds the bytes from a place on to those it has. -/
theorem toList_loop_eq (b : ByteArray) (i : Nat) (r : List UInt8) : ByteArray.toList.loop b i r = r.reverse ++ b.data.toList.drop i := by
  fun_induction ByteArray.toList.loop b i r with
  | case1 i r h ih =>
    have hi : i < b.data.toList.length := h
    have hbyte : b.get! i = b.data.toList[i] := getElem!_pos b.data i h
    rw [ih, List.reverse_cons, hbyte, List.append_assoc, List.singleton_append, List.getElem_cons_drop]
  | case2 i r h =>
    have hi : b.data.toList.length ≤ i := Nat.le_of_not_lt h
    rw [List.drop_eq_nil_of_le hi, List.append_nil]

/-- The bytes of a text, as a byte string. -/
theorem toList_toUTF8 (s : String) : s.toUTF8.toList = Text.utf8 s := by
  rw [ByteArray.toList, toList_loop_eq]
  rfl

theorem length_utf8 (s : String) : (Text.utf8 s).length = s.utf8ByteSize := rfl

/-- A text is read back from its bytes. -/
theorem fromUTF8?_utf8 (s : String) : String.fromUTF8? (Text.utf8 s).toByteArray = some s := by
  have hbytes : (Text.utf8 s).toByteArray = s.toByteArray := by
    rw [ByteArray.ext_iff, List.data_toByteArray]
    exact Array.toArray_toList
  rw [hbytes, String.fromUTF8?, dif_pos s.isValidUTF8]
  rfl

/-! ## Items -/

/-- What a head asks for comes after it. -/
theorem readWithin_head (kind : Major) {n : Nat} (h : n < UInt64.size) (depth : Nat) (rest : Bytes) :
    readWithin (depth + 1) (head kind n ++ rest) = readContent (readWithin depth) n rest kind := by
  rw [readWithin, readHead_head kind h]
  rfl

/-- The bytes are a form of the item: with anything after them they are read as the item, within as many levels as there are bytes. -/
def IsForm (w : Bytes) (x : Item) : Prop := ∀ depth rest, w.length ≤ depth → readWithin depth (w ++ rest) = some (x, rest)

/-- Forms one after the other are read as the items that they are forms of. -/
theorem readItems_flatten {α : Type} {xs : List α} {form : α → Bytes} {item : α → Item} (h : ∀ x ∈ xs, IsForm (form x) (item x)) {depth : Nat}
    (hdepth : (xs.map form).flatten.length ≤ depth) (rest : Bytes) :
    readItems (readWithin depth) xs.length ((xs.map form).flatten ++ rest) = some (xs.map item, rest) := by
  induction xs with
  | nil => rfl
  | cons x xs ih =>
    rw [List.map_cons, List.flatten_cons, List.length_append] at hdepth
    have hfirst := h x List.mem_cons_self depth ((xs.map form).flatten ++ rest) (by omega)
    have hothers := ih (fun y hy => h y (List.mem_cons_of_mem x hy)) (by omega)
    rw [List.map_cons, List.flatten_cons, List.append_assoc, List.length_cons, readItems, hfirst]
    simp only [Option.bind_eq_bind, Option.bind_some, hothers]
    rfl

namespace IsForm

variable {n : Nat} {x : Item}

/-- A form is read back. -/
protected theorem read {w : Bytes} (h : IsForm w x) (rest : Bytes) : read (w ++ rest) = some (x, rest) := by
  refine h _ rest ?_
  rw [List.length_append]
  exact Nat.le_add_right _ _

/-- The head of a form takes one level at least, so what comes after it is to be read one level deeper. -/
theorem of_head {kind : Major} {w : Bytes}
    (h : ∀ depth rest, w.length ≤ depth → readWithin (depth + 1) (head kind n ++ (w ++ rest)) = some (x, rest)) : IsForm (head kind n ++ w) x := by
  intro depth rest hdepth
  have hpos := length_head_pos kind n
  rw [List.length_append] at hdepth
  obtain ⟨depth, rfl⟩ : ∃ d, depth = d + 1 := ⟨depth - 1, by omega⟩
  rw [List.append_assoc]
  exact h depth rest (by omega)

theorem number (h : n < UInt64.size) : IsForm (number n) (.number n) := by
  rw [Wire.number, ← List.append_nil (head .number n)]
  exact of_head fun depth rest _ => readWithin_head .number h depth rest

theorem text {s : String} (h : s.utf8ByteSize < UInt64.size) : IsForm (text s) (.text s) := by
  rw [Wire.text, toList_toUTF8]
  refine of_head fun depth rest _ => ?_
  rw [readWithin_head .text h, readContent, ← length_utf8, split?_append]
  simp only [Option.bind_eq_bind, Option.bind_some, fromUTF8?_utf8]
  rfl

theorem array {α : Type} {xs : List α} {form : α → Bytes} {item : α → Item} (hlength : xs.length < UInt64.size)
    (h : ∀ x ∈ xs, IsForm (form x) (item x)) : IsForm (array (xs.map form)) (.array (xs.map item)) := by
  rw [Wire.array, List.length_map]
  refine of_head fun depth rest hdepth => ?_
  rw [readWithin_head .array hlength, readContent, readItems_flatten h hdepth, Option.map_some]

theorem tag {w : Bytes} (hn : n < UInt64.size) (h : IsForm w x) : IsForm (head .tag n ++ w) (.tag n x) := by
  refine of_head fun depth rest hdepth => ?_
  rw [readWithin_head .tag hn, readContent, h depth rest hdepth, Option.map_some]

end IsForm

/-! ## Names of value types -/

/-- The number of some hexadecimal digits in lower case. -/
def ofHexDigits (digits : List Char) : Nat :=
  digits.foldl (fun n c => 16 * n + if c.isDigit then c.toNat - '0'.toNat else c.toNat - 'a'.toNat + 10) 0

/-- A byte is what its two digits stand for. -/
theorem hex_byte_inj {x y : UInt8} (h : Text.hex 2 x.toNat = Text.hex 2 y.toNat) : x = y := by
  have hall : ∀ n ∈ List.range UInt8.size, ofHexDigits (Text.padded 2 (Nat.toDigits 16 n)) = n := by decide +kernel
  have hread (x : UInt8) : ofHexDigits (Text.padded 2 (Nat.toDigits 16 x.toNat)) = x.toNat := hall x.toNat (List.mem_range.mpr x.toNat_lt)
  have hdigits := congrArg ofHexDigits (String.ofList_injective h)
  rw [hread, hread] at hdigits
  exact UInt8.toNat_inj.mp hdigits

theorem typeName_of_not_mem {t : ValueType} (h : t ∉ ValueType.all) : t.name = "valtype(0x" ++ (Text.hex 2 t.byte.toNat ++ ")") := by
  simp only [ValueType.all, List.mem_cons, List.not_mem_nil, or_false, not_or] at h
  obtain ⟨h₁, h₂, h₃, h₄⟩ := h
  rw [ValueType.name, if_neg h₁, if_neg h₂, if_neg h₃, if_neg h₄, String.append_assoc]

/-- No two types have the same name. -/
theorem injective_typeName : Function.Injective ValueType.name := by
  intro s t h
  have hname : ∀ s ∈ ValueType.all, ∀ t ∈ ValueType.all, s.name = t.name → s = t := by decide
  have hapart : ∀ s ∈ ValueType.all, Text.Apart s.name "valtype(0x" := by decide
  have hne {s t : ValueType} (hs : s ∈ ValueType.all) (ht : t ∉ ValueType.all) : s.name ≠ t.name := by
    rw [typeName_of_not_mem ht, ← String.append_empty (s := s.name)]
    exact (hapart s hs).append_ne _ _
  by_cases hs : s ∈ ValueType.all <;> by_cases ht : t ∈ ValueType.all
  · exact hname s hs t ht h
  · exact absurd h (hne hs ht)
  · exact absurd h.symm (hne ht hs)
  · rw [typeName_of_not_mem hs, typeName_of_not_mem ht, String.append_right_inj, String.append_left_inj] at h
    exact congrArg ValueType.mk (hex_byte_inj h)

/-- The names are short. -/
theorem utf8ByteSize_typeName_lt (t : ValueType) : t.name.utf8ByteSize < UInt64.size := by
  have hall : ∀ n ∈ List.range UInt8.size, (ValueType.name ⟨.ofNat n⟩).utf8ByteSize < UInt64.size := by decide +kernel
  simpa only [UInt8.ofNat_toNat] using hall t.byte.toNat (List.mem_range.mpr t.byte.toNat_lt)

/-! ## Lists -/

/-- The item for a list of value types: their names. -/
def typesItem (types : List ValueType) : Item := .array (types.map fun t => .text t.name)

/-- The item for a list of section ids: the numbers, marked to be shown in hexadecimal. -/
def sectionIdsItem (ids : List SectionId) : Item := .tag hexTag (.array (ids.map fun id => .number id.byte.toNat))

/-- The item for a list of instructions: their texts. -/
def codeItem (code : Code) : Item := .array (code.map fun x => .text x.text)

/-- The second byte string is the first one with more bytes after it, which are read as the item whatever comes after them. -/
def Adds (before after : Bytes) (x : Item) : Prop := ∃ w, after = before ++ w ∧ ∀ rest, read (w ++ rest) = some (x, rest)

theorem IsForm.adds {w : Bytes} {x : Item} (h : IsForm w x) (buffer : Bytes) : Adds buffer (buffer ++ w) x := ⟨w, rfl, h.read⟩

/-- Lists of types with the same names are the same. -/
theorem injective_typesItem : Function.Injective typesItem := by
  intro types others h
  injection h with h
  refine List.map_injective_iff.mpr (fun s t htext => ?_) h
  injection htext with hname
  exact injective_typeName hname

/-- What the three lists add to a buffer is read back as the list that was added: for types their names, which no other types have, for section ids
the numbers, and for instructions the texts. A list has a length of 64 bits, and so has a text. -/
theorem lists_read_back (buffer : Bytes) {types : List ValueType} {ids : List SectionId} {code : Code} (htypes : types.length < UInt64.size)
    (hids : ids.length < UInt64.size) (hcode : code.length < UInt64.size) (htexts : ∀ x ∈ code, x.text.utf8ByteSize < UInt64.size) :
    Adds buffer (appendTypes buffer types) (typesItem types) ∧ (∀ others, typesItem others = typesItem types → others = types) ∧
      Adds buffer (appendSectionIds buffer ids) (sectionIdsItem ids) ∧ Adds buffer (appendCode buffer code) (codeItem code) := by
  refine ⟨?_, fun _ h => injective_typesItem h, ?_, ?_⟩
  · exact (IsForm.array htypes fun t _ => .text (utf8ByteSize_typeName_lt t)).adds buffer
  · have hnumber (id : SectionId) : IsForm (number id.byte.toNat) (.number id.byte.toNat) :=
      .number (Nat.lt_trans id.byte.toNat_lt (by decide))
    rw [appendSectionIds, List.append_assoc]
    exact (IsForm.tag (by decide) (.array hids fun id _ => hnumber id)).adds buffer
  · exact (IsForm.array hcode fun x hx => .text (htexts x hx)).adds buffer

/-- A list of 24 types, one of them without meaning, ids on both sides of 24, and an instruction with a text of more than 24 bytes. -/
theorem lists_read_back_second_byte :
    (∀ x ∈ [Instruction.mk ⟨0x0e⟩ (some (.branchTable (.replicate 12 0) 1)), ⟨⟨0x0b⟩, none⟩], x.text.utf8ByteSize < UInt64.size) ∧
      Adds [0x9f] (appendTypes [0x9f] (⟨0x03⟩ :: .replicate 23 .i32)) (typesItem (⟨0x03⟩ :: .replicate 23 .i32)) ∧
      Adds [0x9f] (appendSectionIds [0x9f] [⟨0x17⟩, ⟨0x18⟩]) (sectionIdsItem [⟨0x17⟩, ⟨0x18⟩]) ∧
      Adds [0x9f] (appendCode [0x9f] [⟨⟨0x0e⟩, some (.branchTable (.replicate 12 0) 1)⟩, ⟨⟨0x0b⟩, none⟩])
        (codeItem [⟨⟨0x0e⟩, some (.branchTable (.replicate 12 0) 1)⟩, ⟨⟨0x0b⟩, none⟩]) := by
  have htexts : ∀ x ∈ [Instruction.mk ⟨0x0e⟩ (some (.branchTable (.replicate 12 0) 1)), ⟨⟨0x0b⟩, none⟩],
      x.text.utf8ByteSize < UInt64.size := by decide +kernel
  have htypes : (⟨0x03⟩ :: .replicate 23 .i32 : List ValueType).length < UInt64.size := by decide
  have hids : ([⟨0x17⟩, ⟨0x18⟩] : List SectionId).length < UInt64.size := by decide
  obtain ⟨htypes, -, hids, hcode⟩ := lists_read_back [0x9f] htypes hids (by decide) htexts
  exact ⟨htexts, htypes, hids, hcode⟩

end WasmInspect.Wire
