import JvmClass.Proofs.Text.Forms

/-! Which bytes are texts.  Bytes are read just when they are forms of units in which surrogates come
in pairs, and there is one text that has these units.  Every text can be read from what it is written
as, which has no zero byte, and what was read is written in as many bytes or fewer. -/

namespace JvmClass.Text

namespace Utf16

variable {us : List UInt16}

/-- Units in which each high surrogate has a low one behind it, and no other unit is a surrogate. -/
inductive Paired : List UInt16 → Prop where
  | nil : Paired []
  | plain {u : UInt16} {us : List UInt16} (apart : u.toNat < 0xD800 ∨ 0xE000 ≤ u.toNat)
      (others : Paired us) : Paired (u :: us)
  | pair {u v : UInt16} {us : List UInt16} (high : 0xD800 ≤ u.toNat ∧ u.toNat < 0xDC00)
      (low : 0xDC00 ≤ v.toNat ∧ v.toNat < 0xE000) (others : Paired us) : Paired (u :: v :: us)

theorem apart_iff {u : UInt16} : (u.toNat < 0xD800 ∨ 0xE000 ≤ u.toNat) ↔
    ¬ isHighSurrogate u ∧ ¬ isLowSurrogate u := by
  rw [isHighSurrogate_iff, isLowSurrogate_iff]
  omega

theorem paired_of_ofUnits? {cs : List Char} (read : ofUnits? us = some cs) : Paired us := by
  fun_induction ofUnits? us generalizing cs with
  | case1 => exact .nil
  | case2 => cases read
  | case3 u plain =>
    rw [Bool.or_eq_true, not_or] at plain
    exact .plain (apart_iff.mpr plain) .nil
  | case4 u v rest high low ih =>
    obtain ⟨ds, others, _⟩ := Option.map_eq_some_iff.mp read
    exact .pair (isHighSurrogate_iff.mp high) (isLowSurrogate_iff.mp low) (ih others)
  | case5 => cases read
  | case6 => cases read
  | case7 u v rest high low ih =>
    obtain ⟨ds, others, _⟩ := Option.map_eq_some_iff.mp read
    exact .plain (apart_iff.mpr ⟨high, low⟩) (ih others)

theorem exists_ofUnits?_of_paired (paired : Paired us) : ∃ cs, ofUnits? us = some cs := by
  induction paired with
  | nil => exact ⟨[], rfl⟩
  | plain apart _ ih =>
    obtain ⟨cs, read⟩ := ih
    obtain ⟨high, low⟩ := apart_iff.mp apart
    rw [ofUnits?_cons high low, read]
    exact ⟨_, rfl⟩
  | pair high low _ ih =>
    obtain ⟨cs, read⟩ := ih
    rw [ofUnits?_pair (isHighSurrogate_iff.mpr high) (isLowSurrogate_iff.mpr low), read]
    exact ⟨_, rfl⟩

theorem exists_units_iff : (∃ cs, us = units cs) ↔ Paired us := by
  simp only [← ofUnits?_eq_some_iff]
  exact ⟨fun ⟨_, read⟩ => paired_of_ofUnits? read, exists_ofUnits?_of_paired⟩

end Utf16

namespace ModifiedUtf8

variable {form : List UInt8} {forms : List (List UInt8)} {us : List UInt16} {u : UInt16} {s : String}
  {bytes : List UInt8}

/-- Bytes are made of forms of units, one form after the other. -/
structure Spells (forms : List (List UInt8)) (us : List UInt16) (bytes : List UInt8) : Prop where
  each : List.Forall₂ UnitForm forms us
  whole : bytes = forms.flatten

theorem UnitForm.zero_not_mem (formed : UnitForm form u) : 0 ∉ form := by
  have nonzero {a : UInt8} (positive : 0 < a.toNat) : 0 ≠ a := by
    rintro rfl
    exact Nat.lt_irrefl 0 positive
  rw [unitForm_iff] at formed
  obtain ⟨a, rfl, _, _, _⟩ | ⟨a, b, rfl, _, _, _, _, _⟩ | ⟨a, b, c, rfl, _, _, _, _, _, _, _⟩ := formed
  · simpa using nonzero (by omega)
  · simpa using ⟨nonzero (by omega), nonzero (by omega)⟩
  · simpa using ⟨nonzero (by omega), nonzero (by omega), nonzero (by omega)⟩

theorem Spells.zero_not_mem (spells : Spells forms us bytes) : 0 ∉ bytes := by
  rw [spells.whole, List.mem_flatten]
  rintro ⟨form, listed, inside⟩
  obtain ⟨u, _, formed⟩ := exists_right_of_forall₂ spells.each listed
  exact formed.zero_not_mem inside

theorem spells_encode (s : String) : Spells (textForms s) (Utf16.units s.toList) (encode s) :=
  ⟨textForm_textForms s, (flatten_textForms s).symm⟩

theorem Spells.decode_iff (spells : Spells forms us bytes) :
    decode bytes = .ok s ↔ Utf16.units s.toList = us := by
  constructor
  · intro read
    obtain ⟨vs, units, read⟩ := bind_eq_ok read
    rw [spells.whole, decodeUnits_flatten spells.each] at units
    cases units
    split at read
    · rename_i cs found
      cases read
      rw [String.toList_ofList, Utf16.ofUnits?_eq_some_iff.mp found]
    · cases read
  · rintro rfl
    exact decode_eq_ok_iff.mpr ⟨forms, spells.each, spells.whole⟩

theorem exists_decode_iff :
    (∃ s, decode bytes = .ok s) ↔ ∃ forms us, Spells forms us bytes ∧ Utf16.Paired us := by
  constructor
  · rintro ⟨s, read⟩
    obtain ⟨forms, formed, whole⟩ := decode_eq_ok_iff.mp read
    exact ⟨forms, _, ⟨formed, whole⟩, Utf16.exists_units_iff.mp ⟨s.toList, rfl⟩⟩
  · rintro ⟨forms, us, spells, paired⟩
    obtain ⟨cs, rfl⟩ := Utf16.exists_units_iff.mpr paired
    exact ⟨String.ofList cs, spells.decode_iff.mpr (by rw [String.toList_ofList])⟩

theorem shortest_zero_iff (formed : UnitForm form 0) : Shortest form ↔ form.length = 2 := by
  rw [shortest_iff formed]
  refine ⟨fun same => same ▸ rfl, fun length => ?_⟩
  exact formed.form_eq (unitForm_encodeUnit 0) length

/-- Every text is read from what it is written as, in which no byte is zero.  Bytes are read as a text
just when they are forms of one, two or three bytes each, of units in which surrogates are paired, and the
text with these units is then written in no more bytes, and in the same ones just when each form is the
shortest one of its unit, which for the zero unit has two bytes. -/
theorem decodes_forms (bytes : List UInt8) :
    (∀ s, decode (encode s) = .ok s ∧ 0 ∉ encode s) ∧
    ((∃ s, decode bytes = .ok s) ↔ ∃ forms us, Spells forms us bytes ∧ Utf16.Paired us) ∧
    ∀ forms us s, Spells forms us bytes → decode bytes = .ok s →
      Utf16.units s.toList = us ∧ (encode s).length ≤ bytes.length ∧
        (encode s = bytes ↔ ∀ form ∈ forms, Shortest form) ∧
        ∀ form ∈ forms, UnitForm form 0 → (Shortest form ↔ form.length = 2) := by
  refine ⟨fun s => ?_, exists_decode_iff, fun forms us s spells read => ?_⟩
  · have spells := spells_encode s
    exact ⟨spells.decode_iff.mpr rfl, spells.zero_not_mem⟩
  · have same := spells.decode_iff.mp read
    have formed : TextForm forms s := by
      rw [TextForm, same]
      exact spells.each
    have rewritten := rewrites_text formed
    rw [← spells.whole] at rewritten
    exact ⟨same, rewritten.shrinks, rewritten.same_iff, fun _ _ => shortest_zero_iff⟩

theorem decodes_forms_overlong :
    Spells [[0xC0, 0x80], [0xC1, 0x81]] [0, 65] [0xC0, 0x80, 0xC1, 0x81] ∧
      decode [0xC0, 0x80, 0xC1, 0x81] = .ok "\x00A" ∧
      (encode "\x00A").length ≤ 4 ∧ encode "\x00A" ≠ [0xC0, 0x80, 0xC1, 0x81] := by
  have spells : Spells [[0xC0, 0x80], [0xC1, 0x81]] [0, 65] [0xC0, 0x80, 0xC1, 0x81] :=
    ⟨.cons (.two (by decide) (by decide)) (.cons (.two (by decide) (by decide)) .nil), rfl⟩
  have read : decode [0xC0, 0x80, 0xC1, 0x81] = .ok "\x00A" := by decide +kernel
  obtain ⟨_, _, written⟩ := decodes_forms [0xC0, 0x80, 0xC1, 0x81]
  obtain ⟨_, shorter, same, _⟩ := written _ _ _ spells read
  refine ⟨spells, read, shorter, fun kept => ?_⟩
  have least := same.mp kept [0xC1, 0x81] (by simp)
  have formed : UnitForm [0xC1, 0x81] 65 := .two (by decide) (by decide)
  exact absurd (least 65 [65] formed (.one (by decide) (by decide))) (by decide)

end ModifiedUtf8

end JvmClass.Text
