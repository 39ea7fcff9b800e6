import JvmClass.Text.Utf16

/-! Characters and their units determine each other. -/

namespace JvmClass.Text.Utf16

variable {u v : UInt16} {us : List UInt16} {c : Char} {cs : List Char}

theorem isHighSurrogate_iff : isHighSurrogate u ↔ 0xD800 ≤ u.toNat ∧ u.toNat < 0xDC00 := by
  simp [isHighSurrogate, UInt16.le_iff_toNat_le, UInt16.lt_iff_toNat_lt]

theorem isLowSurrogate_iff : isLowSurrogate u ↔ 0xDC00 ≤ u.toNat ∧ u.toNat < 0xE000 := by
  simp [isLowSurrogate, UInt16.le_iff_toNat_le, UInt16.lt_iff_toNat_lt]

theorem toNat_bounds (c : Char) : c.toNat < 0xD800 ∨ 0xDFFF < c.toNat ∧ c.toNat < 0x110000 :=
  c.valid

theorem toNat_ofNat {n : Nat} (valid : n < 0xD800 ∨ 0xDFFF < n ∧ n < 0x110000) :
    (Char.ofNat n).toNat = n := by
  unfold Char.ofNat
  rw [dif_pos valid]
  rfl

theorem ofUnits?_cons (high : ¬ isHighSurrogate u) (low : ¬ isLowSurrogate u)
    (us : List UInt16) :
    ofUnits? (u :: us) = (ofUnits? us).map (Char.ofNat u.toNat :: ·) := by
  cases us with
  | nil => simp [ofUnits?, high, low]
  | cons v us => simp [ofUnits?, high, low]

theorem ofUnits?_pair (high : isHighSurrogate u) (low : isLowSurrogate v) (us : List UInt16) :
    ofUnits? (u :: v :: us) = (ofUnits? us).map (pairChar u v :: ·) := by
  simp [ofUnits?, high, low]

theorem ofUnits?_charUnits (c : Char) (us : List UInt16) :
    ofUnits? (charUnits c ++ us) = (ofUnits? us).map (c :: ·) := by
  have bounds := toNat_bounds c
  unfold charUnits
  dsimp only
  split
  · rename_i small
    have same : c.toNat.toUInt16.toNat = c.toNat := UInt16.toNat_ofNat_of_lt' small
    have high : ¬ isHighSurrogate c.toNat.toUInt16 := by
      rw [isHighSurrogate_iff, same]
      omega
    have low : ¬ isLowSurrogate c.toNat.toUInt16 := by
      rw [isLowSurrogate_iff, same]
      omega
    rw [List.cons_append, List.nil_append, ofUnits?_cons high low, same, Char.ofNat_toNat]
  · rename_i large
    have first : (0xD800 + (c.toNat - 0x10000) / 0x400).toUInt16.toNat =
        0xD800 + (c.toNat - 0x10000) / 0x400 :=
      UInt16.toNat_ofNat_of_lt' (show _ < 65536 by omega)
    have second : (0xDC00 + (c.toNat - 0x10000) % 0x400).toUInt16.toNat =
        0xDC00 + (c.toNat - 0x10000) % 0x400 :=
      UInt16.toNat_ofNat_of_lt' (show _ < 65536 by omega)
    rw [List.cons_append, List.cons_append, List.nil_append, ofUnits?_pair]
    · have char : pairChar (0xD800 + (c.toNat - 0x10000) / 0x400).toUInt16
          (0xDC00 + (c.toNat - 0x10000) % 0x400).toUInt16 = c := by
        unfold pairChar
        rw [first, second]
        have sum : 0x10000 + (0xD800 + (c.toNat - 0x10000) / 0x400 - 0xD800) * 0x400 +
            (0xDC00 + (c.toNat - 0x10000) % 0x400 - 0xDC00) = c.toNat := by omega
        rw [sum, Char.ofNat_toNat]
      rw [char]
    · rw [isHighSurrogate_iff, first]
      omega
    · rw [isLowSurrogate_iff, second]
      omega

theorem ofUnits?_units (cs : List Char) : ofUnits? (units cs) = some cs := by
  induction cs with
  | nil => rfl
  | cons c cs ih =>
    rw [units, List.flatMap_cons, ofUnits?_charUnits]
    change (ofUnits? (units cs)).map (c :: ·) = _
    rw [ih, Option.map_some]

theorem charUnits_ofNat (high : ¬ isHighSurrogate u) (low : ¬ isLowSurrogate u) :
    charUnits (Char.ofNat u.toNat) = [u] := by
  have bound := u.toNat_lt
  rw [isHighSurrogate_iff] at high
  rw [isLowSurrogate_iff] at low
  unfold charUnits
  rw [toNat_ofNat (by omega)]
  dsimp only
  rw [if_pos bound]
  simp

theorem charUnits_pairChar (high : isHighSurrogate u) (low : isLowSurrogate v) :
    charUnits (pairChar u v) = [u, v] := by
  rw [isHighSurrogate_iff] at high
  rw [isLowSurrogate_iff] at low
  unfold charUnits pairChar
  rw [toNat_ofNat (by omega)]
  dsimp only
  rw [if_neg (by omega)]
  have first : 0xD800 + (0x10000 + (u.toNat - 0xD800) * 0x400 + (v.toNat - 0xDC00) - 0x10000) /
      0x400 = u.toNat := by omega
  have second : 0xDC00 + (0x10000 + (u.toNat - 0xD800) * 0x400 + (v.toNat - 0xDC00) - 0x10000) %
      0x400 = v.toNat := by omega
  rw [first, second]
  simp

theorem units_of_ofUnits? (read : ofUnits? us = some cs) : units cs = us := by
  fun_induction ofUnits? us generalizing cs with
  | case1 =>
    cases read
    rfl
  | case2 => cases read
  | case3 u plain =>
    cases read
    rw [Bool.or_eq_true, not_or] at plain
    rw [units, List.flatMap_singleton, charUnits_ofNat plain.1 plain.2]
  | case4 u v rest high low ih =>
    obtain ⟨ds, others, rfl⟩ := Option.map_eq_some_iff.mp read
    have later := ih others
    rw [units] at later ⊢
    rw [List.flatMap_cons, charUnits_pairChar high low, later]
    rfl
  | case5 => cases read
  | case6 => cases read
  | case7 u v rest high low ih =>
    obtain ⟨ds, others, rfl⟩ := Option.map_eq_some_iff.mp read
    have later := ih others
    rw [units] at later ⊢
    rw [List.flatMap_cons, charUnits_ofNat high low, later]
    rfl

theorem ofUnits?_eq_some_iff : ofUnits? us = some cs ↔ us = units cs := by
  constructor
  · intro read
    exact (units_of_ofUnits? read).symm
  · rintro rfl
    exact ofUnits?_units cs

end JvmClass.Text.Utf16
