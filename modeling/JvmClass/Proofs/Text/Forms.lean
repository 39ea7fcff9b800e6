import JvmClass.Proofs.Text.Surrogates
import JvmClass.Proofs.Wire.Rewriting
import JvmClass.Text.ModifiedUtf8

/-! The forms of a unit.  A unit may be written in one, two or three bytes, in so far as it fits.
The encoder takes the shortest form there is, and of each length there is only one. -/

namespace JvmClass.Text.ModifiedUtf8

open Output

/-- Bytes that are read as one unit. -/
inductive UnitForm : List UInt8 → UInt16 → Prop where
  | one {a : UInt8} (nonzero : a ≠ 0) (lead : a &&& 0x80 = 0) : UnitForm [a] a.toUInt16
  | two {a b : UInt8} (lead : a &&& 0xE0 = 0xC0) (tail : b &&& 0xC0 = 0x80) :
      UnitForm [a, b] (twoByteUnit a.toUInt16 (b &&& 0x3F).toUInt16)
  | three {a b c : UInt8} (lead : a &&& 0xF0 = 0xE0) (middle : b &&& 0xC0 = 0x80)
      (tail : c &&& 0xC0 = 0x80) :
      UnitForm [a, b, c]
        (threeByteUnit a.toUInt16 (b &&& 0x3F).toUInt16 (c &&& 0x3F).toUInt16)

/-- No other form of the same unit has fewer bytes. -/
def Shortest (form : List UInt8) : Prop :=
  ∀ u other, UnitForm form u → UnitForm other u → form.length ≤ other.length

variable {a b c : UInt8} {u v : UInt16} {form other : List UInt8}

theorem byte_cases {P : UInt8 → Prop} (each : ∀ n < 256, P (UInt8.ofNat n)) (a : UInt8) : P a := by
  have here := each a.toNat a.toNat_lt
  rwa [UInt8.ofNat_toNat] at here

theorem lead_one : ∀ a : UInt8, a &&& 0x80 = 0 ↔ a.toNat < 128 :=
  byte_cases (by decide +kernel)

theorem lead_two : ∀ a : UInt8, a &&& 0xE0 = 0xC0 ↔ 192 ≤ a.toNat ∧ a.toNat < 224 :=
  byte_cases (by decide +kernel)

theorem lead_three : ∀ a : UInt8, a &&& 0xF0 = 0xE0 ↔ 224 ≤ a.toNat ∧ a.toNat < 240 :=
  byte_cases (by decide +kernel)

theorem tail_iff : ∀ a : UInt8, a &&& 0xC0 = 0x80 ↔ 128 ≤ a.toNat ∧ a.toNat < 192 :=
  byte_cases (by decide +kernel)

theorem toNat_tail : ∀ a : UInt8, (a &&& 0x3F).toUInt16.toNat = a.toNat % 64 :=
  byte_cases (by decide +kernel)

theorem toNat_twoByteUnit (a b : UInt16) (small : b.toNat < 64) :
    (twoByteUnit a b).toNat = a.toNat % 32 * 64 + b.toNat := by
  unfold twoByteUnit
  simp only [UInt16.toNat_or, UInt16.toNat_shiftLeft, UInt16.toNat_and]
  change (a.toNat &&& 31) <<< 6 % 2 ^ 16 ||| b.toNat = _
  have mask : a.toNat &&& 31 = a.toNat % 32 := Nat.and_two_pow_sub_one_eq_mod a.toNat 5
  rw [mask, Nat.mod_eq_of_lt (by rw [Nat.shiftLeft_eq]; omega),
    ← Nat.shiftLeft_add_eq_or_of_lt (i := 6) small, Nat.shiftLeft_eq]

theorem toNat_threeByteUnit (a b c : UInt16) (middle : b.toNat < 64) (small : c.toNat < 64) :
    (threeByteUnit a b c).toNat = a.toNat % 16 * 4096 + b.toNat * 64 + c.toNat := by
  unfold threeByteUnit
  simp only [UInt16.toNat_or, UInt16.toNat_shiftLeft, UInt16.toNat_and]
  change ((a.toNat &&& 15) <<< 12 % 2 ^ 16 ||| b.toNat <<< 6 % 2 ^ 16) ||| c.toNat = _
  have mask : a.toNat &&& 15 = a.toNat % 16 := Nat.and_two_pow_sub_one_eq_mod a.toNat 4
  have bound : a.toNat % 16 < 16 := Nat.mod_lt _ (by decide)
  rw [mask]
  generalize a.toNat % 16 = n at bound
  have high : n <<< 12 % 2 ^ 16 = n * 4096 := by
    rw [Nat.shiftLeft_eq]
    omega
  have next : b.toNat <<< 6 % 2 ^ 16 = b.toNat * 64 := by
    rw [Nat.shiftLeft_eq]
    omega
  have upper : n * 4096 ||| b.toNat * 64 = (n * 64 + b.toNat) <<< 6 := by
    have apart := Nat.shiftLeft_add_eq_or_of_lt (i := 12) (b := b.toNat * 64) (by omega) n
    rw [Nat.shiftLeft_eq] at apart
    rw [← apart, Nat.shiftLeft_eq]
    omega
  rw [high, next, upper, ← Nat.shiftLeft_add_eq_or_of_lt (i := 6) small, Nat.shiftLeft_eq]
  omega

theorem unitForm_iff : UnitForm form u ↔
    (∃ a : UInt8, form = [a] ∧ 0 < a.toNat ∧ a.toNat < 128 ∧ u.toNat = a.toNat) ∨
    (∃ a b : UInt8, form = [a, b] ∧ 192 ≤ a.toNat ∧ a.toNat < 224 ∧
      128 ≤ b.toNat ∧ b.toNat < 192 ∧ u.toNat = (a.toNat - 192) * 64 + (b.toNat - 128)) ∨
    (∃ a b c : UInt8, form = [a, b, c] ∧ 224 ≤ a.toNat ∧ a.toNat < 240 ∧
      128 ≤ b.toNat ∧ b.toNat < 192 ∧ 128 ≤ c.toNat ∧ c.toNat < 192 ∧
      u.toNat = (a.toNat - 224) * 4096 + (b.toNat - 128) * 64 + (c.toNat - 128)) := by
  constructor
  · intro formed
    cases formed with
    | @one a nonzero lead =>
      have positive : a.toNat ≠ 0 := fun zero => nonzero (UInt8.toNat_inj.mp zero)
      exact .inl ⟨a, rfl, by omega, (lead_one a).mp lead, UInt8.toNat_toUInt16 a⟩
    | @two a b lead tail =>
      have first := (lead_two a).mp lead
      have second := (tail_iff b).mp tail
      refine .inr (.inl ⟨a, b, rfl, first.1, first.2, second.1, second.2, ?_⟩)
      rw [toNat_twoByteUnit _ _ (by rw [toNat_tail]; omega), toNat_tail, UInt8.toNat_toUInt16]
      omega
    | @three a b c lead middle tail =>
      have first := (lead_three a).mp lead
      have second := (tail_iff b).mp middle
      have third := (tail_iff c).mp tail
      refine .inr (.inr ⟨a, b, c, rfl, first.1, first.2, second.1, second.2, third.1, third.2, ?_⟩)
      rw [toNat_threeByteUnit _ _ _ (by rw [toNat_tail]; omega) (by rw [toNat_tail]; omega),
        toNat_tail, toNat_tail, UInt8.toNat_toUInt16]
      omega
  · rintro (⟨a, rfl, positive, small, same⟩ | ⟨a, b, rfl, low, high, low', high', same⟩ |
      ⟨a, b, c, rfl, low, high, low', high', low'', high'', same⟩)
    · have formed := UnitForm.one (a := a) (by rintro rfl; simp at positive)
        ((lead_one a).mpr small)
      rwa [show u = a.toUInt16 from UInt16.toNat_inj.mp (by rw [same, UInt8.toNat_toUInt16])]
    · have formed := UnitForm.two ((lead_two a).mpr ⟨low, high⟩) ((tail_iff b).mpr ⟨low', high'⟩)
      refine (UInt16.toNat_inj.mp ?_ : _ = u) ▸ formed
      rw [toNat_twoByteUnit _ _ (by rw [toNat_tail]; omega), toNat_tail, UInt8.toNat_toUInt16, same]
      omega
    · have formed := UnitForm.three ((lead_three a).mpr ⟨low, high⟩)
        ((tail_iff b).mpr ⟨low', high'⟩) ((tail_iff c).mpr ⟨low'', high''⟩)
      refine (UInt16.toNat_inj.mp ?_ : _ = u) ▸ formed
      rw [toNat_threeByteUnit _ _ _ (by rw [toNat_tail]; omega) (by rw [toNat_tail]; omega),
        toNat_tail, toNat_tail, UInt8.toNat_toUInt16, same]
      omega

theorem UnitForm.unit_eq (first : UnitForm form u) (second : UnitForm form v) : u = v := by
  apply UInt16.toNat_inj.mp
  rw [unitForm_iff] at first second
  rcases first with ⟨a, rfl, _, _, same⟩ | ⟨a, b, rfl, _, _, _, _, same⟩ |
    ⟨a, b, c, rfl, _, _, _, _, _, _, same⟩ <;>
  rcases second with ⟨a', equal, _, _, same'⟩ | ⟨a', b', equal, _, _, _, _, same'⟩ |
    ⟨a', b', c', equal, _, _, _, _, _, _, same'⟩ <;>
  cases equal <;> rw [same, same']

theorem UnitForm.form_eq (first : UnitForm form u) (second : UnitForm other u)
    (length : form.length = other.length) : form = other := by
  rw [unitForm_iff] at first second
  obtain ⟨a, rfl, _, _, same⟩ | ⟨a, b, rfl, _, _, _, _, same⟩ |
    ⟨a, b, c, rfl, _, _, _, _, _, _, same⟩ := first <;>
  obtain ⟨a', rfl, _, _, same'⟩ | ⟨a', b', rfl, _, _, _, _, same'⟩ |
    ⟨a', b', c', rfl, _, _, _, _, _, _, same'⟩ := second <;>
  simp only [List.length_cons, List.length_nil, Nat.reduceAdd, Nat.reduceEqDiff] at length
  · have equal : a = a' := UInt8.toNat_inj.mp (by omega)
    rw [equal]
  · have equal : a = a' := UInt8.toNat_inj.mp (by omega)
    have equal' : b = b' := UInt8.toNat_inj.mp (by omega)
    rw [equal, equal']
  · have equal : a = a' := UInt8.toNat_inj.mp (by omega)
    have equal' : b = b' := UInt8.toNat_inj.mp (by omega)
    have equal'' : c = c' := UInt8.toNat_inj.mp (by omega)
    rw [equal, equal', equal'']

theorem toNat_low6 (u : UInt16) : (u &&& 0x3F).toNat = u.toNat % 64 := by
  rw [UInt16.toNat_and]
  exact Nat.and_two_pow_sub_one_eq_mod u.toNat 6

theorem toNat_right6 (u : UInt16) : (u >>> 6).toNat = u.toNat / 64 := by
  rw [UInt16.toNat_shiftRight]
  exact Nat.shiftRight_eq_div_pow u.toNat 6

theorem toNat_right12 (u : UInt16) : (u >>> 12).toNat = u.toNat / 4096 := by
  rw [UInt16.toNat_shiftRight]
  exact Nat.shiftRight_eq_div_pow u.toNat 12

theorem toNat_marked (w : UInt16) (mark : UInt8) {n : Nat} (bound : w.toNat < n)
    (each : ∀ k < n, (UInt8.ofNat k ||| mark).toNat = k + mark.toNat) :
    (w.toUInt8 ||| mark).toNat = w.toNat + mark.toNat := by
  have same : w.toUInt8 = UInt8.ofNat w.toNat := by
    apply UInt8.toNat_inj.mp
    rw [UInt16.toNat_toUInt8, UInt8.toNat_ofNat']
  rw [same, each w.toNat bound]

theorem unitForm_encodeUnit (u : UInt16) : UnitForm (encodeUnit u) u := by
  have bound := u.toNat_lt
  have tail : ∀ w : UInt16, w.toNat < 64 → (w.toUInt8 ||| 0x80).toNat = w.toNat + 128 :=
    fun w small => toNat_marked w 0x80 small (by decide +kernel)
  rw [unitForm_iff]
  unfold encodeUnit
  split
  · rename_i small
    obtain ⟨nonzero, small⟩ := small
    have below : u.toNat < 128 := UInt16.lt_iff_toNat_lt.mp small
    have positive : u.toNat ≠ 0 := fun zero => nonzero (UInt16.toNat_inj.mp zero)
    have byte : u.toUInt8.toNat = u.toNat := by
      rw [UInt16.toNat_toUInt8]
      omega
    exact .inl ⟨_, rfl, by omega, by omega, byte.symm⟩
  · split
    · rename_i short
      have below : u.toNat < 2048 := UInt16.lt_iff_toNat_lt.mp short
      have lead := toNat_marked (u >>> 6) 0xC0 (n := 32) (by rw [toNat_right6]; omega)
        (by decide +kernel)
      have last := tail (u &&& 0x3F) (by rw [toNat_low6]; omega)
      rw [toNat_right6] at lead
      rw [toNat_low6] at last
      change _ = _ + 192 at lead
      exact .inr (.inl ⟨_, _, rfl, by omega, by omega, by omega, by omega, by omega⟩)
    · have lead := toNat_marked (u >>> 12) 0xE0 (n := 16) (by rw [toNat_right12]; omega)
        (by decide +kernel)
      have next := tail (u >>> 6 &&& 0x3F) (by rw [toNat_low6]; omega)
      have last := tail (u &&& 0x3F) (by rw [toNat_low6]; omega)
      rw [toNat_right12] at lead
      rw [toNat_low6, toNat_right6] at next
      rw [toNat_low6] at last
      change _ = _ + 224 at lead
      exact .inr (.inr ⟨_, _, _, rfl, by omega, by omega, by omega, by omega, by omega, by omega,
        by omega⟩)

/-- The encoder never takes more bytes than another form. -/
theorem length_encodeUnit_le (formed : UnitForm form u) :
    (encodeUnit u).length ≤ form.length := by
  rw [unitForm_iff] at formed
  unfold encodeUnit
  rcases formed with ⟨a, rfl, positive, small, same⟩ | ⟨a, b, rfl, _, _, _, _, same⟩ |
    ⟨a, b, c, rfl, _, _, _, _, _, _, same⟩
  · have nonzero : u ≠ 0 := by
      rintro rfl
      rw [← same] at positive
      exact Nat.lt_irrefl 0 positive
    have below : u < 0x80 := UInt16.lt_iff_toNat_lt.mpr (by rw [same]; exact small)
    rw [if_pos ⟨nonzero, below⟩]
    exact Nat.le_refl 1
  · have below : u < 0x800 := UInt16.lt_iff_toNat_lt.mpr (by rw [same]; change _ < 2048; omega)
    rw [if_pos below]
    split
    · exact Nat.le_succ 1
    · exact Nat.le_refl 2
  · split
    · exact (by decide : 1 ≤ 3)
    · split
      · exact (by decide : 2 ≤ 3)
      · exact Nat.le_refl 3

theorem shortest_iff (formed : UnitForm form u) : Shortest form ↔ form = encodeUnit u := by
  constructor
  · intro shortest
    have le := shortest u (encodeUnit u) formed (unitForm_encodeUnit u)
    exact formed.form_eq (unitForm_encodeUnit u) (Nat.le_antisymm le (length_encodeUnit_le formed))
  · rintro rfl v other here there
    rw [formed.unit_eq here]
    exact length_encodeUnit_le there

theorem decodeUnits_append (formed : UnitForm form u) (position : Nat) (rest : List UInt8) :
    decodeUnits position (form ++ rest) =
      (u :: ·) <$> decodeUnits (position + form.length) rest := by
  cases formed with
  | @one a nonzero lead =>
    change decodeUnits position (a :: rest) = _
    rw [decodeUnits.eq_def]
    dsimp only
    rw [if_neg nonzero, if_pos lead]
    rfl
  | @two a b lead tail =>
    have nonzero : a ≠ 0 := by
      rintro rfl
      exact absurd lead (by decide)
    have high : ¬ a &&& 0x80 = 0 := by
      rw [lead_one, Nat.not_lt]
      have := ((lead_two a).mp lead).1
      omega
    change decodeUnits position (a :: b :: rest) = _
    rw [decodeUnits.eq_def]
    dsimp only
    rw [if_neg nonzero, if_neg high, if_pos lead]
    simp only [continuation, if_pos tail]
    rfl
  | @three a b c lead middle tail =>
    have nonzero : a ≠ 0 := by
      rintro rfl
      exact absurd lead (by decide)
    have high : ¬ a &&& 0x80 = 0 := by
      rw [lead_one, Nat.not_lt]
      have := ((lead_three a).mp lead).1
      omega
    have wider : ¬ a &&& 0xE0 = 0xC0 := by
      rw [lead_two]
      have := (lead_three a).mp lead
      omega
    change decodeUnits position (a :: b :: c :: rest) = _
    rw [decodeUnits, if_neg nonzero, if_neg high, if_neg wider, if_pos lead]
    simp only [continuation, if_pos middle, if_pos tail]
    rfl

theorem decodeUnits_flatten {forms : List (List UInt8)} {us : List UInt16}
    (formed : List.Forall₂ UnitForm forms us) (position : Nat) :
    decodeUnits position forms.flatten = .ok us := by
  induction formed generalizing position with
  | nil => rfl
  | cons first _ ih =>
    rw [List.flatten_cons, decodeUnits_append first, ih]
    rfl

theorem continuation_eq_ok {position : Nat} {v : UInt16} (read : continuation position b = .ok v) :
    b &&& 0xC0 = 0x80 ∧ v = (b &&& 0x3F).toUInt16 := by
  unfold continuation at read
  split at read
  · rename_i tail
    cases read
    exact ⟨tail, rfl⟩
  · cases read

theorem forms_of_decodeUnits {position : Nat} {bytes : List UInt8} {us : List UInt16}
    (read : decodeUnits position bytes = .ok us) :
    ∃ forms, List.Forall₂ UnitForm forms us ∧ bytes = forms.flatten := by
  fun_induction decodeUnits position bytes generalizing us with
  | case1 =>
    cases read
    exact ⟨[], .nil, rfl⟩
  | case2 => cases read
  | case3 position a rest nonzero lead ih =>
    obtain ⟨vs, others, read⟩ := bind_eq_ok read
    cases read
    obtain ⟨forms, formed, rfl⟩ := ih others
    exact ⟨[a] :: forms, .cons (.one nonzero lead) formed, rfl⟩
  | case4 => cases read
  | case5 position a nonzero high lead b rest ih =>
    obtain ⟨v, here, read⟩ := bind_eq_ok read
    obtain ⟨vs, others, read⟩ := bind_eq_ok read
    cases read
    obtain ⟨tail, rfl⟩ := continuation_eq_ok here
    obtain ⟨forms, formed, rfl⟩ := ih others
    exact ⟨[a, b] :: forms, .cons (.two lead tail) formed, rfl⟩
  | case6 => cases read
  | case7 =>
    obtain ⟨_, _, read⟩ := bind_eq_ok read
    cases read
  | case8 position a nonzero high wider lead b c rest ih =>
    obtain ⟨v, here, read⟩ := bind_eq_ok read
    obtain ⟨w, there, read⟩ := bind_eq_ok read
    obtain ⟨vs, others, read⟩ := bind_eq_ok read
    cases read
    obtain ⟨middle, rfl⟩ := continuation_eq_ok here
    obtain ⟨tail, rfl⟩ := continuation_eq_ok there
    obtain ⟨forms, formed, rfl⟩ := ih others
    exact ⟨[a, b, c] :: forms, .cons (.three lead middle tail) formed, rfl⟩
  | case9 => cases read

def TextForm (forms : List (List UInt8)) (s : String) : Prop :=
  List.Forall₂ UnitForm forms (Utf16.units s.toList)

def textForms (s : String) : List (List UInt8) := (Utf16.units s.toList).map encodeUnit

theorem textForm_textForms (s : String) : TextForm (textForms s) s := by
  unfold TextForm textForms
  rw [List.forall₂_map_left_iff, List.forall₂_same]
  exact fun u _ => unitForm_encodeUnit u

theorem flatten_textForms (s : String) : (textForms s).flatten = encode s :=
  (List.flatMap_def ..).symm

theorem decode_eq_ok_iff {bytes : List UInt8} {s : String} :
    decode bytes = .ok s ↔ ∃ forms, TextForm forms s ∧ bytes = forms.flatten := by
  constructor
  · intro read
    obtain ⟨us, units, read⟩ := bind_eq_ok read
    split at read
    · rename_i cs found
      cases read
      obtain ⟨forms, formed, same⟩ := forms_of_decodeUnits units
      refine ⟨forms, ?_, same⟩
      rw [Utf16.ofUnits?_eq_some_iff] at found
      unfold TextForm
      rw [String.toList_ofList, ← found]
      exact formed
    · cases read
  · rintro ⟨forms, formed, rfl⟩
    unfold decode
    rw [decodeUnits_flatten formed]
    dsimp only [bind, Except.bind]
    simp only [Utf16.ofUnits?_units, String.ofList_toList]

theorem rewrites_unit (formed : UnitForm form u) :
    Rewrites (.put (encodeUnit u)) (encodeUnit u) form (Shortest form) :=
  ⟨rfl, length_encodeUnit_le formed, eq_comm.trans (shortest_iff formed).symm⟩

theorem rewrites_units {forms : List (List UInt8)} {us : List UInt16}
    (formed : List.Forall₂ UnitForm forms us) :
    Rewrites (.put (us.flatMap encodeUnit)) (us.flatMap encodeUnit) forms.flatten
      (∀ form ∈ forms, Shortest form) := by
  induction formed with
  | nil =>
    refine (rewrites_put []).congr ?_
    simp
  | cons first _ ih =>
    rw [List.flatMap_cons, List.flatten_cons]
    exact ((rewrites_unit first).append ih).congr List.forall_mem_cons.symm

/-- A text that was read is never written in more bytes, and it is written in the same bytes just
when all its forms were the shortest ones. -/
theorem rewrites_text {forms : List (List UInt8)} {s : String} (formed : TextForm forms s) :
    Rewrites (.put (encode s)) (encode s) forms.flatten (∀ form ∈ forms, Shortest form) :=
  rewrites_units formed

end JvmClass.Text.ModifiedUtf8
