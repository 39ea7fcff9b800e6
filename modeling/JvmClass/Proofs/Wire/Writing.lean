import JvmClass.Proofs.Wire.Rewriting

/-! Writing without failure.  `Writes` says that an encoder which succeeds puts out a form of the
value it was given, so that a decoder which accepts these forms gives the value back. -/

namespace JvmClass.Output

open Decoder

variable {α ρ : Type} {o o' : Output} {bytes : List UInt8}

theorem toExcept_eq_ok_iff : o.toExcept = .ok bytes ↔ o = .put bytes := by
  obtain ⟨out, failure?⟩ := o
  cases failure? <;> simp [toExcept, put]

theorem put_injective {x y : List UInt8} (same : put x = put y) : x = y :=
  congrArg Output.bytes same

theorem append_eq_put_iff : o ++ o' = .put bytes ↔
    ∃ x y, o = .put x ∧ o' = .put y ∧ bytes = x ++ y := by
  constructor
  · intro whole
    change andThen o o' = _ at whole
    obtain ⟨x, failure?⟩ := o
    obtain ⟨y, failure?'⟩ := o'
    cases failure? with
    | some e =>
      have failed : some e = none := congrArg Output.failure? whole
      cases failed
    | none =>
      obtain rfl : failure?' = none := congrArg Output.failure? whole
      exact ⟨x, y, rfl, rfl, (put_injective whole).symm⟩
  · rintro ⟨x, y, rfl, rfl, rfl⟩
    exact put_append_put x y

/-- What is put out for a suitable value is a form that stands for it. -/
def Writes (stands : ρ → α → Prop) (write : ρ → List UInt8) (encode : α → Output)
    (suits : α → Prop) : Prop :=
  ∀ a bytes, suits a → encode a = .put bytes → Rendered stands write bytes a

variable {stands : ρ → α → Prop} {write : ρ → List UInt8} {encode : α → Output}
  {suits : α → Prop}

theorem writes_list (writes : Writes stands write encode suits) {as : List α}
    (each : ∀ a ∈ as, suits a) (written : concat (as.map encode) = .put bytes) :
    ∃ rs, List.Forall₂ stands rs as ∧ bytes = rs.flatMap write := by
  induction as generalizing bytes with
  | nil => exact ⟨[], .nil, (put_injective written).symm⟩
  | cons a as ih =>
    rw [concat_map_cons, append_eq_put_iff] at written
    obtain ⟨x, y, first, others, rfl⟩ := written
    obtain ⟨r, here, rfl⟩ := writes a x (each a List.mem_cons_self) first
    obtain ⟨rs, there, rfl⟩ := ih (fun b member => each b (List.mem_cons_of_mem a member)) others
    exact ⟨r :: rs, .cons here there, rfl⟩

theorem length16_eq_ok {what : String} {n : Nat} {w : UInt16} (fits : length16 what n = .ok w) :
    n < 65536 ∧ w = n.toUInt16 := by
  unfold length16 at fits
  split at fits
  · rename_i short
    exact ⟨short, (Except.ok.inj fits).symm⟩
  · cases fits

theorem length32_eq_ok {what : String} {n : Nat} {w : UInt32} (fits : length32 what n = .ok w) :
    n < 4294967296 ∧ w = n.toUInt32 := by
  unfold length32 at fits
  split at fits
  · rename_i short
    exact ⟨short, (Except.ok.inj fits).symm⟩
  · cases fits

variable {what : String} {as : List α} {held : List UInt8} {n : Nat}

theorem length16_eq_ok_iff {w : UInt16} : length16 what n = .ok w ↔ w.toNat = n := by
  constructor
  · intro fits
    obtain ⟨short, rfl⟩ := length16_eq_ok fits
    exact UInt16.toNat_ofNat_of_lt' short
  · rintro rfl
    rw [length16, if_pos w.toNat_lt]
    simp

theorem length32_eq_ok_iff {w : UInt32} : length32 what n = .ok w ↔ w.toNat = n := by
  constructor
  · intro fits
    obtain ⟨short, rfl⟩ := length32_eq_ok fits
    exact UInt32.toNat_ofNat_of_lt' short
  · rintro rfl
    rw [length32, if_pos w.toNat_lt]
    simp

theorem countedAs_eq_put_iff : countedAs what as encode = .put bytes ↔
    ∃ w : UInt16, w.toNat = as.length ∧
      ∃ y, concat (as.map encode) = .put y ∧ bytes = u16Bytes w ++ y := by
  constructor
  · intro written
    cases fits : length16 what as.length with
    | error e =>
      rw [countedAs, fits] at written
      cases written
    | ok w =>
      rw [countedAs, fits] at written
      obtain ⟨x, y, here, there, rfl⟩ := append_eq_put_iff.mp written
      exact ⟨w, length16_eq_ok_iff.mp fits, y, there, by rw [put_injective here]⟩
  · rintro ⟨w, length, y, written, rfl⟩
    rw [countedAs, length16_eq_ok_iff.mpr length, written]
    rfl

theorem longRun_eq_put_iff : longRun what held = .put bytes ↔
    ∃ w : UInt32, w.toNat = held.length ∧ bytes = u32Bytes w ++ held := by
  constructor
  · intro written
    cases fits : length32 what held.length with
    | error e =>
      rw [longRun, fits] at written
      cases written
    | ok w =>
      rw [longRun, fits] at written
      exact ⟨w, length32_eq_ok_iff.mp fits, (put_injective written).symm⟩
  · rintro ⟨w, length, rfl⟩
    rw [longRun, length32_eq_ok_iff.mpr length]
    rfl

theorem writes_countedAs (what : String) (writes : Writes stands write encode suits) :
    Writes (Each stands) (countedBytes write) (countedAs what · encode)
      fun as => ∀ a ∈ as, suits a := by
  intro as bytes each written
  obtain ⟨w, length, y, others, rfl⟩ := countedAs_eq_put_iff.mp written
  obtain ⟨rs, there, rfl⟩ := writes_list writes each others
  have same := there.length_eq
  have bound := w.toNat_lt
  refine ⟨rs, ⟨there, by omega⟩, ?_⟩
  rw [countedBytes, same, ← length]
  simp

theorem writes_counted (writes : Writes stands write encode suits) :
    Writes (Each stands) (countedBytes write) (counted · encode) fun as => ∀ a ∈ as, suits a :=
  writes_countedAs _ writes

end JvmClass.Output
