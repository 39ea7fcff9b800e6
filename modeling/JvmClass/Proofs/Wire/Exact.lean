import JvmClass.Proofs.Wire.Writing

/-! Reading and writing that undo each other.  A decoder is exact for an encoder when the bytes that
it takes off for a value are those that the encoder puts out for it.  A value that is not suitable
is written like another one, which is the one that is read.  Records are exact if their fields are
read in the order in which they are written. -/

namespace JvmClass

theorem Output.append_put_nil (o : Output) : o ++ put [] = o := by
  change andThen o (put []) = o
  obtain ⟨out, failure?⟩ := o
  cases failure? <;> simp [andThen, put]

namespace Decoder

open Output

variable {α β : Type} {d : Decoder α} {f : α → Decoder β} {encode : α → Output}
  {encode' : β → Output} {suits : α → Prop} {suits' : β → Prop} {bytes : List UInt8} {a : α}

def Exact (d : Decoder α) (encode : α → Output) (suits : α → Prop) : Prop :=
  Accepts d fun bytes a => suits a ∧ encode a = .put bytes

theorem Exact.decode_eq_ok_iff (exact : Exact d encode suits) :
    d.decode bytes = .ok a ↔ suits a ∧ (encode a).toExcept = .ok bytes := by
  rw [Decoder.decode_eq_ok_iff exact, toExcept_eq_ok_iff]

theorem exact_of_accepts {write : α → List UInt8}
    (accepts : Accepts d fun bytes a => bytes = write a) (puts : ∀ a, encode a = .put (write a)) :
    Exact d encode fun _ => True := by
  refine accepts.congr fun bytes a => ?_
  rw [puts]
  exact ⟨fun same => ⟨trivial, congrArg put same.symm⟩, fun both => (put_injective both.2).symm⟩

theorem exact_u16 : Exact u16 Output.u16 fun _ => True :=
  exact_of_accepts accepts_u16 fun _ => rfl

theorem exact_map (g : α → β) (get : β → α) (exact : Exact d encode suits)
    (left : ∀ a, get (g a) = a) (right : ∀ b, g (get b) = b) :
    Exact (g <$> d) (fun b => encode (get b)) fun b => suits (get b) := by
  refine (accepts_map g exact).congr fun bytes b => ?_
  constructor
  · rintro ⟨a, form, rfl⟩
    beta_reduce
    rwa [left]
  · intro form
    exact ⟨get b, form, (right b).symm⟩

theorem exact_field (get : β → α) (first : Exact d encode suits)
    (fits : ∀ b, suits' b → suits (get b))
    (others : ∀ a, suits a → Exact (f a) encode' fun b => suits' b ∧ get b = a) :
    Exact (d >>= f) (fun b => encode (get b) ++ encode' b) suits' := by
  refine (accepts_bind_of_form first fun a x form => others a form.1).congr fun bytes b => ?_
  constructor
  · rintro ⟨a, x, y, ⟨_, here⟩, ⟨⟨suitable, rfl⟩, there⟩, rfl⟩
    exact ⟨suitable, append_eq_put_iff.mpr ⟨x, y, here, there, rfl⟩⟩
  · rintro ⟨suitable, written⟩
    obtain ⟨x, y, here, there, rfl⟩ := append_eq_put_iff.mp written
    exact ⟨get b, x, y, ⟨fits b suitable, here⟩, ⟨⟨suitable, rfl⟩, there⟩, rfl⟩

/-- The last field determines the record, given the fields before it. -/
theorem exact_last {g : α → β} (get : β → α) (exact : Exact d encode suits)
    (fits : ∀ b, suits' b → suits (get b))
    (whole : ∀ a, suits a → ∀ b, suits' b ∧ get b = a ↔ b = g a) :
    Exact (d >>= fun a => pure (g a)) (fun b => encode (get b)) suits' := by
  have last : Exact (d >>= fun a => pure (g a)) (fun b => encode (get b) ++ .put []) suits' := by
    refine exact_field get exact fits fun a suitable => ?_
    refine (accepts_pure (g a)).congr fun bytes b => ?_
    beta_reduce
    rw [whole a suitable, and_comm]
    exact and_congr_right fun _ => ⟨fun none => none ▸ rfl, fun none => (put_injective none).symm⟩
  simpa only [append_put_nil] using last

theorem exact_times (exact : Exact d encode suits) (n : Nat) :
    Accepts (times n d) fun bytes as =>
      as.length = n ∧ (∀ a ∈ as, suits a) ∧ concat (as.map encode) = .put bytes := by
  induction n with
  | zero =>
    refine (accepts_pure []).congr fun bytes as => ?_
    constructor
    · rintro ⟨rfl, rfl⟩
      exact ⟨rfl, fun a member => absurd member List.not_mem_nil, rfl⟩
    · rintro ⟨empty, _, written⟩
      obtain rfl := List.length_eq_zero_iff.mp empty
      exact ⟨(put_injective written).symm, rfl⟩
  | succ n ih =>
    refine (accepts_bind exact fun a => accepts_bind ih fun as => accepts_pure (a :: as)).congr
      fun bytes as => ?_
    constructor
    · rintro ⟨a, x, _, ⟨suitable, here⟩, ⟨others, y, _, ⟨rfl, each, there⟩, ⟨rfl, rfl⟩, rfl⟩, rfl⟩
      refine ⟨rfl, List.forall_mem_cons.mpr ⟨suitable, each⟩, ?_⟩
      rw [concat_map_cons, here, there, List.append_nil]
      rfl
    · rintro ⟨length, each, written⟩
      cases as with
      | nil => cases length
      | cons a as =>
        obtain ⟨suitable, each⟩ := List.forall_mem_cons.mp each
        rw [concat_map_cons] at written
        obtain ⟨x, y, here, there, rfl⟩ := append_eq_put_iff.mp written
        exact ⟨a, x, y, ⟨suitable, here⟩, ⟨as, y, [], ⟨Nat.succ.inj length, each, there⟩,
          ⟨rfl, rfl⟩, (List.append_nil y).symm⟩, rfl⟩

theorem exact_countedAs (what : String) (exact : Exact d encode suits) :
    Exact (counted d) (countedAs what · encode) fun as => ∀ a ∈ as, suits a := by
  refine (accepts_bind accepts_u16 fun n => exact_times exact n.toNat).congr fun bytes as => ?_
  beta_reduce
  rw [countedAs_eq_put_iff]
  constructor
  · rintro ⟨n, _, y, rfl, ⟨length, each, written⟩, rfl⟩
    exact ⟨each, n, length.symm, y, written, rfl⟩
  · rintro ⟨each, n, length, y, written, rfl⟩
    exact ⟨n, _, y, rfl, ⟨length.symm, each, written⟩, rfl⟩

theorem exact_counted (exact : Exact d encode suits) :
    Exact (Decoder.counted d) (Output.counted · encode) fun as => ∀ a ∈ as, suits a :=
  exact_countedAs _ exact

theorem exact_table (g : List α → β) (get : β → List α) (what : String)
    (exact : Exact d encode fun _ => True) (left : ∀ as, get (g as) = as)
    (right : ∀ b, g (get b) = b) :
    Exact (g <$> counted d) (fun b => countedAs what (get b) encode) fun _ => True := by
  refine (exact_map g get (exact_countedAs what exact) left right).congr fun bytes b => ?_
  exact and_congr_left fun _ => iff_of_true (fun _ _ => trivial) trivial

end Decoder

end JvmClass
