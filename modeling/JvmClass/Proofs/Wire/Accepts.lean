import JvmClass.Proofs.Results
import JvmClass.Proofs.Wire.Reads

/-! What a decoder accepts.  `Accepts d P` says that the decoder gives a value just when the input
begins with bytes that are a form of that value, which it takes off.  A value may have several
forms; how a decoder is put together tells how its forms are. -/

namespace JvmClass.Decoder

open Output

variable {α β ρ : Type}

def Accepts (d : Decoder α) (P : List UInt8 → α → Prop) : Prop :=
  ∀ s a t, d s = .ok (a, t) ↔
    ∃ bytes, P bytes a ∧ s.rest = bytes ++ t.rest ∧ t.position = s.position + bytes.length

/-- One form after another, where the second value may depend on the first. -/
def Then (P : List UInt8 → α → Prop) (Q : α → List UInt8 → β → Prop) (bytes : List UInt8)
    (b : β) : Prop :=
  ∃ a x y, P x a ∧ Q a y b ∧ bytes = x ++ y

variable {d : Decoder α} {P P' : List UInt8 → α → Prop} {f : α → Decoder β}
  {Q : α → List UInt8 → β → Prop}

theorem Accepts.congr (accepts : Accepts d P) (same : ∀ bytes a, P bytes a ↔ P' bytes a) :
    Accepts d P' := by
  intro s a t
  rw [accepts s a t]
  simp only [same]

theorem decode_eq_ok_iff (accepts : Accepts d P) {bytes : List UInt8} {a : α} :
    d.decode bytes = .ok a ↔ P bytes a := by
  have whole : d.decode bytes = .ok a ↔ ∃ n, d ⟨0, bytes⟩ = .ok (a, ⟨n, []⟩) := by
    unfold decode Input.ofBytes
    split
    · rename_i failed
      rw [failed]
      simp
    · rename_i found
      rw [found]
      simp [eq_comm]
    · rename_i found
      rw [found]
      simp
  rw [whole]
  constructor
  · rintro ⟨n, found⟩
    obtain ⟨x, form, same, _⟩ := (accepts _ _ _).mp found
    simp only [List.append_nil] at same
    exact same ▸ form
  · intro form
    exact ⟨_, (accepts ⟨0, bytes⟩ a ⟨0 + bytes.length, []⟩).mpr
      ⟨bytes, form, (List.append_nil bytes).symm, rfl⟩⟩

theorem accepts_pure (a : α) : Accepts (pure a) fun bytes b => bytes = [] ∧ b = a := by
  intro s b t
  constructor
  · intro same
    cases same
    exact ⟨[], ⟨rfl, rfl⟩, rfl, rfl⟩
  · rintro ⟨_, ⟨rfl, rfl⟩, rest, position⟩
    obtain ⟨p, r⟩ := s
    obtain ⟨q, r'⟩ := t
    cases rest
    cases position
    rfl

theorem accepts_throw (e : Error) : Accepts (throw e : Decoder α) fun _ _ => False := by
  intro s a t
  constructor
  · intro same
    cases same
  · rintro ⟨_, none, _⟩
    exact none.elim

theorem accepts_fail (why : Malformed) : Accepts (fail why : Decoder α) fun _ _ => False :=
  accepts_throw (.malformed why)

theorem accepts_guard {p : Prop} [Decidable p] (accepts : Accepts d P) (why : Malformed) :
    Accepts (if ¬ p then .fail why else d) fun bytes a => p ∧ P bytes a := by
  by_cases holds : p
  · rw [if_neg (not_not_intro holds)]
    exact accepts.congr fun _ _ => (and_iff_right holds).symm
  · rw [if_pos holds]
    exact (accepts_fail why).congr fun _ _ => iff_of_false id fun both => holds both.1

theorem accepts_bind_of_form (first : Accepts d P)
    (second : ∀ a x, P x a → Accepts (f a) (Q a)) : Accepts (d >>= f) (Then P Q) := by
  intro s b t
  constructor
  · intro found
    change (d s >>= fun p => f p.1 p.2) = .ok (b, t) at found
    obtain ⟨⟨a, u⟩, one, two⟩ := bind_eq_ok found
    obtain ⟨x, here, rest, position⟩ := (first s a u).mp one
    obtain ⟨y, there, rest', position'⟩ := (second a x here u b t).mp two
    refine ⟨x ++ y, ⟨a, x, y, here, there, rfl⟩, ?_, ?_⟩
    · rw [rest, rest', List.append_assoc]
    · rw [position', position, List.length_append, Nat.add_assoc]
  · rintro ⟨_, ⟨a, x, y, here, there, rfl⟩, rest, position⟩
    have one : d s = .ok (a, ⟨s.position + x.length, y ++ t.rest⟩) :=
      (first _ _ _).mpr ⟨x, here, by rw [rest, List.append_assoc], rfl⟩
    have two : f a ⟨s.position + x.length, y ++ t.rest⟩ = .ok (b, t) := by
      refine (second a x here _ _ _).mpr ⟨y, there, rfl, ?_⟩
      rw [position, List.length_append, Nat.add_assoc]
    change (d s >>= fun p => f p.1 p.2) = .ok (b, t)
    rw [one]
    exact two

theorem accepts_bind (first : Accepts d P) (second : ∀ a, Accepts (f a) (Q a)) :
    Accepts (d >>= f) (Then P Q) :=
  accepts_bind_of_form first fun a _ _ => second a

theorem accepts_map (g : α → β) (accepts : Accepts d P) :
    Accepts (g <$> d) fun bytes b => ∃ a, P bytes a ∧ b = g a := by
  rw [← bind_pure_comp]
  refine (accepts_bind accepts fun a => accepts_pure (g a)).congr fun bytes b => ?_
  constructor
  · rintro ⟨a, x, y, form, ⟨rfl, rfl⟩, rfl⟩
    exact ⟨a, by rwa [List.append_nil], rfl⟩
  · rintro ⟨a, form, rfl⟩
    exact ⟨a, bytes, [], form, ⟨rfl, rfl⟩, (List.append_nil bytes).symm⟩

theorem accepts_byte : Accepts byte fun bytes b => bytes = [b] := by
  intro s b t
  unfold byte
  constructor
  · intro found
    split at found
    · cases found
    · rename_i rest same
      cases found
      exact ⟨[b], rfl, same, rfl⟩
  · rintro ⟨_, rfl, rest, position⟩
    rw [rest]
    obtain ⟨q, r⟩ := t
    cases position
    rfl

theorem split16_join (a b : UInt8) : u16Bytes (a.toUInt16 <<< 8 ||| b.toUInt16) = [a, b] := by
  have joined := toNat_join16 a b
  have high := a.toNat_lt
  have low := b.toNat_lt
  have first : ((a.toUInt16 <<< 8 ||| b.toUInt16) >>> 8).toUInt8 = a := by
    apply UInt8.toNat_inj.mp
    rw [toNat_high16, joined]
    omega
  have second : (a.toUInt16 <<< 8 ||| b.toUInt16).toUInt8 = b := by
    apply UInt8.toNat_inj.mp
    rw [UInt16.toNat_toUInt8, joined]
    omega
  rw [u16Bytes, first, second]

theorem split32_join (a b : UInt16) :
    u32Bytes (a.toUInt32 <<< 16 ||| b.toUInt32) = u16Bytes a ++ u16Bytes b := by
  have joined := toNat_join32 a b
  have high := a.toNat_lt
  have low := b.toNat_lt
  have first : ((a.toUInt32 <<< 16 ||| b.toUInt32) >>> 16).toUInt16 = a := by
    apply UInt16.toNat_inj.mp
    rw [toNat_high32, joined]
    omega
  have second : (a.toUInt32 <<< 16 ||| b.toUInt32).toUInt16 = b := by
    apply UInt16.toNat_inj.mp
    rw [UInt32.toNat_toUInt16, joined]
    omega
  rw [u32Bytes, first, second]

theorem split64_join (a b : UInt32) :
    u64Bytes (a.toUInt64 <<< 32 ||| b.toUInt64) = u32Bytes a ++ u32Bytes b := by
  have joined := toNat_join64 a b
  have high := a.toNat_lt
  have low := b.toNat_lt
  have first : ((a.toUInt64 <<< 32 ||| b.toUInt64) >>> 32).toUInt32 = a := by
    apply UInt32.toNat_inj.mp
    rw [toNat_high64, joined]
    omega
  have second : (a.toUInt64 <<< 32 ||| b.toUInt64).toUInt32 = b := by
    apply UInt32.toNat_inj.mp
    rw [UInt64.toNat_toUInt32, joined]
    omega
  rw [u64Bytes, first, second]

theorem accepts_join {e : α → List UInt8} {e' : β → List UInt8} {join : α → α → β}
    {high low : β → α} (half : Accepts d fun bytes a => bytes = e a)
    (split : ∀ a b, e' (join a b) = e a ++ e b) (back : ∀ w, join (high w) (low w) = w) :
    Accepts (d >>= fun a => d >>= fun b => pure (join a b)) fun bytes w => bytes = e' w := by
  have whole := accepts_bind half fun a => accepts_bind half fun b => accepts_pure (join a b)
  refine whole.congr fun bytes w => ?_
  constructor
  · rintro ⟨a, _, _, rfl, ⟨b, _, _, rfl, ⟨rfl, rfl⟩, rfl⟩, rfl⟩
    rw [split, List.append_nil]
  · rintro rfl
    refine ⟨high w, e (high w), e (low w), rfl, ⟨low w, e (low w), [], rfl, ⟨rfl, ?_⟩, ?_⟩, ?_⟩
    · exact (back w).symm
    · exact (List.append_nil _).symm
    · rw [← split, back]

theorem accepts_u16 : Accepts u16 fun bytes w => bytes = u16Bytes w :=
  accepts_join accepts_byte split16_join join16_split

theorem accepts_u32 : Accepts u32 fun bytes w => bytes = u32Bytes w :=
  accepts_join accepts_u16 split32_join join32_split

theorem accepts_u64 : Accepts u64 fun bytes w => bytes = u64Bytes w :=
  accepts_join accepts_u32 split64_join join64_split

theorem accepts_cast {e : α → List UInt8} {g : α → β} {g' : β → α}
    (accepts : Accepts d fun bytes a => bytes = e a) (left : ∀ a, g' (g a) = a)
    (right : ∀ b, g (g' b) = b) : Accepts (g <$> d) fun bytes b => bytes = e (g' b) := by
  refine (accepts_map g accepts).congr fun bytes b => ?_
  constructor
  · rintro ⟨a, rfl, rfl⟩
    rw [left]
  · rintro rfl
    exact ⟨g' b, rfl, (right b).symm⟩

theorem accepts_i32 : Accepts i32 fun bytes n => bytes = u32Bytes n.toUInt32 :=
  accepts_cast accepts_u32 (fun _ => rfl) fun _ => rfl

theorem accepts_i64 : Accepts i64 fun bytes n => bytes = u64Bytes n.toUInt64 :=
  accepts_cast accepts_u64 (fun _ => rfl) fun _ => rfl

theorem accepts_run (n : Nat) : Accepts (run n) fun bytes a => bytes = a ∧ a.length = n := by
  intro s a t
  constructor
  · intro found
    unfold run Input.take at found
    dsimp only at found
    by_cases enough : (s.rest.take n).length = n
    · rw [if_pos enough] at found
      cases found
      exact ⟨_, ⟨rfl, enough⟩, (List.take_append_drop n s.rest).symm, rfl⟩
    · rw [if_neg enough] at found
      cases found
  · rintro ⟨bytes, ⟨rfl, rfl⟩, rest, position⟩
    have found := reads_run bytes s.position t.rest
    rw [← rest, ← position] at found
    exact found

/-- Values written in forms that are made of something, which stands for the value. -/
def Rendered (stands : ρ → α → Prop) (write : ρ → List UInt8) (bytes : List UInt8) (a : α) :
    Prop :=
  ∃ r, stands r a ∧ bytes = write r

variable {stands : ρ → α → Prop} {write : ρ → List UInt8}

theorem accepts_times (accepts : Accepts d (Rendered stands write)) (n : Nat) :
    Accepts (times n d) fun bytes as =>
      ∃ rs, List.Forall₂ stands rs as ∧ rs.length = n ∧ bytes = rs.flatMap write := by
  induction n with
  | zero =>
    refine (accepts_pure []).congr fun bytes as => ?_
    constructor
    · rintro ⟨rfl, rfl⟩
      exact ⟨[], .nil, rfl, rfl⟩
    · rintro ⟨rs, each, empty, rfl⟩
      obtain rfl := List.length_eq_zero_iff.mp empty
      cases each
      exact ⟨rfl, rfl⟩
  | succ n ih =>
    have whole := accepts_bind accepts fun a => accepts_bind ih fun as => accepts_pure (a :: as)
    refine whole.congr fun bytes as => ?_
    constructor
    · rintro ⟨a, _, _, ⟨r, first, rfl⟩, ⟨others, _, _, ⟨rs, each, length, rfl⟩, ⟨rfl, rfl⟩, rfl⟩,
        rfl⟩
      refine ⟨r :: rs, .cons first each, ?_, ?_⟩
      · rw [List.length_cons, length]
      · rw [List.flatMap_cons, List.append_nil]
    · rintro ⟨rs, each, length, rfl⟩
      cases each with
      | nil => cases length
      | @cons r a rs as first each =>
        refine ⟨a, write r, rs.flatMap write, ⟨r, first, rfl⟩, ⟨as, rs.flatMap write, [],
          ⟨rs, each, Nat.succ.inj length, rfl⟩, ⟨rfl, rfl⟩, (List.append_nil _).symm⟩, rfl⟩

def countedBytes (write : ρ → List UInt8) (rs : List ρ) : List UInt8 :=
  u16Bytes rs.length.toUInt16 ++ rs.flatMap write

def Each (stands : ρ → α → Prop) (rs : List ρ) (as : List α) : Prop :=
  List.Forall₂ stands rs as ∧ rs.length < 65536

theorem accepts_counted (accepts : Accepts d (Rendered stands write)) :
    Accepts (counted d) (Rendered (Each stands) (countedBytes write)) := by
  have whole := accepts_bind accepts_u16 fun n => accepts_times accepts n.toNat
  refine whole.congr fun bytes as => ?_
  constructor
  · rintro ⟨n, _, _, rfl, ⟨rs, each, length, rfl⟩, rfl⟩
    have bound := n.toNat_lt
    refine ⟨rs, ⟨each, by omega⟩, ?_⟩
    rw [countedBytes, length]
    simp
  · rintro ⟨rs, ⟨each, short⟩, rfl⟩
    have count : rs.length.toUInt16.toNat = rs.length :=
      UInt16.toNat_ofNat_of_lt' short
    exact ⟨_, _, _, rfl, ⟨rs, each, count.symm, rfl⟩, rfl⟩

end JvmClass.Decoder
