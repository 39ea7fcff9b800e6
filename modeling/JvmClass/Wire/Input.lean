import JvmClass.Error

/-!
Reading.  A decoder takes a value off the front of the input and knows how far it has come.
Numbers have their most significant byte first, and a sequence is preceded by the number of its
elements in two bytes.  No decoder gives bytes back: what is left never grows.
-/

namespace JvmClass

structure Input where
  position : Nat
  rest : List UInt8

abbrev Decoder := StateT Input (Except Error)

namespace Input

def ofBytes (bytes : List UInt8) : Input := ⟨0, bytes⟩

def take (n : Nat) (s : Input) : Except Error (List UInt8) × Input :=
  let run := s.rest.take n
  (if run.length = n then .ok run else .error (.malformed (.shortRun n run.length)),
    ⟨s.position + run.length, s.rest.drop n⟩)

end Input

theorem bind_eq_ok {ε α β : Type} {x : Except ε α} {f : α → Except ε β} {b : β}
    (h : (x >>= f) = .ok b) : ∃ a, x = .ok a ∧ f a = .ok b := by
  cases x with
  | error e => cases h
  | ok a => exact ⟨a, rfl, h⟩

namespace Decoder

variable {α β : Type}

def fail (why : Malformed) : Decoder α := fun _ => .error (.malformed why)

def byte : Decoder UInt8 := fun s =>
  match s.rest with
  | [] => .error (.malformed .endOfInput)
  | b :: rest => .ok (b, ⟨s.position + 1, rest⟩)

def u16 : Decoder UInt16 := do
  let a ← byte
  let b ← byte
  return a.toUInt16 <<< 8 ||| b.toUInt16

def u32 : Decoder UInt32 := do
  let a ← u16
  let b ← u16
  return a.toUInt32 <<< 16 ||| b.toUInt32

def u64 : Decoder UInt64 := do
  let a ← u32
  let b ← u32
  return a.toUInt64 <<< 32 ||| b.toUInt64

def i8 : Decoder Int8 := UInt8.toInt8 <$> byte
def i16 : Decoder Int16 := UInt16.toInt16 <$> u16
def i32 : Decoder Int32 := UInt32.toInt32 <$> u32
def i64 : Decoder Int64 := UInt64.toInt64 <$> u64

def run (n : Nat) : Decoder (List UInt8) := fun s =>
  match s.take n with
  | (.ok bytes, rest) => .ok (bytes, rest)
  | (.error e, _) => .error e

def times : Nat → Decoder α → Decoder (List α)
  | 0, _ => pure []
  | n + 1, d => do
    let a ← d
    let as ← times n d
    return a :: as

def counted (d : Decoder α) : Decoder (List α) := do
  let n ← u16
  times n.toNat d

def decode (d : Decoder α) (bytes : List UInt8) : Except Error α :=
  match d (.ofBytes bytes) with
  | .error e => .error e
  | .ok (a, ⟨_, []⟩) => .ok a
  | .ok (_, ⟨position, _ :: _⟩) => .error (.malformed (.leftover bytes.length position))

def NeverGrows (d : Decoder α) : Prop :=
  ∀ ⦃s a t⦄, d s = .ok (a, t) → t.rest.length ≤ s.rest.length

theorem neverGrows_pure (a : α) : NeverGrows (pure a) := by
  intro s b t h
  cases h
  exact Nat.le_refl _

theorem neverGrows_fail (why : Malformed) : NeverGrows (fail why : Decoder α) := by
  intro s a t h
  cases h

theorem neverGrows_bind {d : Decoder α} {f : α → Decoder β} (hd : NeverGrows d)
    (hf : ∀ a, NeverGrows (f a)) : NeverGrows (d >>= f) := by
  intro s b t h
  change (d s >>= fun p => f p.1 p.2) = .ok (b, t) at h
  obtain ⟨p, hs, h⟩ := bind_eq_ok h
  exact Nat.le_trans (hf p.1 h) (hd hs)

theorem neverGrows_map {d : Decoder α} (f : α → β) (hd : NeverGrows d) : NeverGrows (f <$> d) := by
  rw [← bind_pure_comp]
  exact neverGrows_bind hd fun a => neverGrows_pure (f a)

theorem byte_shrinks {s t : Input} {b : UInt8} (h : byte s = .ok (b, t)) :
    t.rest.length < s.rest.length := by
  unfold byte at h
  split at h
  · cases h
  · rename_i hs
    cases h
    rw [hs]
    exact Nat.lt_succ_self _

theorem neverGrows_byte : NeverGrows byte := fun _ _ _ h => Nat.le_of_lt (byte_shrinks h)

theorem neverGrows_u16 : NeverGrows u16 :=
  neverGrows_bind neverGrows_byte fun _ => neverGrows_bind neverGrows_byte fun _ => neverGrows_pure _

theorem neverGrows_u32 : NeverGrows u32 :=
  neverGrows_bind neverGrows_u16 fun _ => neverGrows_bind neverGrows_u16 fun _ => neverGrows_pure _

theorem neverGrows_i8 : NeverGrows i8 := neverGrows_map _ neverGrows_byte
theorem neverGrows_i16 : NeverGrows i16 := neverGrows_map _ neverGrows_u16
theorem neverGrows_i32 : NeverGrows i32 := neverGrows_map _ neverGrows_u32

theorem neverGrows_times {d : Decoder α} (hd : NeverGrows d) (n : Nat) : NeverGrows (times n d) := by
  induction n with
  | zero => exact neverGrows_pure _
  | succ n ih => exact neverGrows_bind hd fun _ => neverGrows_bind ih fun _ => neverGrows_pure _

end Decoder

end JvmClass
