import JvmClass.Pool.Basic

/-!
Constant pools in class files: the count, which is one more than the largest index, and then the
constants.  A constant may not reach past the count.  What was read is put into the pool in the way
in which constants are added, so that it has to have a written form and a place there.
-/

namespace JvmClass.Pool

def encode (p : Pool) : Output := .u16 p.count ++ .concat (p.constants.map Constant.encode)

/-- Puts a constant that was read behind the others.  An equal constant may have come before it. -/
def enter (c : Constant) (p : Pool) : Except Error Pool :=
  match c.checkLength with
  | .error e => .error e
  | .ok () =>
    match push c p with
    | .error e _ => .error e
    | .ok _ q => .ok q

theorem eq_extended_of_enter {c : Constant} {p q : Pool} (entered : enter c p = .ok q) :
    q = p.extended c := by
  unfold enter push at entered
  cases fits : c.checkLength with
  | error e => simp [fits] at entered
  | ok _ =>
    by_cases full : p.count.toNat + Width.width c > 0xFFFF
    · simp [fits, full] at entered
    · simpa [fits, full] using entered.symm

def fill (count : Nat) (p : Pool) : Decoder Pool :=
  if p.entries.next < count then do
    let c ← Constant.decoder
    if p.entries.next + Width.width c > count then
      .fail (.poolSpill p.entries.next count)
    else
      match _ : enter c p with
      | .error e => throw e
      | .ok q => fill count q
  else pure p
termination_by count - p.entries.next
decreasing_by
  rename_i entered
  have := Constant.width_pos c
  rw [eq_extended_of_enter entered, next_extended]
  omega

def decoder : Decoder Pool := do
  let count ← Decoder.u16
  if count = 0 then .fail .zeroPoolCount else fill count.toNat empty

end JvmClass.Pool
