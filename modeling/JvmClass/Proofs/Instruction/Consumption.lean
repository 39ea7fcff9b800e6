import JvmClass.Instruction.Codec
import JvmClass.Code.Listing

/-! How far reading gets.  A decoder takes bytes off the front of the input and counts them, so the
instructions of a code array are read at increasing offsets, all of them inside the array. -/

namespace JvmClass

namespace Decoder

variable {α β : Type} {d : Decoder α} {f : α → Decoder β}

def Advances (d : Decoder α) : Prop :=
  ∀ ⦃s a t⦄, d s = .ok (a, t) →
    ∃ n ≤ s.rest.length, t.position = s.position + n ∧ t.rest = s.rest.drop n

theorem advances_pure (a : α) : Advances (pure a) := by
  intro s b t found
  cases found
  exact ⟨0, Nat.zero_le _, rfl, rfl⟩

theorem advances_fail (why : Malformed) : Advances (fail why : Decoder α) := by
  intro s a t found
  cases found

theorem advances_bind (first : Advances d) (second : ∀ a, Advances (f a)) :
    Advances (d >>= f) := by
  intro s b t found
  change (d s >>= fun p => f p.1 p.2) = .ok (b, t) at found
  obtain ⟨⟨a, u⟩, start, found⟩ := bind_eq_ok found
  obtain ⟨n, room, position, rest⟩ := first start
  obtain ⟨k, room', position', rest'⟩ := second a found
  dsimp only at room' position' rest'
  rw [rest, List.length_drop] at room'
  refine ⟨n + k, by omega, by omega, ?_⟩
  rw [rest', rest, List.drop_drop]

theorem advances_map (g : α → β) (first : Advances d) : Advances (g <$> d) := by
  rw [← bind_pure_comp]
  exact advances_bind first fun a => advances_pure (g a)

theorem advances_ite {c : Prop} [Decidable c] {e : Decoder α} (first : Advances d)
    (second : Advances e) : Advances (if c then d else e) := by
  split <;> assumption

theorem advances_byte : Advances byte := by
  intro s b t found
  unfold byte at found
  split at found
  · cases found
  · rename_i rest
    cases found
    exact ⟨1, by simp [rest], rfl, by simp [rest]⟩

theorem advances_u16 : Advances u16 :=
  advances_bind advances_byte fun _ => advances_bind advances_byte fun _ => advances_pure _

theorem advances_u32 : Advances u32 :=
  advances_bind advances_u16 fun _ => advances_bind advances_u16 fun _ => advances_pure _

theorem advances_i8 : Advances i8 := advances_map _ advances_byte
theorem advances_i16 : Advances i16 := advances_map _ advances_u16
theorem advances_i32 : Advances i32 := advances_map _ advances_u32

theorem advances_times (first : Advances d) (n : Nat) : Advances (times n d) := by
  induction n with
  | zero => exact advances_pure _
  | succ n ih => exact advances_bind first fun _ => advances_bind ih fun _ => advances_pure _

theorem advances_position : Advances position := by
  intro s a t found
  cases found
  exact ⟨0, Nat.zero_le _, rfl, rfl⟩

end Decoder

namespace Instruction

open Decoder

theorem advances_checkRoom (offset count size : Nat) : Advances (checkRoom offset count size) := by
  intro s a t found
  unfold checkRoom at found
  split at found
  · cases found
  · cases found
    exact ⟨0, Nat.zero_le _, rfl, rfl⟩

theorem advances_tableOperands (offset : Nat) : Advances (tableOperands offset) := by
  refine advances_bind (advances_times advances_byte _) fun _ => ?_
  refine advances_bind advances_i32 fun _ => advances_bind advances_i32 fun _ => ?_
  refine advances_bind advances_i32 fun _ => advances_ite (advances_fail _) ?_
  refine advances_bind (advances_checkRoom _ _ _) fun _ => ?_
  exact advances_bind (advances_times advances_i32 _) fun _ => advances_pure _

theorem advances_keyAndTarget : Advances keyAndTarget :=
  advances_bind advances_i32 fun _ => advances_bind advances_i32 fun _ => advances_pure _

theorem advances_lookupOperands (offset : Nat) : Advances (lookupOperands offset) := by
  refine advances_bind (advances_times advances_byte _) fun _ => ?_
  refine advances_bind advances_i32 fun _ => advances_bind advances_i32 fun _ => ?_
  refine advances_ite (advances_fail _) ?_
  refine advances_bind (advances_checkRoom _ _ _) fun _ => ?_
  exact advances_bind (advances_times advances_keyAndTarget _) fun _ => advances_pure _

theorem advances_widened (offset : Nat) : Advances (widened offset) := by
  refine advances_bind advances_byte fun _ => advances_ite ?_ ?_
  · exact advances_bind advances_u16 fun _ => advances_bind advances_i16 fun _ => advances_pure _
  · exact advances_ite (advances_map _ advances_u16) (advances_fail _)

theorem advances_operands (offset : Nat) (op : Opcode) : Advances (operands offset op) := by
  unfold operands
  generalize op.shape? = shape
  cases shape with
  | none => exact advances_fail _
  | some shape =>
    cases shape with
    | none => exact advances_pure _
    | byte => exact advances_map _ advances_i8
    | short => exact advances_map _ advances_i16
    | «local» | shortConstant => exact advances_map _ advances_byte
    | increment =>
      exact advances_bind advances_byte fun _ => advances_bind advances_i8 fun _ => advances_pure _
    | constant => exact advances_map _ advances_u16
    | interfaceCall =>
      refine advances_bind advances_u16 fun _ => advances_bind advances_byte fun _ => ?_
      exact advances_bind advances_byte fun _ => advances_ite (advances_pure _) (advances_fail _)
    | dynamicCall =>
      refine advances_bind advances_u16 fun _ => advances_bind advances_u16 fun _ => ?_
      exact advances_ite (advances_pure _) (advances_fail _)
    | newArray =>
      refine advances_bind advances_byte fun code => ?_
      cases BaseType.ofArrayCode? code with
      | none => exact advances_fail _
      | some t => exact advances_pure _
    | multiArray =>
      exact advances_bind advances_u16 fun _ => advances_bind advances_byte fun _ =>
        advances_pure _
    | branch => exact advances_map _ advances_i16
    | wideBranch => exact advances_map _ advances_i32
    | tableSwitch => exact advances_tableOperands offset
    | lookupSwitch => exact advances_lookupOperands offset
    | wide => exact advances_widened offset

theorem advances_decoder : Advances decoder :=
  advances_bind advances_position fun offset => advances_bind advances_byte fun code =>
    advances_operands offset ⟨code⟩

theorem position_of_decoder {s t : Input} {i : Instruction Int32}
    (found : decoder s = .ok (i, t)) : s.position < t.position ∧
      t.position + t.rest.length = s.position + s.rest.length := by
  obtain ⟨n, room, position, rest⟩ := advances_decoder found
  have shorter := decoder_shrinks found
  rw [rest, List.length_drop] at shorter ⊢
  omega

end Instruction

namespace Listing

open Instruction

variable {s : Input} {read : List (Nat × Instruction Int32)}

/-- Instructions that are decoded off an input, one behind the other, until nothing is left of it. -/
inductive ReadsOff : Input → List (Nat × Instruction Int32) → Prop
  | stop {s : Input} (done : s.rest = []) : ReadsOff s []
  | step {s t : Input} {i : Instruction Int32} {later : List (Nat × Instruction Int32)}
      (here : decoder s = .ok (i, t)) (rest : ReadsOff t later) :
      ReadsOff s ((s.position, i) :: later)

theorem readAll_eq_ok_iff : readAll s = .ok read ↔ ReadsOff s read := by
  constructor
  · intro all
    induction s using readAll.induct generalizing read with
    | case1 s done =>
      rw [readAll, if_pos done] at all
      cases all
      exact .stop (List.isEmpty_iff.mp done)
    | case2 s more e failed =>
      rw [readAll, if_neg more] at all
      split at all
      · cases all
      · rename_i found
        cases failed.symm.trans found
    | case3 s more i t found ih =>
      rw [readAll, if_neg more] at all
      split at all
      · cases all
      · rename_i found'
        cases found.symm.trans found'
        obtain ⟨later, rest, all⟩ := bind_eq_ok all
        cases all
        exact .step found (ih rest)
  · intro reads
    induction reads with
    | stop done =>
      rw [readAll, done]
      rfl
    | @step s t i later here rest ih =>
      have more : ¬ s.rest.isEmpty := by
        intro done
        have shrinks := decoder_shrinks here
        rw [List.isEmpty_iff.mp done] at shrinks
        exact Nat.not_lt_zero _ shrinks
      rw [readAll, if_neg more]
      split
      · rename_i failed
        cases failed.symm.trans here
      · rename_i found
        cases found.symm.trans here
        rw [ih]
        rfl

theorem offsets_readAll (all : readAll s = .ok read) :
    (read.Pairwise fun p q => p.1 < q.1) ∧
      ∀ r ∈ read, s.position ≤ r.1 ∧ r.1 < s.position + s.rest.length := by
  rw [readAll_eq_ok_iff] at all
  induction all with
  | stop => exact ⟨.nil, fun r member => absurd member List.not_mem_nil⟩
  | step here _ ih =>
    obtain ⟨increasing, inside⟩ := ih
    obtain ⟨later, same⟩ := position_of_decoder here
    refine ⟨.cons (fun r member => ?_) increasing, List.forall_mem_cons.mpr ⟨?_, ?_⟩⟩
    · exact Nat.lt_of_lt_of_le later (inside r member).1
    · dsimp only
      omega
    · intro r member
      have := inside r member
      omega

end Listing

end JvmClass
