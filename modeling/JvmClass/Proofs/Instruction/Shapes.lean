import JvmClass.Proofs.Code.Linking
import JvmClass.Proofs.Instruction.Consumption
import JvmClass.Proofs.Instruction.RoundTrip

/-! Instructions that are read have opcodes that take their operands, and keep them when their
targets are linked. -/

namespace JvmClass

def Decoder.Gives {α : Type} (d : Decoder α) (P : α → Prop) : Prop :=
  ∀ ⦃s a t⦄, d s = .ok (a, t) → P a

namespace Decoder

variable {α β : Type} {P : α → Prop} {Q : β → Prop}

theorem gives_pure {a : α} (holds : P a) : Gives (pure a) P := by
  intro s b t found
  cases found
  exact holds

theorem gives_fail (why : Malformed) : Gives (fail why) P := by
  intro s a t found
  cases found

theorem gives_bind {d : Decoder α} {f : α → Decoder β} (later : ∀ a, Gives (f a) Q) :
    Gives (d >>= f) Q := by
  intro s b t found
  change (d s >>= fun p => f p.1 p.2) = .ok (b, t) at found
  obtain ⟨p, _, found⟩ := bind_eq_ok found
  exact later p.1 found

theorem gives_map {d : Decoder α} {f : α → β} (each : ∀ a, Q (f a)) : Gives (f <$> d) Q := by
  intro s b t found
  change (d s >>= fun p => .ok (f p.1, p.2)) = .ok (b, t) at found
  obtain ⟨p, _, found⟩ := bind_eq_ok found
  cases found
  exact each p.1

theorem gives_ite {c : Prop} [Decidable c] {d e : Decoder α} (first : c → Gives d P)
    (second : ¬ c → Gives e P) : Gives (if c then d else e) P := by
  split
  · exact first ‹_›
  · exact second ‹_›

end Decoder

theorem Opcode.shape?_of_isWidenable {op : Opcode} (widens : op.isWidenable = true)
    (other : op ≠ .iinc) : op.shape? = some .local := by
  have all : ∀ op : Opcode, op.isWidenable = true → op ≠ .iinc → op.shape? = some .local := by
    decide +kernel
  exact all op widens other

namespace Instruction

open Decoder

variable {τ σ ε : Type} {op : Opcode} {offset : Nat}

def WellShaped (i : Instruction τ) : Prop :=
  ∃ shape, i.opcode.shape? = some shape ∧ i.takes shape = true

theorem WellShaped.checkShape {i : Instruction τ} (shaped : i.WellShaped) :
    i.checkShape = .ok () := by
  obtain ⟨shape, known, takes⟩ := shaped
  unfold Instruction.checkShape
  conv => lhs; zeta
  rw [known]
  exact if_pos takes

def impliedOpcodes : List Opcode :=
  [.bipush, .sipush, .iinc, .invokeinterface, .invokedynamic, .newarray, .multianewarray,
    .tableswitch, .lookupswitch]

theorem wellShaped_of_implied {i : Instruction τ} (implied : i.opcode ∈ impliedOpcodes)
    (free : ∀ shape, i.takes shape = true) : i.WellShaped := by
  have assigned : ∀ op ∈ impliedOpcodes, op.shape?.isSome = true := by decide +kernel
  obtain ⟨shape, known⟩ := Option.isSome_iff_exists.mp (assigned _ implied)
  exact ⟨shape, known, free shape⟩

theorem gives_tableOperands : Gives (tableOperands offset) WellShaped := by
  refine gives_bind fun _ => gives_bind fun _ => gives_bind fun _ => gives_bind fun _ => ?_
  refine gives_ite (fun _ => gives_fail _) fun _ => ?_
  refine gives_bind fun _ => gives_bind fun _ => gives_pure ?_
  exact wellShaped_of_implied (by simp [impliedOpcodes, opcode]) fun _ => rfl

theorem gives_lookupOperands : Gives (lookupOperands offset) WellShaped := by
  refine gives_bind fun _ => gives_bind fun _ => gives_bind fun _ => ?_
  refine gives_ite (fun _ => gives_fail _) fun _ => ?_
  refine gives_bind fun _ => gives_bind fun _ => gives_pure ?_
  exact wellShaped_of_implied (by simp [impliedOpcodes, opcode]) fun _ => rfl

theorem gives_widened : Gives (widened offset) WellShaped := by
  refine gives_bind fun code => gives_ite (fun _ => ?_) fun other => ?_
  · refine gives_bind fun _ => gives_bind fun _ => gives_pure ?_
    exact wellShaped_of_implied (by simp [impliedOpcodes, opcode]) fun _ => rfl
  · refine gives_ite (fun widens => gives_map fun slot => ?_) fun _ => gives_fail _
    exact ⟨_, Opcode.shape?_of_isWidenable widens other, rfl⟩

theorem gives_operands : Gives (operands offset op) WellShaped := by
  unfold operands
  cases known : op.shape? with
  | none => exact gives_fail _
  | some shape =>
    cases shape with
    | none => exact gives_pure ⟨_, known, rfl⟩
    | byte =>
      exact gives_map fun _ => wellShaped_of_implied (by simp [impliedOpcodes, opcode]) fun _ => rfl
    | short =>
      exact gives_map fun _ => wellShaped_of_implied (by simp [impliedOpcodes, opcode]) fun _ => rfl
    | «local» => exact gives_map fun _ => ⟨_, known, rfl⟩
    | increment =>
      refine gives_bind fun _ => gives_bind fun _ => gives_pure ?_
      exact wellShaped_of_implied (by simp [impliedOpcodes, opcode]) fun _ => rfl
    | shortConstant => exact gives_map fun _ => ⟨_, known, rfl⟩
    | constant => exact gives_map fun _ => ⟨_, known, rfl⟩
    | interfaceCall =>
      refine gives_bind fun _ => gives_bind fun _ => gives_bind fun _ => ?_
      refine gives_ite (fun _ => gives_pure ?_) fun _ => gives_fail _
      exact wellShaped_of_implied (by simp [impliedOpcodes, opcode]) fun _ => rfl
    | dynamicCall =>
      refine gives_bind fun _ => gives_bind fun _ => ?_
      refine gives_ite (fun _ => gives_pure ?_) fun _ => gives_fail _
      exact wellShaped_of_implied (by simp [impliedOpcodes, opcode]) fun _ => rfl
    | newArray =>
      refine gives_bind fun code => ?_
      cases BaseType.ofArrayCode? code with
      | none => exact gives_fail _
      | some t =>
        exact gives_pure (wellShaped_of_implied (by simp [impliedOpcodes, opcode]) fun _ => rfl)
    | multiArray =>
      refine gives_bind fun _ => gives_bind fun _ => gives_pure ?_
      exact wellShaped_of_implied (by simp [impliedOpcodes, opcode]) fun _ => rfl
    | branch => exact gives_map fun _ => ⟨_, known, rfl⟩
    | wideBranch => exact gives_map fun _ => ⟨_, known, rfl⟩
    | tableSwitch => exact gives_tableOperands
    | lookupSwitch => exact gives_lookupOperands
    | wide => exact gives_widened

theorem gives_decoder : Gives decoder WellShaped :=
  gives_bind fun _ => gives_bind fun _ => gives_operands

theorem WellShaped.mapM {f : τ → Except ε σ} {i : Instruction τ} {j : Instruction σ}
    (shaped : i.WellShaped) (found : i.mapM f = .ok j) : j.WellShaped := by
  cases i with
  | branch op t =>
    change branch op <$> f t = .ok j at found
    cases target : f t with
    | error e => rw [target] at found; cases found
    | ok b => rw [target] at found; cases found; exact shaped
  | tableSwitch d low ts =>
    obtain ⟨b, _, found⟩ := bind_eq_ok found
    obtain ⟨bs, _, found⟩ := bind_eq_ok found
    cases found
    exact shaped
  | lookupSwitch s =>
    obtain ⟨pairs, _, found⟩ := bind_eq_ok found
    obtain ⟨b, _, found⟩ := bind_eq_ok found
    cases found
    exact shaped
  | _ =>
    cases found
    exact shaped

end Instruction

namespace Listing

open Instruction

theorem wellShaped_of_readAll {s : Input} {read : List (Nat × Instruction Int32)}
    (all : readAll s = .ok read) : ∀ r ∈ read, r.2.WellShaped := by
  rw [readAll_eq_ok_iff] at all
  induction all with
  | stop => exact fun r member => absurd member List.not_mem_nil
  | step here _ ih => exact List.forall_mem_cons.mpr ⟨gives_decoder here, ih⟩

end Listing

end JvmClass
