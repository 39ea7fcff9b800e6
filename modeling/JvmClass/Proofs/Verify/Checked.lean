import JvmClass.Proofs.Instruction.Shapes
import JvmClass.Proofs.Verify.References
import JvmClass.Verify.CodeRules
import JvmClass.Verify.Effect

/-! What is known of opcodes, constants and operands that have passed the rules for them.  Opcodes
that are simulated one by one are all accounted for, class names and descriptors can be read, and
the operands of an instruction name constants of the right kinds. -/

namespace JvmClass

namespace Opcode

variable {op : Opcode} {shape : OperandShape}

theorem effect_of_special {e : Entry} (known : op.entry? = some e)
    (special : op.fixedEffect? = none) : e.effect = .special := by
  obtain ⟨mnemonic, shape, facets, effect⟩ := e
  cases effect with
  | fixed pops pushes =>
    unfold fixedEffect? at special
    rw [known] at special
    cases special
  | special => rfl

theorem row_of_special (known : op.shape? = some shape) (special : op.fixedEffect? = none) :
    ∃ e n, (e, n) ∈ table.toList.zipIdx ∧ op = ⟨UInt8.ofNat n⟩ ∧ e.shape = shape ∧
      e.effect = .special := by
  obtain ⟨e, entry, same⟩ := Option.map_eq_some_iff.mp known
  obtain ⟨n, row, code⟩ := row_of_entry? entry
  exact ⟨e, n, row, code, same, effect_of_special entry special⟩

theorem named_or_explicit {a : LocalAccess} (known : op.shape? = some shape)
    (found : op.localAccess? = some a) :
    shape = .local ∨ shape = .none ∧ a.named?.isSome = true := by
  have rows : ∀ row ∈ table.toList.zipIdx, ∀ a ∈ localAccess? ⟨UInt8.ofNat row.2⟩,
      row.1.shape = .local ∨ row.1.shape = .none ∧ a.named?.isSome = true := by
    decide +kernel
  obtain ⟨e, n, row, rfl, rfl⟩ := row_of_shape? known
  exact rows (e, n) row a found

def isSimulated : Opcode → Bool
  | aconstNull | pop | popTwo | dup | dupX1 | dupX2 | dupTwo | dupTwoX1 | dupTwoX2 | swap
  | voidReturn | athrow | arraylength => true
  | _ => false

theorem isSimulated_or (bare : op.shape? = some .none) (special : op.fixedEffect? = none)
    (accesses : op.localAccess? = none) : op.isSimulated = true ∨ op.arrayLoad?.isSome = true ∨
      op.arrayStore?.isSome = true ∨ op.returnKind?.isSome = true := by
  have each : ∀ row ∈ table.toList.zipIdx, row.1.shape = .none → row.1.effect = .special →
      localAccess? ⟨UInt8.ofNat row.2⟩ = none → isSimulated ⟨UInt8.ofNat row.2⟩ = true ∨
        (arrayLoad? ⟨UInt8.ofNat row.2⟩).isSome = true ∨
        (arrayStore? ⟨UInt8.ofNat row.2⟩).isSome = true ∨
        (returnKind? ⟨UInt8.ofNat row.2⟩).isSome = true := by
    decide +kernel
  obtain ⟨e, n, row, rfl, same, unfixed⟩ := row_of_special bare special
  exact each (e, n) row same unfixed accesses

def resolves : Opcode → Bool
  | ldc | ldcWide | ldcTwo | getstatic | putstatic | getfield | putfield | invokevirtual
  | invokespecial | invokestatic | new | anewarray | checkcast => true
  | _ => false

theorem resolves_of_constant (shape : op.shape? = some .constant ∨ op.shape? = some .shortConstant)
    (special : op.fixedEffect? = none) : op.resolves = true := by
  have each : ∀ row ∈ table.toList.zipIdx, row.1.shape = .constant → row.1.effect = .special →
      resolves ⟨UInt8.ofNat row.2⟩ = true := by
    decide +kernel
  rcases shape with long | short
  · obtain ⟨e, n, row, rfl, same, unfixed⟩ := row_of_special long special
    exact each (e, n) row same unfixed
  · rw [eq_ldc_of_shape short]
    decide

theorem isSubroutine_of_branch (shape : op.shape? = some .branch ∨ op.shape? = some .wideBranch)
    (special : op.fixedEffect? = none) : op.hasFacet .subroutine = true := by
  have each : ∀ row ∈ table.toList.zipIdx, row.1.shape = .branch ∨ row.1.shape = .wideBranch →
      row.1.effect = .special → hasFacet ⟨UInt8.ofNat row.2⟩ .subroutine = true := by
    decide +kernel
  rcases shape with short | wide
  · obtain ⟨e, n, row, rfl, same, unfixed⟩ := row_of_special short special
    exact each (e, n) row (.inl same) unfixed
  · obtain ⟨e, n, row, rfl, same, unfixed⟩ := row_of_special wide special
    exact each (e, n) row (.inr same) unfixed

theorem eq_ret_of_local (explicit : op.shape? = some .local) (accesses : op.localAccess? = none) :
    op = .ret := by
  have rows : ∀ row ∈ table.toList.zipIdx, row.1.shape = .local →
      localAccess? ⟨UInt8.ofNat row.2⟩ = none → (⟨UInt8.ofNat row.2⟩ : Opcode) = .ret := by
    decide +kernel
  obtain ⟨e, n, row, rfl, same⟩ := row_of_shape? explicit
  exact rows (e, n) row same accesses

end Opcode

namespace Instruction

variable {τ : Type}

theorem shape?_of_plain {op : Opcode} (rule : (plain op : Instruction τ).checkShape = .ok ()) :
    op.shape? = some .none := by
  obtain ⟨shape, known, takes⟩ := takes_of_checkShape rule
  exact eq_of_beq takes ▸ known

theorem shape?_of_localVariable {op : Opcode} {slot : UInt16}
    (rule : (localVariable op slot : Instruction τ).checkShape = .ok ()) :
    op.shape? = some .local := by
  obtain ⟨shape, known, takes⟩ := takes_of_checkShape rule
  exact eq_of_beq takes ▸ known

theorem shape?_of_constant {op : Opcode} {index : UInt16}
    (rule : (constant op index : Instruction τ).checkShape = .ok ()) :
    op.shape? = some .constant ∨ op.shape? = some .shortConstant := by
  obtain ⟨shape, known, takes⟩ := takes_of_checkShape rule
  obtain same | same := Bool.or_eq_true_iff.mp takes
  · exact .inl (eq_of_beq same ▸ known)
  · exact .inr (eq_of_beq same ▸ known)

theorem shape?_of_branch {op : Opcode} {t : τ}
    (rule : (branch op t : Instruction τ).checkShape = .ok ()) :
    op.shape? = some .branch ∨ op.shape? = some .wideBranch := by
  obtain ⟨shape, known, takes⟩ := takes_of_checkShape rule
  obtain same | same := Bool.or_eq_true_iff.mp takes
  · exact .inl (eq_of_beq same ▸ known)
  · exact .inr (eq_of_beq same ▸ known)

theorem exists_slot_of_localAccess? {i : Instruction τ} {a : LocalAccess}
    (rule : i.checkShape = .ok ()) (found : i.opcode.localAccess? = some a) :
    ∃ slot, i.slot? = some slot := by
  cases i with
  | plain op =>
    obtain absent | ⟨_, named⟩ := Opcode.named_or_explicit (shape?_of_plain rule) found
    · cases absent
    · obtain ⟨slot, named⟩ := Option.isSome_iff_exists.mp named
      refine ⟨slot, ?_⟩
      change op.localAccess? = some a at found
      rw [slot?, found]
      exact named
  | localVariable op slot => exact ⟨slot, rfl⟩
  | constant op index =>
    rcases shape?_of_constant rule with known | known <;>
      exact absurd (Opcode.named_or_explicit known found) (by simp)
  | branch op t =>
    rcases shape?_of_branch rule with known | known <;>
      exact absurd (Opcode.named_or_explicit known found) (by simp)
  | _ =>
    have none : ∀ op ∈ impliedOpcodes, op.localAccess? = none := by decide +kernel
    rw [none _ (by simp [impliedOpcodes, opcode])] at found
    cases found

end Instruction

namespace CodeContext

variable {c : CodeContext} {i slot : UInt16} {op : Opcode}

theorem checkSlot_eq_ok_iff {n : Nat} :
    c.checkSlot slot n = .ok () ↔ slot.toNat + n ≤ c.maxLocals.toNat := by
  unfold checkSlot
  split <;> simp only [reduceCtorEq, false_iff, true_iff] <;> omega

theorem exists_of_checkField (rule : c.checkField i = .ok ()) :
    ∃ m, c.pool.getMemberRef i = .ok m ∧ m.kind = .field := by
  obtain ⟨m, found, rule⟩ := bind_eq_ok rule
  refine ⟨m, mapError_eq_ok_iff.mp found, ?_⟩
  by_contra other
  rw [if_pos other] at rule
  cases rule

theorem exists_of_checkMethod (rule : c.checkMethod op i = .ok ()) :
    ∃ m, c.pool.getMemberRef i = .ok m ∧ m.kind ≠ .field := by
  obtain ⟨m, found, rule⟩ := bind_eq_ok rule
  refine ⟨m, mapError_eq_ok_iff.mp found, fun field => ?_⟩
  rw [if_pos field] at rule
  cases rule

theorem exists_of_checkInterfaceCall {count : UInt8}
    (rule : c.checkInterfaceCall i count = .ok ()) :
    ∃ m, c.pool.getMemberRef i = .ok m ∧ m.kind ≠ .field := by
  obtain ⟨m, found, rule⟩ := bind_eq_ok rule
  refine ⟨m, mapError_eq_ok_iff.mp found, fun field => ?_⟩
  have other : m.kind ≠ .interfaceMethod := by
    rw [field]
    exact MemberKind.noConfusion
  rw [if_pos other] at rule
  cases rule

theorem exists_of_checkDynamicCall (rule : c.checkDynamicCall i = .ok ()) :
    ∃ k, c.pool.get i = .ok k ∧ ∃ bootstrap pair, k = .invokeDynamic bootstrap pair := by
  obtain ⟨k, found, rule⟩ := bind_eq_ok rule
  refine ⟨k, mapError_eq_ok_iff.mp found, ?_⟩
  cases k with
  | invokeDynamic bootstrap pair => exact ⟨bootstrap, pair, rfl⟩
  | _ => cases rule

theorem exists_of_checkLoaded (rule : c.checkLoaded op i = .ok ()) :
    ∃ k, c.pool.get i = .ok k ∧ isLoadedBy op k = true := by
  obtain ⟨k, found, rule⟩ := bind_eq_ok rule
  refine ⟨k, mapError_eq_ok_iff.mp found, ?_⟩
  cases loads : isLoadedBy op k with
  | true => rfl
  | false =>
    rw [loads] at rule
    cases rule

theorem exists_of_classOperand {r : RefType} (found : c.classOperand i = .ok r) :
    ∃ name, c.pool.getClassName i = .ok name ∧ RefType.ofClassName name = .ok r := by
  obtain ⟨name, named, read⟩ := bind_eq_ok found
  exact ⟨name, mapError_eq_ok_iff.mp named, mapError_eq_ok_iff.mp read⟩

end CodeContext

end JvmClass
