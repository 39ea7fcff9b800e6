import JvmClass.Proofs.Verify.Checked
import JvmClass.Proofs.Verify.Guarded

/-! Instructions that have passed the rules for their class and for themselves find the constants
that they name, with names and descriptors that can be read, and their local variables; so
whatever fails when one of them acts on a frame is the fault of the frame. -/

namespace JvmClass

namespace MethodContext

open JvmClass.Frame ClassFile

variable {α τ : Type} {checked : Prop} {size : Nat} {d : Discipline size} {c : MethodContext}
  {i : UInt16} {op : Opcode} {offset : Nat} {text : String}

theorem guarded_found {x : Except PoolFault α} {P : α → Prop}
    (known : checked → ∃ a, x = .ok a ∧ P a) :
    Guarded checked d (MethodContext.found x) fun a => x = .ok a ∧ (checked → P a) := by
  refine guarded_liftExcept (fun a found => ?_) fun established e failed => ?_
  · have found := mapError_eq_ok_iff.mp found
    refine ⟨found, fun established => ?_⟩
    obtain ⟨b, found', holds⟩ := known established
    cases found.symm.trans found'
    exact holds
  · obtain ⟨a, found, _⟩ := known established
    rw [found] at failed
    cases failed

theorem guarded_namedClass (read : checked → ∃ r, RefType.ofClassName text = .ok r) :
    Guarded checked d (namedClass text) fun _ => True := by
  refine guarded_liftExcept (fun _ _ => trivial) fun established e failed => ?_
  obtain ⟨r, found⟩ := read established
  rw [found] at failed
  cases failed

theorem guarded_fieldType (read : checked → ∃ t, FieldType.parse text = .ok t) :
    Guarded checked d (fieldType text) VType.Finished := by
  unfold fieldType
  split
  · exact guarded_pure (VType.finished_ofFieldType _)
  · rename_i failed
    refine guarded_throw fun established => ?_
    obtain ⟨t, found⟩ := read established
    cases found.symm.trans failed

theorem guarded_methodType (read : checked → ∃ t, MethodType.parse text = .ok t) :
    Guarded checked d (methodType text) fun _ => True := by
  unfold methodType
  split
  · exact guarded_pure trivial
  · rename_i failed
    refine guarded_throw fun established => ?_
    obtain ⟨t, found⟩ := read established
    cases found.symm.trans failed

theorem guarded_classType (named : checked → ∃ name, c.pool.getClassName i = .ok name ∧
    ∃ r, RefType.ofClassName name = .ok r) :
    Guarded checked d (c.classType i) VType.Finished := by
  refine guarded_bind (guarded_found named) fun name found => ?_
  exact guarded_bind (guarded_namedClass found.2) fun r _ =>
    guarded_pure (VType.finished_object _)

theorem guarded_loadedType {k : Constant} (pool : checked → checkPool c.pool = .ok ())
    (loads : checked → c.pool.get i = .ok k ∧ CodeContext.isLoadedBy op k = true) :
    Guarded checked d (c.loadedType k) VType.Finished := by
  unfold loadedType
  split
  case h_9 bootstrap pair =>
    refine guarded_bind (guarded_found fun established => ?_) fun names found =>
      guarded_fieldType found.2
    exact parse_of_dynamic (pool established) (loads established).1
  case h_10 k _ _ _ _ _ _ _ _ _ =>
    refine guarded_throw fun established => ?_
    have loaded := (loads established).2
    cases k <;> simp [CodeContext.isLoadedBy, Constant.isSingleLoadable] at loaded
  all_goals exact guarded_pure ⟨VType.noConfusion, rfl⟩

theorem guarded_loadConstant (pool : checked → checkPool c.pool = .ok ())
    (rule : checked → ∃ k, c.pool.get i = .ok k ∧ CodeContext.isLoadedBy op k = true) :
    Guarded checked d (c.loadConstant op i) fun _ => True := by
  refine guarded_bind (guarded_found rule) fun k found => ?_
  have loads (established : checked) := And.intro found.1 (found.2 established)
  refine guarded_bind (guarded_loadedType pool loads) fun t finished => ?_
  exact guarded_ite (fun _ => guarded_pushFinished finished) fun _ => guarded_throw fun _ => rfl

theorem guarded_popOwner (owner : String) :
    Guarded checked d (c.popOwner owner) fun _ => True := by
  refine guarded_bind guarded_pop fun t _ => ?_
  refine guarded_ite (fun _ => guarded_pure trivial) fun _ => ?_
  refine guarded_ite (fun _ => guarded_throw fun _ => rfl) fun _ => ?_
  exact guarded_ite (fun _ => guarded_throw fun _ => rfl) fun _ => guarded_pure trivial

theorem guarded_accessField (pool : checked → checkPool c.pool = .ok ())
    (rule : checked → ∃ m, c.pool.getMemberRef i = .ok m ∧ m.kind = .field) :
    Guarded checked d (c.accessField op i) fun _ => True := by
  refine guarded_bind (guarded_found rule) fun m found => ?_
  refine guarded_bind (guarded_fieldType fun established => ?_) fun t finished => ?_
  · exact (parse_of_getMemberRef (pool established) found.1).2.1 (found.2 established)
  · split
    · exact guarded_pushFinished finished
    · exact guarded_discard (guarded_popExpecting t)
    · exact guarded_seq (guarded_discard guarded_popReference) (guarded_pushFinished finished)
    · exact guarded_seq (guarded_discard (guarded_popExpecting t)) (guarded_popOwner m.owner)

theorem guarded_construct (read : checked → ∃ r, RefType.ofClassName text = .ok r)
    (retypes : ∀ t, d.value t → d.retypes t) :
    Guarded checked d (c.construct text) fun _ => True := by
  refine guarded_bind guarded_pop fun receiver value => ?_
  cases receiver with
  | uninitializedThis => exact guarded_retype _ (retypes _ value)
  | uninitialized offset =>
    exact guarded_bind (guarded_namedClass read) fun made _ => guarded_retype _ (retypes _ value)
  | _ => exact guarded_throw_bind fun _ => rfl

def CallsConstructor (c : MethodContext) (op : Opcode) (i : UInt16) : Prop :=
  ∃ m, c.pool.getMemberRef i = .ok m ∧ op = .invokespecial ∧ m.name = Name.constructorName

theorem guarded_invoke (pool : checked → checkPool c.pool = .ok ())
    (rule : checked → ∃ m, c.pool.getMemberRef i = .ok m ∧ m.kind ≠ .field)
    (retypes : c.CallsConstructor op i → ∀ t, d.value t → d.retypes t) :
    Guarded checked d (c.invoke op i) fun _ => True := by
  refine guarded_bind (guarded_found rule) fun m found => ?_
  refine guarded_bind (guarded_methodType fun established => ?_) fun type _ => ?_
  · obtain ⟨type, read, _⟩ :=
      (parse_of_getMemberRef (pool established) found.1).2.2 (found.2 established)
    exact ⟨type, read⟩
  · have returned : Guarded checked d (pushReturn type.returns) fun _ => True :=
      guarded_pushReturn type.returns
    refine guarded_seq (guarded_popArguments _) ?_
    refine guarded_ite (fun constructs => ?_) fun _ => ?_
    · refine guarded_seq (guarded_construct (fun established => ?_) ?_) returned
      · exact (parse_of_getMemberRef (pool established) found.1).1
      · exact retypes ⟨m, found.1, constructs⟩
    · refine guarded_ite (fun _ => ?_) fun _ => returned
      exact guarded_seq (guarded_discard guarded_popReference) returned

theorem guarded_invokeDynamic (pool : checked → checkPool c.pool = .ok ())
    (rule : checked →
      ∃ k, c.pool.get i = .ok k ∧ ∃ bootstrap pair, k = .invokeDynamic bootstrap pair) :
    Guarded checked d (c.invokeDynamic i) fun _ => True := by
  refine guarded_bind (guarded_found rule) fun k found => ?_
  split
  · rename_i bootstrap pair
    have parts (established : checked) := parse_of_invokeDynamic (pool established) found.1
    refine guarded_bind (guarded_found parts) fun names named => ?_
    refine guarded_bind (guarded_methodType named.2) fun type _ => ?_
    exact guarded_seq (guarded_popArguments _) (guarded_pushReturn _)
  · rename_i other
    refine guarded_throw fun established => ?_
    obtain ⟨bootstrap, pair, same⟩ := found.2 established
    exact absurd same (other bootstrap pair)

theorem guarded_newObjectArray (named : checked → ∃ name, c.pool.getClassName i = .ok name ∧
    ∃ r, RefType.ofClassName name = .ok r) :
    Guarded checked d (c.newObjectArray i) fun _ => True := by
  refine guarded_seq (guarded_discard (guarded_popExpecting .int)) ?_
  refine guarded_bind (guarded_found named) fun name found => ?_
  exact guarded_bind (guarded_namedClass found.2) fun r _ =>
    guarded_pushFinished (VType.finished_object _)

theorem guarded_returnValue (k : ValueKind) :
    Guarded checked d (c.returnValue k) fun _ => True := by
  unfold returnValue
  split
  · exact guarded_throw fun _ => rfl
  · refine guarded_ite (fun _ => guarded_throw fun _ => rfl) fun _ => ?_
    refine guarded_ite (fun _ => ?_) fun _ => guarded_discard (guarded_popExpecting _)
    refine guarded_bind guarded_popReference fun found _ => ?_
    exact guarded_ite (fun _ => guarded_throw fun _ => rfl) fun _ => guarded_pure trivial

theorem guarded_returnVoid : Guarded checked d c.returnVoid fun _ => True := by
  have passed : Guarded checked d (pure ()) fun _ : Unit => True := guarded_pure trivial
  unfold returnVoid
  split
  · exact guarded_throw_bind fun _ => rfl
  · refine guarded_seq passed (guarded_bind guarded_get fun f _ => ?_)
    exact guarded_ite (fun _ => guarded_throw fun _ => rfl) fun _ => passed

theorem guarded_plain (known : checked → op.isSimulated = true ∨ op.arrayLoad?.isSome = true ∨
    op.arrayStore?.isSome = true ∨ op.returnKind?.isSome = true) :
    Guarded checked d (c.plain op) fun _ => True := by
  unfold plain
  split
  case h_1 => exact guarded_pushFinished ⟨VType.noConfusion, rfl⟩
  case h_2 => exact guarded_discard (guarded_popWidth 1)
  case h_3 => exact guarded_popTwo
  case h_4 => exact guarded_dup
  case h_5 => exact guarded_dupX1
  case h_6 => exact guarded_dupX2
  case h_7 => exact guarded_dupTwo
  case h_8 => exact guarded_dupTwoX1
  case h_9 => exact guarded_dupTwoX2
  case h_10 => exact guarded_swap
  case h_11 => exact guarded_returnVoid
  case h_12 => exact guarded_discard guarded_popReference
  case h_13 =>
    refine guarded_bind guarded_popReference fun array _ => ?_
    split
    · exact guarded_throw_bind fun _ => rfl
    · exact guarded_pushFinished ⟨VType.noConfusion, rfl⟩
  case h_14 =>
    split
    · exact guarded_loadElement _
    · exact guarded_storeElement _
    · exact guarded_returnValue _
    · rename_i unloaded unstored unreturned
      refine guarded_throw fun established => ?_
      have here := known established
      rw [unloaded, unstored, unreturned] at here
      have listed : op.isSimulated = true := by simpa using here
      unfold Opcode.isSimulated at listed
      split at listed <;> contradiction

/-- The rules for a class and for an instruction in the code of one of its methods. -/
structure Suits (c : MethodContext) (size : Nat) (i : Instruction τ) : Prop where
  pool : checkPool c.pool = .ok ()
  shape : i.checkShape = .ok ()
  operands : ∃ k : CodeContext, k.pool = c.pool ∧ k.maxLocals.toNat = size ∧
    k.checkOperands i = .ok ()

theorem classType_of_classOperand {k : CodeContext} {r : RefType} (same : k.pool = c.pool)
    (found : k.classOperand i = .ok r) :
    ∃ name, c.pool.getClassName i = .ok name ∧ ∃ r, RefType.ofClassName name = .ok r := by
  obtain ⟨name, named, read⟩ := CodeContext.exists_of_classOperand found
  rw [same] at named
  exact ⟨name, named, r, read⟩

theorem guarded_constant (pool : checked → checkPool c.pool = .ok ())
    (known : checked → op.resolves = true)
    (rule : checked → ∃ k : CodeContext, k.pool = c.pool ∧ k.checkConstant op i = .ok ())
    (retypes : c.CallsConstructor op i → ∀ t, d.value t → d.retypes t)
    (makes : op = .new → d.value (.uninitialized offset)) :
    Guarded checked d (c.constant offset op i) fun _ => True := by
  have loads (o : Opcode) (rule : checked → ∃ k : CodeContext, k.pool = c.pool ∧
      k.checkLoaded o i = .ok ()) : Guarded checked d (c.loadConstant o i) fun _ => True :=
    guarded_loadConstant pool fun established => by
      obtain ⟨k, same, rule⟩ := rule established
      exact same ▸ CodeContext.exists_of_checkLoaded rule
  have accesses (o : Opcode) (rule : checked → ∃ k : CodeContext, k.pool = c.pool ∧
      k.checkField i = .ok ()) : Guarded checked d (c.accessField o i) fun _ => True :=
    guarded_accessField pool fun established => by
      obtain ⟨k, same, rule⟩ := rule established
      exact same ▸ CodeContext.exists_of_checkField rule
  have calls (o : Opcode) (rule : checked → ∃ k : CodeContext, k.pool = c.pool ∧
      k.checkMethod o i = .ok ()) (retypes : c.CallsConstructor o i → ∀ t, d.value t → d.retypes t) :
      Guarded checked d (c.invoke o i) fun _ => True :=
    guarded_invoke pool (fun established => by
      obtain ⟨k, same, rule⟩ := rule established
      exact same ▸ CodeContext.exists_of_checkMethod rule) retypes
  unfold constant
  split
  case h_1 | h_2 | h_3 => exact loads _ rule
  case h_4 | h_5 | h_6 | h_7 => exact accesses _ rule
  case h_8 | h_9 | h_10 => exact calls _ rule retypes
  case h_11 =>
    refine guarded_seq (guarded_discard (guarded_classType fun established => ?_))
      (guarded_push (makes rfl))
    obtain ⟨k, same, rule⟩ := rule established
    obtain ⟨r, found, _⟩ := bind_eq_ok rule
    exact classType_of_classOperand same found
  case h_12 =>
    refine guarded_newObjectArray fun established => ?_
    obtain ⟨k, same, rule⟩ := rule established
    obtain ⟨r, found, _⟩ := bind_eq_ok rule
    exact classType_of_classOperand same found
  case h_13 =>
    refine guarded_seq (guarded_discard guarded_popReference) ?_
    refine guarded_bind (guarded_classType fun established => ?_) fun t finished =>
      guarded_pushFinished finished
    obtain ⟨k, same, rule⟩ := rule established
    obtain ⟨r, found⟩ := ok_of_discard rule
    exact classType_of_classOperand same found
  case h_14 =>
    refine guarded_throw fun established => ?_
    have listed := known established
    unfold Opcode.resolves at listed
    split at listed <;> contradiction

/-- The discipline allows what an instruction does apart from moving values: it may write to the
local variable, have an unfinished object made, and have a constructor finish one. -/
structure Admits (c : MethodContext) (d : Discipline size) (offset : Nat) (i : Instruction τ) :
    Prop where
  stores : ∀ a slot, i.opcode.localAccess? = some a → a.isStore = true → i.slot? = some slot →
    d.stores slot.toNat
  makes : i.opcode = .new → d.value (.uninitialized offset)
  retypes : ∀ op index, i = .constant op index → c.CallsConstructor op index →
    ∀ t, d.value t → d.retypes t

theorem admits_usable (c : MethodContext) (size offset : Nat) (i : Instruction τ) :
    c.Admits (.usable size) offset i where
  stores _ _ _ _ _ := trivial
  makes _ := VType.noConfusion
  retypes _ _ _ _ _ _ := trivial

theorem guarded_special {i : Instruction τ} (suits : checked → Suits c size i)
    (admits : c.Admits d offset i) (unnamed : i.opcode.localAccess? = none)
    (unfixed : i.opcode.fixedEffect? = none) :
    Guarded checked d (c.special offset i) fun _ => True := by
  cases i with
  | plain op =>
    refine guarded_plain fun established => ?_
    exact Opcode.isSimulated_or (Instruction.shape?_of_plain (suits established).shape) unfixed
      unnamed
  | constant op index =>
    refine guarded_constant (fun established => (suits established).pool) ?_ ?_
      (admits.retypes op index rfl) admits.makes
    · intro established
      exact Opcode.resolves_of_constant (Instruction.shape?_of_constant (suits established).shape)
        unfixed
    · intro established
      obtain ⟨k, same, _, rule⟩ := (suits established).operands
      exact ⟨k, same, rule⟩
  | localVariable op slot =>
    unfold special
    split
    case h_9 => exact guarded_throw fun _ => rfl
    case h_10 =>
      rename_i other
      refine guarded_throw fun established => ?_
      have explicit := Instruction.shape?_of_localVariable (suits established).shape
      obtain rfl := Opcode.eq_ret_of_local explicit unnamed
      exact (other slot rfl).elim
    all_goals
      rename_i same
      cases same
  | increment slot delta =>
    refine guarded_discard (guarded_load VType.noConfusion fun established => ?_)
    obtain ⟨k, _, rfl, rule⟩ := (suits established).operands
    exact CodeContext.checkSlot_eq_ok_iff.mp rule
  | interfaceCall method count =>
    refine guarded_invoke (fun established => (suits established).pool) (fun established => ?_) ?_
    · obtain ⟨k, same, _, rule⟩ := (suits established).operands
      exact same ▸ CodeContext.exists_of_checkInterfaceCall rule
    · rintro ⟨m, _, other, _⟩
      cases other
  | dynamicCall index =>
    refine guarded_invokeDynamic (fun established => (suits established).pool) fun established => ?_
    obtain ⟨k, same, _, rule⟩ := (suits established).operands
    exact same ▸ CodeContext.exists_of_checkDynamicCall rule
  | newArray element =>
    exact guarded_seq (guarded_discard (guarded_popExpecting .int))
      (guarded_pushFinished (VType.finished_object _))
  | multiArray index dimensions =>
    refine guarded_seq (guarded_popKinds _) ?_
    refine guarded_bind (guarded_classType fun established => ?_) fun t finished =>
      guarded_pushFinished finished
    obtain ⟨k, same, _, rule⟩ := (suits established).operands
    obtain ⟨r, found, _⟩ := bind_eq_ok rule
    exact classType_of_classOperand same found
  | branch op target =>
    refine guarded_throw fun established => ?_
    have branches := Instruction.shape?_of_branch (suits established).shape
    rw [if_pos (Opcode.isSubroutine_of_branch branches unfixed)]
    rfl
  | bipush | sipush | tableSwitch | lookupSwitch =>
    exact absurd unfixed (by simp only [Instruction.opcode]; decide +kernel)

theorem slot_le_of_checkOperands {k : CodeContext} {i : Instruction τ} {a : LocalAccess}
    {slot : UInt16} (rule : k.checkOperands i = .ok ()) (accesses : i.opcode.localAccess? = some a)
    (found : i.slot? = some slot) : slot.toNat + a.kind.slots ≤ k.maxLocals.toNat := by
  cases i with
  | plain op =>
    obtain ⟨kind, isStore, named⟩ := a
    change op.localAccess? = some ⟨kind, isStore, named⟩ at accesses
    simp only [Instruction.slot?, accesses, Option.bind_some] at found
    subst found
    simp only [CodeContext.checkOperands, accesses] at rule
    exact CodeContext.checkSlot_eq_ok_iff.mp rule
  | localVariable op slot =>
    change op.localAccess? = some a at accesses
    cases found
    obtain ⟨_, inside, _⟩ := bind_eq_ok rule
    rw [accesses] at inside
    exact CodeContext.checkSlot_eq_ok_iff.mp inside
  | increment slot delta =>
    have unnamed : Opcode.iinc.localAccess? = none := by decide +kernel
    cases accesses.symm.trans unnamed
  | _ => cases found

/-- An instruction keeps a discipline that allows what it does, and where it has passed the rules
for it, it only fails for reasons of flow. -/
theorem guarded_effect {i : Instruction τ} (admits : c.Admits d offset i) :
    Guarded (Suits c size i) d (c.effect offset i) fun _ => True := by
  unfold effect
  split
  case h_1 a slot accesses found =>
    refine guarded_access (fun suits => ?_) fun store => admits.stores a slot accesses store found
    obtain ⟨k, _, rfl, rule⟩ := suits.operands
    exact slot_le_of_checkOperands rule accesses found
  case h_2 a accesses missing =>
    refine guarded_throw fun suits => ?_
    obtain ⟨slot, found⟩ := Instruction.exists_slot_of_localAccess? suits.shape accesses
    rw [missing] at found
    cases found
  case h_3 pops pushes _ _ =>
    refine guarded_seq (guarded_popKinds pops) (guarded_pushAll fun t member => ?_)
    obtain ⟨k, _, rfl⟩ := List.mem_map.mp member
    exact d.finished (VType.finished_ofKind k)
  case h_4 unnamed unfixed => exact guarded_special id admits unnamed unfixed

end MethodContext

end JvmClass
