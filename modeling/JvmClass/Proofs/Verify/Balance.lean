import JvmClass.Proofs.Pool.Forms
import JvmClass.Proofs.Verify.Layout
import JvmClass.Proofs.Verify.Words

/-! By how many slots an instruction raises the stack.  The opcode decides, or what a constant says:
the number of slots is known without looking at the frame, so that stacks that are equally high before
an instruction are equally high after it, whichever of its forms it takes. -/

namespace JvmClass

open Width (width)

def LocalAccess.balance (a : LocalAccess) : Int := if a.isStore then -a.kind.slots else a.kind.slots

def Shuffle.balance (s : Shuffle) : Int := total (s.blocks.getD · 0) s.order - s.depth

/-- What an opcode puts on the stack less what it takes off, where a table says what it does. -/
def Opcode.tabledBalance? (op : Opcode) : Option Int :=
  op.localAccess?.map LocalAccess.balance <|>
  op.fixedEffect?.map (fun (pops, pushes) =>
    (total ValueKind.slots pushes : Int) - total ValueKind.slots pops) <|>
  op.shuffle?.map Shuffle.balance <|>
  op.arrayLoad?.map (fun k => (width k.valueType : Int) - 2) <|>
  op.arrayStore?.map (fun k => -(width k.valueType : Int) - 2) <|>
  op.returnKind?.map fun k => -(k.slots : Int)

def Opcode.balance (op : Opcode) : Int :=
  match op with
  | .aconstNull | .ldc | .ldcWide | .new => 1
  | .ldcTwo => 2
  | .athrow => -1
  | op => op.tabledBalance?.getD 0

def MethodType.balance (type : MethodType) (receiver : Bool) : Int :=
  (type.returns.elim 0 FieldType.slots : Nat) - type.parameterSlots receiver

namespace MethodContext

variable {τ : Type}

def fieldSlots (c : MethodContext) (index : UInt16) : Nat :=
  match c.pool.getMemberRef index with
  | .error _ => 0
  | .ok m => (FieldType.parse m.descriptor).toOption.elim 0 FieldType.slots

def callBalance (c : MethodContext) (op : Opcode) (index : UInt16) : Int :=
  match c.pool.getMemberRef index with
  | .error _ => 0
  | .ok m => (MethodType.parse m.descriptor).toOption.elim 0 (·.balance (op != .invokestatic))

def dynamicBalance (c : MethodContext) (index : UInt16) : Int :=
  match c.pool.get index with
  | .ok (.invokeDynamic _ pair) =>
    match c.pool.getNameAndType pair with
    | .error _ => 0
    | .ok (_, descriptor) => (MethodType.parse descriptor).toOption.elim 0 (·.balance false)
  | _ => 0

def constantBalance (c : MethodContext) (op : Opcode) (index : UInt16) : Int :=
  match op with
  | .getstatic => c.fieldSlots index
  | .putstatic => -c.fieldSlots index
  | .getfield => c.fieldSlots index - 1
  | .putfield => -c.fieldSlots index - 1
  | .invokevirtual | .invokespecial | .invokestatic => c.callBalance op index
  | op => op.balance

/-- By how many slots the instruction raises every stack that it can meet. -/
def balance (c : MethodContext) : Instruction τ → Int
  | .constant op index => c.constantBalance op index
  | .interfaceCall index _ => c.callBalance .invokeinterface index
  | .dynamicCall index => c.dynamicBalance index
  | .multiArray _ dimensions => 1 - dimensions.toNat
  | i => i.opcode.balance

end MethodContext

namespace Opcode

variable {op : Opcode}

theorem balance_of_tabled {balance : Int} (tabled : op.tabledBalance? = some balance) :
    op.balance = balance := by
  have special : ∀ op ∈ [aconstNull, ldc, ldcWide, new, ldcTwo, athrow], op.tabledBalance? = none := by
    decide +kernel
  unfold Opcode.balance
  split
  case h_7 => rw [tabled]; rfl
  all_goals cases (special _ (by decide)).symm.trans tabled

theorem balance_named {a : LocalAccess} (named : op.localAccess? = some a) :
    op.balance = a.balance :=
  balance_of_tabled (by simp [tabledBalance?, named])

theorem balance_fixed {pops pushes : List ValueKind} (fixed : op.fixedEffect? = some (pops, pushes)) :
    op.balance = (total ValueKind.slots pushes : Int) - total ValueKind.slots pops :=
  balance_of_tabled (by simp [tabledBalance?, localAccess?_of_fixed fixed, fixed])

theorem balance_shuffle {s : Shuffle} (listed : op.shuffle? = some s) : op.balance = s.balance := by
  have irregular : op ∈ irregular := by
    unfold shuffle? at listed
    split at listed <;> first | decide | cases listed
  obtain ⟨unnamed, unfixed⟩ := untabled_of_irregular op irregular
  exact balance_of_tabled (by simp [tabledBalance?, unnamed, unfixed, listed])

theorem tabledBalance?_of_listed (listed : op.arrayLoad?.isSome = true ∨ op.arrayStore?.isSome = true ∨
    op.returnKind?.isSome = true) : op.tabledBalance? =
      (op.arrayLoad?.map (fun k => (width k.valueType : Int) - 2) <|>
        op.arrayStore?.map (fun k => -(width k.valueType : Int) - 2) <|>
          op.returnKind?.map fun k => -(k.slots : Int)) := by
  obtain ⟨other, unnamed, unfixed⟩ := op.separate.2.1 listed
  have unmoved : op.shuffle? = none := by
    unfold shuffle?
    split <;> first | rfl | cases other
  simp [tabledBalance?, unnamed, unfixed, unmoved]

theorem balance_load {k : ArrayKind} (loads : op.arrayLoad? = some k) :
    op.balance = (width k.valueType : Int) - 2 :=
  balance_of_tabled (by
    rw [tabledBalance?_of_listed (.inl (by rw [loads]; rfl)), loads]
    rfl)

theorem balance_store {k : ArrayKind} (stores : op.arrayStore? = some k) :
    op.balance = -(width k.valueType : Int) - 2 := by
  have stored : op.arrayStore?.isSome = true := by rw [stores]; rfl
  refine balance_of_tabled ?_
  rw [tabledBalance?_of_listed (.inr (.inl stored)), op.separate.2.2.1 stored, stores]
  rfl

theorem balance_return {k : ValueKind} (kind : op.returnKind? = some k) :
    op.balance = -(k.slots : Int) := by
  have returned : op.returnKind?.isSome = true := by rw [kind]; rfl
  obtain ⟨unloaded, unstored⟩ := op.separate.2.2.2 returned
  refine balance_of_tabled ?_
  rw [tabledBalance?_of_listed (.inr (.inr returned)), unloaded, unstored, kind]
  rfl

def balanced : List Opcode := [arraylength, iinc, newarray, anewarray, checkcast, voidReturn]

theorem balance_balanced : ∀ op ∈ balanced, op.balance = 0 := by decide +kernel

end Opcode

namespace VType

@[simp] theorem width_object (n : String) : width (object n) = 1 := rfl

theorem width_ofKind (k : ValueKind) : width (ofKind k) = k.slots := by
  cases k <;> rfl

theorem width_of_isAssignable {t u : VType} (usable : u ≠ .top) (fits : t.isAssignable u = true) :
    width t = width u := by
  cases u with
  | top => exact absurd rfl usable
  | _ => cases t <;> first | rfl | cases fits

theorem Fits.width_eq {t : VType} {k : ValueKind} (fits : t.Fits k) : width t = k.slots := by
  cases k with
  | reference => exact width_of_isReference fits.1
  | _ => exact width_of_isAssignable_ofKind ValueKind.noConfusion fits

theorem width_of_isAssignable_ofFieldType {t : VType} {f : FieldType}
    (fits : t.isAssignable (ofFieldType f) = true) : width t = f.slots := by
  rw [width_of_isAssignable (finished_ofFieldType f).usable fits, MethodContext.width_ofFieldType]

theorem width_load? {k : ArrayKind} {array t : VType} (found : k.load? array = some t) :
    width t = width k.valueType := by
  by_cases reference : k = .reference
  · subst reference
    exact width_of_isReference (Option.filter_eq_some_iff.mp found).2
  · rw [load?_value reference found]

end VType

namespace Frame

variable {f g : Frame} {d : Trade} {ts : List VType}

def Trade.balance (d : Trade) : Int := (total width d.pushed : Int) - total width d.taken

theorem Trade.Made.height_eq (made : d.Made f g) (sound : d.change.Sound f.locals) :
    (g.height : Int) - f.height = d.balance := by
  obtain ⟨h, rfl, rfl, _⟩ := made
  have same : (d.change.apply h).height = h.height := Change.Sound.height_eq (f := h) sound
  rw [height_pile, height_pile, same, Trade.balance]
  omega

theorem Supplies.total_width {parameters : List FieldType} (fits : Supplies parameters ts) :
    total width ts = total FieldType.slots parameters := by
  have widths : List.Forall₂ (fun t p => width t = FieldType.slots p) ts parameters.reverse :=
    fits.imp fun _ _ => VType.width_of_isAssignable_ofFieldType
  rw [total_eq_total_of_forall₂ widths, total_reverse]

theorem Stores.width_eq {k : ArrayKind} {t : VType} (fits : Stores k t) :
    width t = width k.valueType := by
  cases k with
  | reference => exact VType.width_of_isReference fits.1
  | _ => exact VType.width_of_isAssignable VType.noConfusion fits

theorem Holds.width_eq {k : ValueKind} {t : VType} (holds : Holds k t) : width t = k.slots := by
  cases k with
  | reference => exact VType.width_of_isReference holds
  | _ => exact VType.width_of_isAssignable_ofKind ValueKind.noConfusion holds

theorem Loads.holds {ls : Array VType} {slot : UInt16} {k : ValueKind} {t : VType}
    (found : Loads ls slot (.ofKind k) t) : Holds k t := by
  obtain ⟨_, _, fits⟩ := found
  cases k <;> exact fits

theorem Accesses.balance_eq {a : LocalAccess} {slot : UInt16} {ls : Array VType}
    (accesses : Accesses a slot ls d) : d.balance = a.balance := by
  cases accesses with
  | load loads found => simp [Trade.balance, LocalAccess.balance, loads, found.holds.width_eq]
  | store stores holds => simp [Trade.balance, LocalAccess.balance, stores, holds.width_eq]

theorem total_gather {bs : List Nat} {gs : List (List VType)} (groups : Groups bs gs)
    (order : List Nat) : total width (Shuffle.gather order gs) = total (bs.getD · 0) order := by
  have sizes : gs.map (total width) = bs := by
    rw [map_eq_map_of_forall₂ (g := id) groups.flip, List.map_id]
  have block (k : Nat) : total width (gs.getD k []) = bs.getD k 0 := by
    rw [← sizes, ← total_nil (width : VType → Nat), List.getD_map]
  induction order with
  | nil => rfl
  | cons k order ih =>
    unfold Shuffle.gather at ih ⊢
    rw [List.flatMap_cons, total_append, block, ih, total_cons]

theorem total_flatten {bs : List Nat} {gs : List (List VType)} (groups : Groups bs gs) :
    total width gs.flatten = total id bs := by
  induction groups with
  | nil => rfl
  | cons first _ ih => rw [List.flatten_cons, total_append, first, ih, total_cons, id]

theorem Moves.balance_eq {op : Opcode} (moves : Moves op d) : d.balance = op.balance := by
  obtain ⟨s, listed⟩ : ∃ s, op.shuffle? = some s := by
    obtain ⟨_, form, member, _⟩ := moves
    unfold forms at member
    split at member <;> first | exact ⟨_, rfl⟩ | cases member
  obtain ⟨_, gs, groups, taken, pushed⟩ := (moves_iff listed).mp moves
  rw [Opcode.balance_shuffle listed, Trade.balance, taken, pushed, total_gather groups,
    total_flatten groups]
  rfl

end Frame

namespace MethodContext

open JvmClass.Frame

variable {τ : Type} {c : MethodContext} {offset : Nat} {ls : Array VType} {i : Instruction τ}
  {d : Trade} {f g : Frame} {op : Opcode} {index : UInt16}

theorem total_returned (type : MethodType) :
    total width (returned type) = type.returns.elim 0 FieldType.slots := by
  unfold returned
  cases type.returns with
  | none => rfl
  | some t => simp [width_ofFieldType]

theorem Owns.width_eq {owner : String} {t : VType} (owns : c.Owns owner t) : width t = 1 := by
  obtain ⟨rfl, _⟩ | initialized := owns
  · rfl
  · exact VType.width_of_isReference initialized.1

theorem Finishes.width_eq {m : MemberRef} {t : VType} {n : String} (finishes : c.Finishes m t n) :
    width t = 1 := by
  cases finishes <;> rfl

theorem callBalance_eq {m : MemberRef} {type : MethodType}
    (found : c.pool.getMemberRef index = .ok m) (parsed : MethodType.parse m.descriptor = .ok type) :
    c.callBalance op index = type.balance (op != .invokestatic) := by
  simp [callBalance, found, parsed, Except.toOption]

theorem dynamicBalance_eq {type : MethodType} (linked : c.Dynamic index type) :
    c.dynamicBalance index = type.balance false := by
  obtain ⟨_, _, _, _, found, named, parsed⟩ := linked
  simp [dynamicBalance, found, named, parsed, Except.toOption]

theorem balance_call (calls : i.call? = some (op, index)) : c.balance i = c.callBalance op index := by
  cases i with
  | constant op' index' =>
    simp only [Instruction.call?, Option.ite_none_right_eq_some] at calls
    obtain ⟨listed, same⟩ := calls
    cases same
    obtain rfl | rfl | rfl := listed <;> rfl
  | interfaceCall index' count =>
    cases calls
    rfl
  | _ => cases calls

theorem CallTrade.balance_eq {m : MemberRef} {type : MethodType} (trade : c.CallTrade op m type d) :
    d.balance = type.balance (op != .invokestatic) := by
  unfold MethodType.balance MethodType.parameterSlots
  cases trade with
  | construct constructor fits finishes =>
    have dynamic : op ≠ .invokestatic := by
      rw [constructor.1]
      decide
    simp [Trade.balance, total_returned, dynamic, fits.total_width, finishes.width_eq, Nat.add_comm]
  | virtual _ dynamic fits initialized =>
    simp [Trade.balance, total_returned, dynamic, fits.total_width,
      VType.width_of_isReference initialized.1, Nat.add_comm]
  | static static fits =>
    simp [Trade.balance, total_returned, static, fits.total_width]

theorem FieldTrade.balance_eq {m : MemberRef} {t : FieldType}
    (found : c.pool.getMemberRef index = .ok m) (parsed : FieldType.parse m.descriptor = .ok t)
    (trade : c.FieldTrade m.owner (.ofFieldType t) op d) :
    d.balance = c.constantBalance op index := by
  have slots : c.fieldSlots index = t.slots := by
    simp [fieldSlots, found, parsed, Except.toOption]
  have pushed := width_ofFieldType t
  cases trade with
  | getstatic =>
    change _ = (c.fieldSlots index : Int)
    simp [Trade.balance, slots, pushed]
  | putstatic fits =>
    have taken := VType.width_of_isAssignable_ofFieldType fits
    change _ = -(c.fieldSlots index : Int)
    simp [Trade.balance, slots, taken]
  | getfield initialized =>
    have taken := VType.width_of_isReference initialized.1
    change _ = (c.fieldSlots index : Int) - 1
    simp [Trade.balance, slots, pushed, taken]
  | putfield fits owns =>
    have taken := VType.width_of_isAssignable_ofFieldType fits
    change _ = -(c.fieldSlots index : Int) - 1
    simp [Trade.balance, slots, taken, owns.width_eq]
    omega

theorem balance_opcode (regular : i.opcode ∉ Opcode.irregular) : c.balance i = i.opcode.balance := by
  cases i with
  | constant op index =>
    change op ∉ Opcode.irregular at regular
    change c.constantBalance op index = op.balance
    unfold constantBalance
    split
    case h_8 => rfl
    all_goals exact absurd (by decide) regular
  | interfaceCall | dynamicCall | multiArray => exact absurd (by rw [Instruction.opcode]; decide) regular
  | _ => rfl

theorem width_of_counts {count : VType} (counts : count.isAssignable .int = true) :
    width count = 1 :=
  VType.width_of_isAssignable VType.noConfusion counts

theorem width_of_returns {k : ValueKind} {t : VType} (suits : returns k t = true) :
    width t = k.slots := by
  cases k with
  | reference => exact VType.width_of_isReference suits
  | _ =>
    obtain rfl := eq_of_beq suits
    rfl

theorem width_of_loads {t : VType} (loads : op = .ldc ∨ op = .ldcWide ∨ op = .ldcTwo)
    (wide : op = .ldcTwo ↔ width t = 2) : (width t : Int) = op.balance := by
  obtain rfl | rfl | rfl := loads
  · rw [width_of_ne_two (mt wide.mpr (by decide))]
    rfl
  · rw [width_of_ne_two (mt wide.mpr (by decide))]
    rfl
  · rw [wide.mp rfl]
    rfl

/-- Whatever rule of an instruction applies, the stack is raised by the same number of slots. -/
theorem Rule.balance_eq (rule : c.Rule offset ls i d) : d.balance = c.balance i := by
  -- What the frame decides are types, and these are as wide as what the rule asks for in their place.
  cases rule with
  | @access _ a _ _ named _ accesses =>
    have regular : i.opcode ∉ Opcode.irregular := fun irregular => by
      cases (Opcode.untabled_of_irregular _ irregular).1.symm.trans named
    rw [accesses.balance_eq, balance_opcode regular, Opcode.balance_named named]
  | @fixed _ pops pushes _ effect fits =>
    have taken : total width _ = total ValueKind.slots pops.reverse :=
      total_eq_total_of_forall₂ (fits.imp fun _ _ => VType.Fits.width_eq)
    have regular : i.opcode ∉ Opcode.irregular := fun irregular => by
      cases (Opcode.untabled_of_irregular _ irregular).2.symm.trans effect
    rw [balance_opcode regular, Opcode.balance_fixed effect, Trade.balance, taken]
    simp [total_reverse, total_map, VType.width_ofKind]
  | moves moves => exact moves.balance_eq
  | null => rfl
  | voidReturn =>
    change _ = Opcode.balance .voidReturn
    rw [Opcode.balance_balanced .voidReturn (by decide)]
    rfl
  | athrow initialized =>
    change _ = -1
    simp [Trade.balance, VType.width_of_isReference initialized.1]
  | arraylength initialized components =>
    change _ = Opcode.balance .arraylength
    rw [Opcode.balance_balanced .arraylength (by decide), Trade.balance, total_cons, total_cons,
      VType.width_of_isReference initialized.1]
    rfl
  | @loadElement op k _ _ _ loads counts initialized element =>
    change _ = op.balance
    rw [Opcode.balance_load loads, Trade.balance]
    simp [width_of_counts counts, VType.width_of_isReference initialized.1, VType.width_load? element]
  | @storeElement op k _ _ _ stores fits counts initialized element =>
    change _ = op.balance
    rw [Opcode.balance_store stores, Trade.balance]
    simp [width_of_counts counts, VType.width_of_isReference initialized.1, fits.width_eq]
    omega
  | @returnValue op k _ _ kind result suits fits initialized =>
    have taken := VType.width_of_isAssignable_ofFieldType fits
    rw [← width_ofFieldType, width_of_returns suits] at taken
    change _ = op.balance
    rw [Opcode.balance_return kind, Trade.balance]
    simp [taken]
  | increment =>
    change _ = Opcode.balance .iinc
    rw [Opcode.balance_balanced .iinc (by decide)]
    rfl
  | @loadConstant op index _ t loads found loaded wide =>
    have plain : c.constantBalance op index = op.balance := by
      obtain rfl | rfl | rfl := loads <;> rfl
    change _ = c.constantBalance op index
    rw [plain, ← width_of_loads loads wide]
    simp [Trade.balance]
  | field accesses found parsed trade => exact trade.balance_eq found parsed
  | call calls found parsed trade =>
    rw [trade.balance_eq, balance_call calls, callBalance_eq found parsed]
  | dynamicCall linked fits =>
    change _ = c.dynamicBalance _
    rw [dynamicBalance_eq linked, Trade.balance, total_returned, fits.total_width]
    simp [MethodType.balance, MethodType.parameterSlots]
  | new names => rfl
  | anewarray names counts =>
    change _ = Opcode.balance .anewarray
    rw [Opcode.balance_balanced .anewarray (by decide)]
    simp [Trade.balance, width_of_counts counts]
  | checkcast names initialized =>
    change _ = Opcode.balance .checkcast
    rw [Opcode.balance_balanced .checkcast (by decide)]
    simp [Trade.balance, VType.width_of_isReference initialized.1]
  | newArray counts =>
    change _ = Opcode.balance .newarray
    rw [Opcode.balance_balanced .newarray (by decide)]
    simp [Trade.balance, width_of_counts counts]
  | @multiArray _ dimensions _ counts names fits =>
    have taken : total width counts = total ValueKind.slots (List.replicate dimensions.toNat .int) :=
      total_eq_total_of_forall₂ (fits.imp fun _ _ => VType.Fits.width_eq)
    change _ = 1 - (dimensions.toNat : Int)
    rw [Trade.balance, taken, total_replicate]
    simp [ValueKind.slots]

theorem height_of_effect (done : after (c.effect offset i) f = .ok g) :
    (g.height : Int) - f.height = c.balance i := by
  obtain ⟨d, rule, made⟩ := effect_eq_ok_iff.mp done
  rw [made.height_eq rule.sound, rule.balance_eq]

/-- An instruction raises all stacks that it can meet by the same number of slots.  A call raises them
by the slots of what it returns less those of its arguments, and the receiver is one of these unless
the call is of a class or is linked when it is first executed. -/
theorem effect_balances (c : MethodContext) (offset : Nat) (i : Instruction τ) :
    ∃ balance : Int,
      (∀ f g, after (c.effect offset i) f = .ok g → (g.height : Int) - f.height = balance) ∧
      (∀ op index m type, i.call? = some (op, index) → c.pool.getMemberRef index = .ok m →
        MethodType.parse m.descriptor = .ok type →
          balance = (type.returns.elim 0 FieldType.slots : Nat) -
            (type.parameterSlots (op != .invokestatic) : Nat)) ∧
      (∀ index type, i = .dynamicCall index → c.Dynamic index type →
        balance =
          (type.returns.elim 0 FieldType.slots : Nat) - (type.parameterSlots false : Nat)) := by
  refine ⟨c.balance i, fun f g done => height_of_effect done, ?_, ?_⟩
  · intro op index m type calls found parsed
    rw [balance_call calls, callBalance_eq found parsed]
    rfl
  · rintro index type rfl linked
    exact dynamicBalance_eq linked

def scaling : MethodContext where
  pool := .ofConstants [.utf8 "a/B", .classInfo 1, .utf8 "scale", .utf8 "(IJ)D", .nameAndType 3 4,
    .methodRef 2 5 false]
  thisClass := "a/B"
  type := ⟨[], none⟩
  isConstructor := false

theorem effect_balances_scaling :
    ∃ balance : Int, balance = -2 ∧
      (∀ f g, after (scaling.effect 0 (.constant .invokevirtual 6 : Instruction Handle)) f = .ok g →
        (g.height : Int) - f.height = balance) ∧
      after (scaling.effect 0 (.constant .invokevirtual 6 : Instruction Handle))
        (.ofStack #[] [.long, .int, .object "a/B"] 4) = .ok (.ofStack #[] [.double] 4) := by
  obtain ⟨balance, raises, calls, _⟩ :=
    effect_balances scaling 0 (.constant .invokevirtual 6 : Instruction Handle)
  have called := calls .invokevirtual 6 ⟨"a/B", "scale", "(IJ)D", .method⟩
    ⟨[.base .int, .base .long], some (.base .double)⟩ rfl (by decide +kernel) (by decide +kernel)
  exact ⟨balance, called, raises, by decide +kernel⟩

end MethodContext

end JvmClass
