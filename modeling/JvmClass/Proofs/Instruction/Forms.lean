import JvmClass.Proofs.Instruction.Shapes
import JvmClass.Proofs.Wire.Accepts

/-! The forms that an instruction may have in a code array.  One of them is written; a widening
prefix that is not needed and the bytes in front of the operands of a switch make others, which are
read as well.  What is written for an instruction that was read is never longer. -/

namespace JvmClass

/-- A decoder only gives values that the bytes it takes off are a form of.  In contrast to
`Accepts`, what follows may have a say in whether it gives one. -/
def Decoder.Takes {α : Type} (d : Decoder α) (P : List UInt8 → α → Prop) : Prop :=
  ∀ ⦃s a t⦄, d s = .ok (a, t) →
    ∃ bytes, P bytes a ∧ s.rest = bytes ++ t.rest ∧ t.position = s.position + bytes.length

def OperandShape.sole? : OperandShape → Option Opcode
  | .byte => some .bipush
  | .short => some .sipush
  | .increment => some .iinc
  | .interfaceCall => some .invokeinterface
  | .dynamicCall => some .invokedynamic
  | .newArray => some .newarray
  | .multiArray => some .multianewarray
  | .tableSwitch => some .tableswitch
  | .lookupSwitch => some .lookupswitch
  | .wide => some .wide
  | _ => Option.none

theorem Opcode.eq_of_sole? {op only : Opcode} {shape : OperandShape}
    (known : op.shape? = some shape) (sole : shape.sole? = some only) : op = only := by
  have each : ∀ row ∈ table.toList.zipIdx, ∀ only ∈ row.1.shape.sole?,
      (⟨UInt8.ofNat row.2⟩ : Opcode) = only := by
    decide +kernel
  obtain ⟨e, n, row, rfl, rfl⟩ := row_of_shape? known
  exact each (e, n) row only sole

theorem Opcode.ne_wide_of_shape {op : Opcode} {shape : OperandShape}
    (known : op.shape? = some shape) (other : shape ≠ .wide) : op ≠ .wide := by
  rintro rfl
  have wide : Opcode.wide.shape? = some .wide := by decide +kernel
  exact other (Option.some.inj (known.symm.trans wide))

namespace Decoder

variable {α β : Type} {d : Decoder α} {f : α → Decoder β} {P : List UInt8 → α → Prop}
  {Q : List UInt8 → β → Prop}

theorem Accepts.takes (accepts : Accepts d P) : Takes d P :=
  fun _ _ _ found => (accepts _ _ _).mp found

theorem takes_pure {a : α} (form : P [] a) : Takes (pure a) P := by
  intro s b t found
  cases found
  exact ⟨[], form, rfl, rfl⟩

theorem takes_fail (why : Malformed) : Takes (fail why : Decoder α) P := by
  intro s a t found
  cases found

theorem takes_bind (first : Takes d P)
    (second : ∀ x a, P x a → Takes (f a) fun y b => Q (x ++ y) b) : Takes (d >>= f) Q := by
  intro s b t found
  change (d s >>= fun p => f p.1 p.2) = .ok (b, t) at found
  obtain ⟨⟨a, u⟩, start, found⟩ := bind_eq_ok found
  obtain ⟨x, here, rest, position⟩ := first start
  obtain ⟨y, there, rest', position'⟩ := second x a here found
  refine ⟨x ++ y, there, ?_, ?_⟩
  · rw [rest, rest', List.append_assoc]
  · rw [position', position, List.length_append, Nat.add_assoc]

theorem takes_map {g : α → β} (first : Takes d P) (each : ∀ x a, P x a → Q x (g a)) :
    Takes (g <$> d) Q := by
  rw [← bind_pure_comp]
  refine takes_bind first fun x a form => takes_pure ?_
  rw [List.append_nil]
  exact each x a form

theorem takes_ite {c : Prop} [Decidable c] {e : Decoder α} (first : c → Takes d P)
    (second : ¬ c → Takes e P) : Takes (if c then d else e) P := by
  split
  · exact first ‹_›
  · exact second ‹_›

theorem accepts_i8 : Accepts i8 fun bytes n => bytes = [n.toUInt8] := by
  refine (accepts_map UInt8.toInt8 accepts_byte).congr fun bytes n => ?_
  constructor
  · rintro ⟨b, rfl, rfl⟩
    rfl
  · rintro rfl
    exact ⟨n.toUInt8, rfl, rfl⟩

theorem accepts_i16 : Accepts i16 fun bytes n => bytes = Output.u16Bytes n.toUInt16 :=
  accepts_cast accepts_u16 (fun _ => rfl) fun _ => rfl

theorem takes_times {write : α → List UInt8} (accepts : Accepts d fun bytes a => bytes = write a)
    (n : Nat) : Takes (times n d) fun bytes as => as.length = n ∧ bytes = as.flatMap write := by
  have each : Accepts d (Rendered Eq write) :=
    accepts.congr fun bytes a => ⟨fun form => ⟨a, rfl, form⟩, fun ⟨_, same, form⟩ => same ▸ form⟩
  intro s as t found
  obtain ⟨bytes, ⟨rs, same, count, form⟩, rest⟩ := (accepts_times each n).takes found
  obtain rfl : rs = as := List.forall₂_eq_eq_eq ▸ same
  exact ⟨bytes, ⟨count, form⟩, rest⟩

end Decoder

namespace Instruction

open Decoder Output

variable {τ : Type} {offset : Nat} {op : Opcode} {bytes : List UInt8} {i : Instruction Int32}

def isSwitch : Instruction τ → Bool
  | tableSwitch _ _ _ | lookupSwitch _ => true
  | _ => false

def needsWide : Instruction τ → Bool
  | localVariable _ slot => 255 < slot
  | increment slot delta => 255 < slot || !fitsByte delta.toInt
  | _ => false

/-- The forms of an instruction at an offset.  An instruction without a widening prefix and without
padding has the one that is written. -/
inductive Form (offset : Nat) : List UInt8 → Instruction Int32 → Prop
  | narrow {op : Opcode} {bytes : List UInt8} {i : Instruction Int32} (other : op ≠ .wide)
      (flat : i.isSwitch = false) (same : i.reread = i)
      (written : i.encodeAt offset = .ok (op.code :: bytes)) : Form offset (op.code :: bytes) i
  | wideLocal {op : Opcode} (shape : op.shape? = some .local) (slot : UInt16) :
      Form offset (Opcode.wide.code :: op.code :: u16Bytes slot) (localVariable op slot)
  | wideIncrement (slot : UInt16) (delta : Int16) :
      Form offset
        (Opcode.wide.code :: Opcode.iinc.code :: (u16Bytes slot ++ u16Bytes delta.toUInt16))
        (increment slot delta)
  | tableSwitch {skipped : List UInt8} {default low high : Int32} {targets : List Int32}
      (length : skipped.length = switchPadding offset)
      (key : highKey? low targets.length = some high) :
      Form offset (Opcode.tableswitch.code :: (skipped ++ (i32Bytes default ++ (i32Bytes low ++
        (i32Bytes high ++ targets.flatMap i32Bytes))))) (tableSwitch default low targets)
  | lookupSwitch {skipped : List UInt8} {s : Select Int32}
      (length : skipped.length = switchPadding offset) (few : s.pairs.length ≤ 0x7FFFFFFF) :
      Form offset (Opcode.lookupswitch.code :: (skipped ++ (i32Bytes s.default ++
        (u32Bytes s.pairs.length.toUInt32 ++ s.pairs.flatMap pairBytes)))) (lookupSwitch s)

section Shapes

theorem form_plain (other : op ≠ .wide) (shape : op.shape? = some .none) :
    Form offset [op.code] (plain op) := by
  have shaped : (plain op : Instruction Int32).WellShaped := ⟨_, shape, rfl⟩
  refine .narrow other rfl rfl ?_
  rw [encodeAt, shaped.checkShape]
  rfl

theorem form_constant (shape : op.shape? = some .constant) (index : UInt16) :
    Form offset (op.code :: u16Bytes index) (constant op index) := by
  have shaped : (constant op index : Instruction Int32).WellShaped := ⟨_, shape, rfl⟩
  have long : op ≠ .ldc := by
    rintro rfl
    exact absurd shape (by decide +kernel)
  have other := Opcode.ne_wide_of_shape shape (by decide)
  refine .narrow other rfl (if_neg fun both => long both.1) ?_
  rw [encodeAt, shaped.checkShape]
  change (if op = .ldc ∧ index ≤ 255 then _ else Except.ok (_ :: _)) = _
  rw [if_neg fun both => long both.1, if_neg long]
  rfl

theorem toUInt16_le (b : UInt8) : b.toUInt16 ≤ 255 := by
  rw [UInt16.le_iff_toNat_le, UInt8.toNat_toUInt16]
  exact Nat.le_of_lt_succ b.toNat_lt

theorem form_shortConstant (b : UInt8) :
    Form offset [Opcode.ldc.code, b] (constant .ldc b.toUInt16) := by
  have short : Opcode.ldc.shape? = some .shortConstant := by decide +kernel
  have shaped : (constant .ldc b.toUInt16 : Instruction Int32).WellShaped :=
    ⟨_, short, rfl⟩
  have small := toUInt16_le b
  refine .narrow (by decide) rfl (if_neg fun both => absurd small (UInt16.not_le.mpr both.2)) ?_
  rw [encodeAt, shaped.checkShape]
  change (if _ then _ else _) = _
  rw [if_pos ⟨rfl, small⟩, UInt8.toUInt8_toUInt16]
  rfl

theorem form_shortLocal (shape : op.shape? = some .local) (b : UInt8) :
    Form offset [op.code, b] (localVariable op b.toUInt16) := by
  have shaped : (localVariable op b.toUInt16 : Instruction Int32).WellShaped := ⟨_, shape, rfl⟩
  have other := Opcode.ne_wide_of_shape shape (by decide)
  refine .narrow other rfl rfl ?_
  rw [encodeAt, shaped.checkShape]
  change (if _ then _ else _) = _
  rw [if_pos (toUInt16_le b), UInt8.toUInt8_toUInt16]
  rfl

theorem encodeAt_branch {t : Int32} (shaped : (branch op t).WellShaped) :
    (branch op t).encodeAt offset =
      if isWideBranch op then .ok (op.code :: i32Bytes t)
      else if fitsShort t.toInt then .ok (op.code :: u16Bytes t.toInt16.toUInt16)
      else .error (.malformed (.branchDistance op t)) := by
  rw [encodeAt, shaped.checkShape]
  simp only [bind, Except.bind, pure, Except.pure, opcode]
  rfl

theorem form_shortBranch (shape : op.shape? = some .branch) (d : Int16) :
    Form offset (op.code :: u16Bytes d.toUInt16) (branch op d.toInt32) := by
  have shaped : (branch op d.toInt32 : Instruction Int32).WellShaped := ⟨_, shape, rfl⟩
  have other := Opcode.ne_wide_of_shape shape (by decide)
  have narrow : ¬ isWideBranch op := by simp [isWideBranch, shape]
  have fits : fitsShort d.toInt32.toInt := by
    have low := d.le_toInt
    have high := d.toInt_lt
    rw [Int16.toInt_toInt32]
    simp only [fitsShort, Bool.and_eq_true, decide_eq_true_eq]
    omega
  refine .narrow other rfl rfl ?_
  rw [encodeAt_branch shaped, if_neg narrow, if_pos fits, Int16.toInt16_toInt32]

theorem form_wideBranch (shape : op.shape? = some .wideBranch) (d : Int32) :
    Form offset (op.code :: i32Bytes d) (branch op d) := by
  have shaped : (branch op d : Instruction Int32).WellShaped := ⟨_, shape, rfl⟩
  have other := Opcode.ne_wide_of_shape shape (by decide)
  have wide : isWideBranch op := beq_iff_eq.mpr shape
  refine .narrow other rfl rfl ?_
  rw [encodeAt_branch shaped, if_pos wide]

theorem form_implied (implied : i.opcode ∈ impliedOpcodes) (free : ∀ shape, i.takes shape = true)
    (flat : i.isSwitch = false) (same : i.reread = i)
    (written : i.checkShape = .ok () → i.encodeAt offset = .ok (i.opcode.code :: bytes)) :
    Form offset (i.opcode.code :: bytes) i := by
  have others : ∀ op ∈ impliedOpcodes, op ≠ Opcode.wide := by decide
  have checked := (wellShaped_of_implied implied free).checkShape
  exact .narrow (others _ implied) flat same (written checked)

theorem form_bipush (v : Int8) : Form offset [Opcode.bipush.code, v.toUInt8] (bipush v) := by
  refine form_implied (i := bipush v) (by simp [impliedOpcodes, opcode]) (fun _ => rfl) rfl rfl ?_
  intro checked
  rw [encodeAt, checked]
  rfl

theorem form_sipush (v : Int16) :
    Form offset (Opcode.sipush.code :: u16Bytes v.toUInt16) (sipush v) := by
  refine form_implied (i := sipush v) (by simp [impliedOpcodes, opcode]) (fun _ => rfl) rfl rfl ?_
  intro checked
  rw [encodeAt, checked]
  rfl

theorem form_shortIncrement (b : UInt8) (d : Int8) :
    Form offset [Opcode.iinc.code, b, d.toUInt8] (increment b.toUInt16 d.toInt16) := by
  have fits : fitsByte d.toInt16.toInt := by
    have low := d.le_toInt
    have high := d.toInt_lt
    rw [Int8.toInt_toInt16]
    simp only [fitsByte, Bool.and_eq_true, decide_eq_true_eq]
    omega
  refine form_implied (i := increment b.toUInt16 d.toInt16) (by simp [impliedOpcodes, opcode])
    (fun _ => rfl) rfl rfl ?_
  intro checked
  rw [encodeAt, checked]
  change (if _ then _ else _) = _
  rw [if_pos ⟨toUInt16_le b, fits⟩, UInt8.toUInt8_toUInt16, Int8.toInt8_toInt16]
  rfl

theorem form_interfaceCall (method : UInt16) (count : UInt8) :
    Form offset (Opcode.invokeinterface.code :: (u16Bytes method ++ [count, 0]))
      (interfaceCall method count) := by
  refine form_implied (i := interfaceCall method count) (by simp [impliedOpcodes, opcode])
    (fun _ => rfl) rfl rfl ?_
  intro checked
  rw [encodeAt, checked]
  rfl

theorem form_dynamicCall (index : UInt16) :
    Form offset (Opcode.invokedynamic.code :: (u16Bytes index ++ [0, 0])) (dynamicCall index) := by
  refine form_implied (i := dynamicCall index) (by simp [impliedOpcodes, opcode])
    (fun _ => rfl) rfl rfl ?_
  intro checked
  rw [encodeAt, checked]
  rfl

theorem form_newArray (element : BaseType) :
    Form offset [Opcode.newarray.code, element.arrayCode] (newArray element) := by
  refine form_implied (i := newArray element) (by simp [impliedOpcodes, opcode])
    (fun _ => rfl) rfl rfl ?_
  intro checked
  rw [encodeAt, checked]
  rfl

theorem form_multiArray (type : UInt16) (dimensions : UInt8) :
    Form offset (Opcode.multianewarray.code :: (u16Bytes type ++ [dimensions]))
      (multiArray type dimensions) := by
  refine form_implied (i := multiArray type dimensions) (by simp [impliedOpcodes, opcode])
    (fun _ => rfl) rfl rfl ?_
  intro checked
  rw [encodeAt, checked]
  rfl

end Shapes

theorem arrayCode_of_ofArrayCode? {code : UInt8} {t : BaseType}
    (found : BaseType.ofArrayCode? code = some t) : t.arrayCode = code := by
  have same := List.find?_some found
  exact eq_of_beq same

theorem takes_skipPadding :
    Takes (skipPadding offset) fun bytes _ => bytes.length = switchPadding offset := by
  intro s a t found
  obtain ⟨bytes, ⟨length, form⟩, rest⟩ :=
    takes_times accepts_byte _ found
  refine ⟨bytes, ?_, rest⟩
  rwa [form, List.flatMap_singleton']

theorem takes_checkRoom (count size : Nat) :
    Takes (checkRoom offset count size) fun bytes _ => bytes = [] := by
  intro s a t found
  unfold checkRoom at found
  split at found
  · cases found
  · cases found
    exact ⟨[], rfl, rfl, rfl⟩

theorem highKey?_of_le {low high : Int32} (ordered : ¬ high < low) :
    highKey? low (high.toInt - low.toInt + 1).toNat = some high := by
  rw [Int32.lt_iff_toInt_lt] at ordered
  have greatest : low.toInt + ((high.toInt - low.toInt + 1).toNat : Int) - 1 = high.toInt := by
    omega
  have bound := high.toInt_lt
  unfold highKey?
  rw [greatest]
  refine (if_pos ⟨by omega, by omega⟩).trans ?_
  rw [Int32.ofInt_toInt]

theorem takes_tableOperands : Takes (tableOperands offset) fun bytes i =>
    Form offset (Opcode.tableswitch.code :: bytes) i := by
  refine takes_bind takes_skipPadding fun skipped _ length => ?_
  refine takes_bind accepts_i32.takes fun _ default same => ?_
  refine takes_bind accepts_i32.takes fun _ low same' => ?_
  refine takes_bind accepts_i32.takes fun _ high same'' => ?_
  subst same same' same''
  refine takes_ite (fun _ => takes_fail _) fun ordered => ?_
  refine takes_bind (takes_checkRoom _ _) fun _ _ none => ?_
  refine takes_bind (takes_times accepts_i32 _) fun _ targets both => takes_pure ?_
  obtain ⟨count, rfl⟩ := both
  subst none
  rw [List.append_nil]
  refine .tableSwitch length ?_
  rw [count]
  exact highKey?_of_le ordered

theorem accepts_keyAndTarget : Accepts keyAndTarget fun bytes pair => bytes = pairBytes pair := by
  have whole := accepts_bind accepts_i32 fun key : Int32 =>
    accepts_bind accepts_i32 fun target : Int32 => accepts_pure (key, target)
  refine whole.congr fun bytes pair => ?_
  constructor
  · rintro ⟨key, _, _, rfl, ⟨target, _, _, rfl, ⟨rfl, rfl⟩, rfl⟩, rfl⟩
    rw [List.append_nil]
    rfl
  · rintro rfl
    exact ⟨pair.1, _, _, rfl, ⟨pair.2, _, _, rfl, ⟨rfl, rfl⟩, (List.append_nil _).symm⟩, rfl⟩

theorem takes_lookupOperands : Takes (lookupOperands offset) fun bytes i =>
    Form offset (Opcode.lookupswitch.code :: bytes) i := by
  refine takes_bind takes_skipPadding fun skipped _ length => ?_
  refine takes_bind accepts_i32.takes fun _ default same => ?_
  refine takes_bind accepts_i32.takes fun _ count same' => ?_
  subst same same'
  refine takes_ite (fun _ => takes_fail _) fun positive => ?_
  refine takes_bind (takes_checkRoom _ _) fun _ _ none => ?_
  refine takes_bind (takes_times accepts_keyAndTarget _) fun _ pairs both => takes_pure ?_
  obtain ⟨many, rfl⟩ := both
  subst none
  rw [Int32.lt_iff_toInt_lt] at positive
  have bound := count.toInt_lt
  have zero : (0 : Int32).toInt = 0 := rfl
  have same : Int32.ofNat pairs.length = count := by
    apply Int32.toInt_inj.mp
    rw [Int32.toInt_ofNat_of_lt (by omega)]
    omega
  have written : pairs.length.toUInt32 = count.toUInt32 := congrArg Int32.toUInt32 same
  rw [List.append_nil]
  have form : Form offset _ (lookupSwitch ⟨default, pairs⟩) :=
    Form.lookupSwitch (s := ⟨default, pairs⟩) length (by dsimp only; omega)
  rwa [written] at form

theorem takes_widened :
    Takes (widened offset) fun bytes i => Form offset (Opcode.wide.code :: bytes) i := by
  refine takes_bind accepts_byte.takes fun _ code same => ?_
  subst same
  refine takes_ite (fun grows => ?_) fun other => takes_ite (fun widens => ?_) fun _ => takes_fail _
  · obtain rfl : code = Opcode.iinc.code := congrArg Opcode.code grows
    refine takes_bind accepts_u16.takes fun _ slot same => ?_
    refine takes_bind accepts_i16.takes fun _ delta same' => takes_pure ?_
    subst same same'
    rw [List.append_nil]
    exact .wideIncrement slot delta
  · refine takes_map accepts_u16.takes fun _ slot same => ?_
    subst same
    exact .wideLocal (Opcode.shape?_of_isWidenable widens other) slot

theorem takes_operands :
    Takes (operands offset op) fun bytes i => Form offset (op.code :: bytes) i := by
  unfold operands
  cases known : op.shape? with
  | none => exact takes_fail _
  | some shape =>
    cases shape with
    | none => exact takes_pure (form_plain (Opcode.ne_wide_of_shape known (by decide)) known)
    | byte =>
      obtain rfl := Opcode.eq_of_sole? known rfl
      exact takes_map accepts_i8.takes fun _ v same => same ▸ form_bipush v
    | short =>
      obtain rfl := Opcode.eq_of_sole? known rfl
      exact takes_map accepts_i16.takes fun _ v same => same ▸ form_sipush v
    | «local» => exact takes_map accepts_byte.takes fun _ b same => same ▸ form_shortLocal known b
    | increment =>
      obtain rfl := Opcode.eq_of_sole? known rfl
      refine takes_bind accepts_byte.takes fun _ b same => ?_
      refine takes_bind accepts_i8.takes fun _ d same' => takes_pure ?_
      subst same same'
      exact form_shortIncrement b d
    | shortConstant =>
      obtain rfl := Opcode.eq_ldc_of_shape known
      exact takes_map accepts_byte.takes fun _ b same => same ▸ form_shortConstant b
    | constant =>
      exact takes_map accepts_u16.takes fun _ index same => same ▸ form_constant known index
    | interfaceCall =>
      obtain rfl := Opcode.eq_of_sole? known rfl
      refine takes_bind accepts_u16.takes fun _ method same => ?_
      refine takes_bind accepts_byte.takes fun _ count same' => ?_
      refine takes_bind accepts_byte.takes fun _ last same'' => ?_
      subst same same' same''
      refine takes_ite (fun zero => takes_pure ?_) fun _ => takes_fail _
      subst zero
      exact form_interfaceCall method count
    | dynamicCall =>
      obtain rfl := Opcode.eq_of_sole? known rfl
      refine takes_bind accepts_u16.takes fun _ index same => ?_
      refine takes_bind accepts_u16.takes fun _ last same' => ?_
      subst same same'
      refine takes_ite (fun zero => takes_pure ?_) fun _ => takes_fail _
      subst zero
      exact form_dynamicCall index
    | newArray =>
      obtain rfl := Opcode.eq_of_sole? known rfl
      refine takes_bind accepts_byte.takes fun _ code same => ?_
      subst same
      cases element : BaseType.ofArrayCode? code with
      | none => exact takes_fail _
      | some t =>
        refine takes_pure ?_
        have form : Form offset _ _ := form_newArray t
        rwa [arrayCode_of_ofArrayCode? element] at form
    | multiArray =>
      obtain rfl := Opcode.eq_of_sole? known rfl
      refine takes_bind accepts_u16.takes fun _ type same => ?_
      refine takes_bind accepts_byte.takes fun _ dimensions same' => takes_pure ?_
      subst same same'
      exact form_multiArray type dimensions
    | branch => exact takes_map accepts_i16.takes fun _ d same => same ▸ form_shortBranch known d
    | wideBranch => exact takes_map accepts_i32.takes fun _ d same => same ▸ form_wideBranch known d
    | tableSwitch =>
      obtain rfl := Opcode.eq_of_sole? known rfl
      exact takes_tableOperands
    | lookupSwitch =>
      obtain rfl := Opcode.eq_of_sole? known rfl
      exact takes_lookupOperands
    | wide =>
      obtain rfl := Opcode.eq_of_sole? known rfl
      exact takes_widened

theorem form_of_decoder {s t : Input} (found : decoder s = .ok (i, t)) :
    ∃ bytes, Form s.position bytes i ∧ s.rest = bytes ++ t.rest ∧
      t.position = s.position + bytes.length := by
  change (byte s >>= fun p => operands s.position ⟨p.1⟩ p.2) = .ok (i, t) at found
  obtain ⟨⟨code, u⟩, first, found⟩ := bind_eq_ok found
  obtain ⟨_, rfl, rest, position⟩ := accepts_byte.takes first
  obtain ⟨bytes, form, rest', position'⟩ := takes_operands found
  refine ⟨code :: bytes, form, ?_, ?_⟩
  · rw [rest, rest']
    rfl
  · simp only [position', position, List.length_cons, List.length_nil]
    omega

/-- The instruction has no widening prefix that its operands do not need, and nothing but zeros in
front of the operands of a switch. -/
structure Tight (code : List UInt8) (offset : Nat) (i : Instruction τ) : Prop where
  narrow : code[offset]? = some Opcode.wide.code → i.needsWide = true
  padded : i.isSwitch = true → ∀ k < switchPadding offset, code[offset + 1 + k]? = some 0

section Written

variable {code rest : List UInt8}

theorem encodeAt_localVariable {slot : UInt16} (shape : op.shape? = some .local) :
    (localVariable op slot : Instruction Int32).encodeAt offset =
      if slot ≤ 255 then .ok [op.code, slot.toUInt8]
      else .ok (Opcode.wide.code :: op.code :: u16Bytes slot) := by
  have shaped : (localVariable op slot : Instruction Int32).WellShaped := ⟨_, shape, rfl⟩
  rw [encodeAt, shaped.checkShape]
  rfl

theorem encodeAt_increment {slot : UInt16} {delta : Int16} :
    (increment slot delta : Instruction Int32).encodeAt offset =
      if slot ≤ 255 ∧ fitsByte delta.toInt then
        .ok [Opcode.iinc.code, slot.toUInt8, delta.toInt8.toUInt8]
      else .ok (Opcode.wide.code :: Opcode.iinc.code ::
        (u16Bytes slot ++ u16Bytes delta.toUInt16)) := by
  have shaped : (increment slot delta : Instruction Int32).WellShaped :=
    wellShaped_of_implied (by simp [impliedOpcodes, opcode]) fun _ => rfl
  rw [encodeAt, shaped.checkShape]
  rfl

theorem encodeAt_tableSwitch {default low high : Int32} {targets : List Int32}
    (key : highKey? low targets.length = some high) :
    (tableSwitch default low targets).encodeAt offset =
      .ok (Opcode.tableswitch.code :: (padding offset ++ (i32Bytes default ++ (i32Bytes low ++
        (i32Bytes high ++ targets.flatMap i32Bytes))))) := by
  have shaped : (tableSwitch default low targets).WellShaped :=
    wellShaped_of_implied (by simp [impliedOpcodes, opcode]) fun _ => rfl
  rw [encodeAt, shaped.checkShape]
  dsimp only [bind, Except.bind]
  simp only [key]
  rfl

theorem encodeAt_lookupSwitch {s : Select Int32} (few : s.pairs.length ≤ 0x7FFFFFFF) :
    (lookupSwitch s).encodeAt offset =
      .ok (Opcode.lookupswitch.code :: (padding offset ++ (i32Bytes s.default ++
        (u32Bytes s.pairs.length.toUInt32 ++ s.pairs.flatMap pairBytes)))) := by
  have shaped : (lookupSwitch s).WellShaped :=
    wellShaped_of_implied (by simp [impliedOpcodes, opcode]) fun _ => rfl
  rw [encodeAt, shaped.checkShape]
  change (if s.pairs.length ≤ 0x7FFFFFFF then _ else _) = _
  rw [if_pos few]
  rfl

theorem Form.reread (form : Form offset bytes i) : i.reread = i := by
  cases form with
  | narrow _ _ same _ => exact same
  | _ => rfl

theorem wellShaped_of_encodeAt (written : i.encodeAt offset = .ok bytes) : i.WellShaped := by
  obtain ⟨_, checked, _⟩ := bind_eq_ok written
  exact takes_of_checkShape checked

theorem Form.fitsShort {t : Int32} (form : Form offset bytes (branch op t))
    (short : ¬ isWideBranch op) : fitsShort t.toInt = true := by
  obtain ⟨_, _, _, written⟩ := form
  by_contra far
  rw [encodeAt_branch (wellShaped_of_encodeAt written), if_neg short, if_neg far] at written
  cases written

/-- What was read can be written with other targets and elsewhere, if these are not too far for
branches with offsets of two bytes. -/
theorem Form.exists_encodeAt_map (form : Form offset bytes i) {f : Int32 → Int32} {start : Nat}
    (near : ∀ op t, i = branch op t → ¬ isWideBranch op → JvmClass.fitsShort (f t).toInt = true) :
    ∃ written, (i.map f).encodeAt start = .ok written := by
  cases form with
  | narrow _ flat _ written =>
    cases i with
    | branch op t =>
      have shaped := wellShaped_of_encodeAt written
      have shaped' : (branch op (f t)).WellShaped := shaped
      rw [map, encodeAt_branch shaped']
      by_cases wide : isWideBranch op
      · rw [if_pos wide]
        exact ⟨_, rfl⟩
      · rw [if_neg wide, if_pos (near op t rfl wide)]
        exact ⟨_, rfl⟩
    | tableSwitch | lookupSwitch => cases flat
    | _ => exact ⟨_, written⟩
  | wideLocal shape slot =>
    rw [map, encodeAt_localVariable shape]
    split <;> exact ⟨_, rfl⟩
  | wideIncrement slot delta =>
    rw [map, encodeAt_increment]
    split <;> exact ⟨_, rfl⟩
  | tableSwitch _ key =>
    rw [← List.length_map f] at key
    exact ⟨_, encodeAt_tableSwitch key⟩
  | @lookupSwitch _ s _ few =>
    have pairs : (s.pairs.map fun p => (p.1, f p.2)).length ≤ 0x7FFFFFFF := by
      rwa [List.length_map]
    rw [map]
    exact ⟨_, encodeAt_lookupSwitch pairs⟩

theorem getElem?_of_drop {n : Nat} (here : code.drop n = bytes ++ rest) (k : Nat) :
    code[n + k]? = (bytes ++ rest)[k]? := by
  rw [← here, List.getElem?_drop]

theorem padded_iff {skipped tail : List UInt8} {head : UInt8}
    (here : code.drop offset = head :: (skipped ++ tail) ++ rest)
    (length : skipped.length = switchPadding offset) :
    (∀ k < switchPadding offset, code[offset + 1 + k]? = some 0) ↔ skipped = padding offset := by
  have each : ∀ k < switchPadding offset, code[offset + 1 + k]? = skipped[k]? := by
    intro k inside
    rw [Nat.add_assoc, getElem?_of_drop here, Nat.add_comm 1 k]
    simp only [List.cons_append, List.getElem?_cons_succ, List.append_assoc]
    exact List.getElem?_append_left (by omega)
  constructor
  · intro zeros
    refine List.eq_replicate_iff.mpr ⟨length, fun b member => ?_⟩
    obtain ⟨k, found⟩ := List.mem_iff_getElem?.mp member
    have inside := (List.getElem?_eq_some_iff.mp found).1
    rw [length] at inside
    exact Option.some.inj (found.symm.trans ((each k inside).symm.trans (zeros k inside)))
  · rintro rfl k inside
    rw [each k inside, padding, List.getElem?_replicate, if_pos inside]

theorem getElem?_of_form {head : UInt8} (here : code.drop offset = head :: bytes ++ rest) :
    code[offset]? = some head :=
  getElem?_of_drop here 0

theorem tight_iff_of_wide {narrow : List UInt8} (flat : i.isSwitch = false)
    (here : code.drop offset = Opcode.wide.code :: bytes ++ rest) {small : Prop} [Decidable small]
    (needs : i.needsWide = true ↔ ¬ small) (shorter : narrow ≠ Opcode.wide.code :: bytes)
    (written : i.encodeAt offset =
      if small then .ok narrow else .ok (Opcode.wide.code :: bytes)) :
    i.Tight code offset ↔ i.encodeAt offset = .ok (Opcode.wide.code :: bytes) := by
  rw [written]
  constructor
  · intro tight
    exact if_neg (needs.mp (tight.narrow (getElem?_of_form here)))
  · intro same
    refine ⟨fun _ => needs.mpr fun holds => ?_, fun switches => ?_⟩
    · rw [if_pos holds] at same
      exact shorter (Except.ok.inj same)
    · rw [flat] at switches
      cases switches

theorem tight_iff_of_padding {skipped tail : List UInt8} {op : Opcode} (other : op ≠ .wide)
    (switches : i.isSwitch = true) (length : skipped.length = switchPadding offset)
    (here : code.drop offset = op.code :: (skipped ++ tail) ++ rest)
    (written : i.encodeAt offset = .ok (op.code :: (padding offset ++ tail))) :
    i.Tight code offset ↔ i.encodeAt offset = .ok (op.code :: (skipped ++ tail)) := by
  have zeros := padded_iff here length
  rw [written, Except.ok.injEq, List.cons.injEq, List.append_cancel_right_eq]
  constructor
  · exact fun tight => ⟨rfl, (zeros.mp (tight.padded switches)).symm⟩
  · rintro ⟨_, same⟩
    refine ⟨fun wide => ?_, fun _ => zeros.mpr same.symm⟩
    rw [getElem?_of_form here] at wide
    exact absurd (congrArg Opcode.mk (Option.some.inj wide)) other

theorem Form.tight_iff (form : Form offset bytes i) (here : code.drop offset = bytes ++ rest) :
    i.Tight code offset ↔ i.encodeAt offset = .ok bytes := by
  cases form with
  | @narrow op bytes i other flat _ written =>
    refine iff_of_true ⟨fun wide => ?_, fun switches => ?_⟩ written
    · rw [getElem?_of_form here] at wide
      exact absurd (congrArg Opcode.mk (Option.some.inj wide)) other
    · rw [flat] at switches
      cases switches
  | wideLocal shape slot =>
    refine tight_iff_of_wide rfl here ?_ ?_ (encodeAt_localVariable shape)
    · simp [needsWide]
    · simp [u16Bytes]
  | wideIncrement slot delta =>
    refine tight_iff_of_wide rfl here ?_ ?_ encodeAt_increment
    · simp [needsWide, imp_iff_not_or]
    · simp [u16Bytes]
  | tableSwitch length key =>
    exact tight_iff_of_padding (by decide) rfl length here (encodeAt_tableSwitch key)
  | lookupSwitch length few =>
    exact tight_iff_of_padding (by decide) rfl length here (encodeAt_lookupSwitch few)

theorem length_of_encodeAt (written : i.encodeAt offset = .ok bytes) :
    bytes.length = i.widthAt offset :=
  (spells_of_encodeAt written).length

theorem Form.length_eq (form : Form offset bytes i) (here : code.drop offset = bytes ++ rest)
    (narrow : code[offset]? = some Opcode.wide.code → i.needsWide = true) :
    bytes.length = i.widthAt offset := by
  have start : ∀ tail, bytes = Opcode.wide.code :: tail → i.needsWide = true := by
    rintro tail rfl
    exact narrow (getElem?_of_form here)
  cases form with
  | narrow _ _ _ written => exact length_of_encodeAt written
  | wideLocal shape slot =>
    have large : 255 < slot := by simpa [needsWide] using start _ rfl
    rw [widthAt, if_neg (UInt16.not_le.mpr large)]
    rfl
  | wideIncrement slot delta =>
    have large : 255 < slot ∨ fitsByte delta.toInt = false := by
      simpa [needsWide] using start _ rfl
    rw [widthAt, if_neg]
    · rfl
    · rintro ⟨small, fits⟩
      obtain large | far := large
      · exact UInt16.not_lt.mpr small large
      · exact Bool.false_ne_true (far.symm.trans fits)
  | tableSwitch length key =>
    simp only [widthAt, List.length_cons, List.length_append, length_i32Bytes,
      length_flatMap_i32Bytes, length]
    omega
  | lookupSwitch length few =>
    have four (w : UInt32) : (u32Bytes w).length = 4 := rfl
    simp only [widthAt, List.length_cons, List.length_append, length_i32Bytes,
      length_flatMap_pairBytes, length, four]
    omega

theorem widthAt_of_flat {j : Instruction τ} (flat : j.isSwitch = false) (n m : Nat) :
    j.widthAt n = j.widthAt m := by
  cases j <;> first | rfl | cases flat

theorem switchPadding_le {start n : Nat} (before : start + 4 * n ≤ offset) :
    start + switchPadding start + 4 * n ≤ offset + switchPadding offset := by
  have here := aligned_switchPadding start
  have there := aligned_switchPadding offset
  have few := switchPadding_lt start
  omega

/-- At an earlier offset an instruction does not end later, and moves by as many multiples of four
as it is put forward. -/
theorem Form.stop_le {start n : Nat} (form : Form offset bytes i) (before : start + 4 * n ≤ offset) :
    start + i.widthAt start + 4 * n ≤ offset + bytes.length := by
  cases form with
  | @narrow op bytes i _ flat _ written =>
    rw [length_of_encodeAt written, widthAt_of_flat flat start offset]
    omega
  | wideLocal shape slot =>
    simp only [widthAt, u16Bytes, List.length_cons, List.length_nil]
    split <;> omega
  | wideIncrement slot delta =>
    simp only [widthAt, u16Bytes, List.length_cons, List.length_append, List.length_nil]
    split <;> omega
  | tableSwitch length key =>
    simp only [widthAt, List.length_cons, List.length_append, length_i32Bytes,
      length_flatMap_i32Bytes, length]
    have padded := switchPadding_le before
    omega
  | lookupSwitch length few =>
    have four (w : UInt32) : (u32Bytes w).length = 4 := rfl
    simp only [widthAt, List.length_cons, List.length_append, length_i32Bytes,
      length_flatMap_pairBytes, length, four]
    have padded := switchPadding_le before
    omega

end Written

end Instruction

end JvmClass
