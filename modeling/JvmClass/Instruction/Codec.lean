import JvmClass.Instruction.Basic
import JvmClass.Wire.Input
import JvmClass.Wire.Output

/-!
Instructions in code arrays.  Where an instruction starts matters for switches, whose operands
are aligned.  Decoding goes by the shape of the opcode, and takes more bytes than encoding the
same instruction needs where a widening prefix was not necessary.
-/

namespace JvmClass

def Decoder.position : Decoder Nat := fun s => .ok (s.position, s)

namespace Instruction

variable {τ : Type}

def checkShape (i : Instruction τ) : Except Error Unit :=
  let op := i.opcode
  match op.shape? with
  | none => .error (.malformed (.unassignedOpcode op))
  | some shape =>
    let fits : Bool := match i with
      | plain _ => shape == .none
      | constant _ _ => shape == .constant || shape == .shortConstant
      | localVariable _ _ => shape == .local
      | branch _ _ => shape == .branch || shape == .wideBranch
      | _ => true
    if fits then .ok () else .error (.malformed (.operandShape op shape))

/-- The greatest key of a table switch, which has a place in four signed bytes. -/
def highKey? (low : Int32) (count : Nat) : Option Int32 :=
  let high := low.toInt + count - 1
  if 0 < count ∧ high ≤ 0x7FFFFFFF then some (Int32.ofInt high) else none

def padding (offset : Nat) : List UInt8 := List.replicate (switchPadding offset) 0

def i32Bytes (n : Int32) : List UInt8 := Output.u32Bytes n.toUInt32

def encodeAt (offset : Nat) (i : Instruction Int32) : Except Error (List UInt8) := do
  i.checkShape
  let op := i.opcode.code
  match i with
  | plain _ => return [op]
  | bipush v => return [op, v.toUInt8]
  | sipush v => return op :: Output.u16Bytes v.toUInt16
  | constant o c =>
    if o = .ldc ∧ c ≤ 255 then return [op, c.toUInt8]
    else return (if o = .ldc then Opcode.ldcWide.code else op) :: Output.u16Bytes c
  | localVariable _ v =>
    if v ≤ 255 then return [op, v.toUInt8]
    else return Opcode.wide.code :: op :: Output.u16Bytes v
  | increment v d =>
    if v ≤ 255 ∧ fitsByte d.toInt then return [op, v.toUInt8, d.toInt8.toUInt8]
    else return Opcode.wide.code :: op :: (Output.u16Bytes v ++ Output.u16Bytes d.toUInt16)
  | interfaceCall m n => return op :: (Output.u16Bytes m ++ [n, 0])
  | dynamicCall c => return op :: (Output.u16Bytes c ++ [0, 0])
  | newArray t => return [op, t.arrayCode]
  | multiArray c n => return op :: (Output.u16Bytes c ++ [n])
  | branch o t =>
    if isWideBranch o then return op :: i32Bytes t
    else if fitsShort t.toInt then return op :: Output.u16Bytes t.toInt16.toUInt16
    else throw (.malformed (.branchDistance o t))
  | tableSwitch d low ts =>
    match highKey? low ts.length with
    | none => throw (.malformed (.noHighKey low ts.length))
    | some high =>
      return op :: (padding offset ++ (i32Bytes d ++ (i32Bytes low ++ (i32Bytes high ++
        ts.flatMap i32Bytes))))
  | lookupSwitch s =>
    if s.pairs.length ≤ 0x7FFFFFFF then
      return op :: (padding offset ++ (i32Bytes s.default ++
        (Output.u32Bytes s.pairs.length.toUInt32 ++
          s.pairs.flatMap fun (k, t) => i32Bytes k ++ i32Bytes t)))
    else throw (.tooLarge "lookupswitch pairs" s.pairs.length 0x7FFFFFFF)

open Decoder

/-- Refuses a count of entries that the rest of the code has no room for. -/
def checkRoom (offset count size : Nat) : Decoder Unit := fun s =>
  if (s.rest.take (count * size)).length < count * size then
    .error (.malformed (.switchSize offset count s.rest.length))
  else .ok ((), s)

def skipPadding (offset : Nat) : Decoder (List UInt8) := times (switchPadding offset) byte

def tableOperands (offset : Nat) : Decoder (Instruction Int32) := do
  let _ ← skipPadding offset
  let default ← i32
  let low ← i32
  let high ← i32
  if high < low then fail (.switchKeys offset low high)
  else
    let count := (high.toInt - low.toInt + 1).toNat
    checkRoom offset count 4
    return tableSwitch default low (← times count i32)

def keyAndTarget : Decoder (Int32 × Int32) := return (← i32, ← i32)

def lookupOperands (offset : Nat) : Decoder (Instruction Int32) := do
  let _ ← skipPadding offset
  let default ← i32
  let count ← i32
  if count < 0 then fail (.negativePairs offset count)
  else
    checkRoom offset count.toInt.toNat 8
    return lookupSwitch ⟨default, ← times count.toInt.toNat keyAndTarget⟩

def widened (offset : Nat) : Decoder (Instruction Int32) := do
  let op : Opcode := ⟨← byte⟩
  if op = .iinc then return increment (← u16) (← i16)
  else if op.isWidenable then localVariable op <$> u16
  else fail (.wideOperand offset op)

def operands (offset : Nat) (op : Opcode) : Decoder (Instruction Int32) :=
  match op.shape? with
  | none => fail (.unassignedOpcodeAt op offset)
  | some .none => pure (plain op)
  | some .byte => bipush <$> i8
  | some .short => sipush <$> i16
  | some .local => (fun b => localVariable op b.toUInt16) <$> byte
  | some .increment => do
    let slot ← byte
    return increment slot.toUInt16 (← i8).toInt16
  | some .shortConstant => (fun b => constant op b.toUInt16) <$> byte
  | some .constant => constant op <$> u16
  | some .interfaceCall => do
    let method ← u16
    let count ← byte
    let last ← byte
    if last = 0 then return interfaceCall method count else fail (.interfaceCallByte offset)
  | some .dynamicCall => do
    let index ← u16
    let last ← u16
    if last = 0 then return dynamicCall index else fail (.dynamicCallBytes offset)
  | some .newArray => do
    let code ← byte
    match BaseType.ofArrayCode? code with
    | some t => pure (newArray t)
    | none => fail (.arrayCode offset code)
  | some .multiArray => do
    let type ← u16
    return multiArray type (← byte)
  | some .branch => (fun d => branch op d.toInt32) <$> i16
  | some .wideBranch => branch op <$> i32
  | some .tableSwitch => tableOperands offset
  | some .lookupSwitch => lookupOperands offset
  | some .wide => widened offset

def decoder : Decoder (Instruction Int32) := do
  let offset ← position
  let code ← byte
  operands offset ⟨code⟩

def decodeAt (code : List UInt8) (offset : Nat) : Except Error (Instruction Int32 × Nat) :=
  match decoder ⟨offset, code.drop offset⟩ with
  | .ok (i, s) => .ok (i, s.position - offset)
  | .error e => .error e

section Shrinking

theorem neverGrows_checkRoom (offset count size : Nat) :
    NeverGrows (checkRoom offset count size) := by
  intro s a t h
  unfold checkRoom at h
  split at h
  · cases h
  · cases h; exact Nat.le_refl _

theorem neverGrows_ite {α : Type} {c : Prop} [Decidable c] {d e : Decoder α}
    (hd : NeverGrows d) (he : NeverGrows e) : NeverGrows (if c then d else e) := by
  split <;> assumption

theorem neverGrows_skipPadding (offset : Nat) : NeverGrows (skipPadding offset) :=
  neverGrows_times neverGrows_byte _

theorem neverGrows_tableOperands (offset : Nat) : NeverGrows (tableOperands offset) :=
  neverGrows_bind (neverGrows_skipPadding offset) fun _ =>
    neverGrows_bind neverGrows_i32 fun _ => neverGrows_bind neverGrows_i32 fun _ =>
      neverGrows_bind neverGrows_i32 fun _ =>
        neverGrows_ite (neverGrows_fail _)
          (neverGrows_bind (neverGrows_checkRoom _ _ _) fun _ =>
            neverGrows_bind (neverGrows_times neverGrows_i32 _) fun _ => neverGrows_pure _)

theorem neverGrows_keyAndTarget : NeverGrows keyAndTarget :=
  neverGrows_bind neverGrows_i32 fun _ => neverGrows_bind neverGrows_i32 fun _ => neverGrows_pure _

theorem neverGrows_lookupOperands (offset : Nat) : NeverGrows (lookupOperands offset) :=
  neverGrows_bind (neverGrows_skipPadding offset) fun _ =>
    neverGrows_bind neverGrows_i32 fun _ => neverGrows_bind neverGrows_i32 fun _ =>
      neverGrows_ite (neverGrows_fail _)
        (neverGrows_bind (neverGrows_checkRoom _ _ _) fun _ =>
          neverGrows_bind (neverGrows_times neverGrows_keyAndTarget _) fun _ => neverGrows_pure _)

theorem neverGrows_widened (offset : Nat) : NeverGrows (widened offset) :=
  neverGrows_bind neverGrows_byte fun _ =>
    neverGrows_ite
      (neverGrows_bind neverGrows_u16 fun _ => neverGrows_bind neverGrows_i16 fun _ =>
        neverGrows_pure _)
      (neverGrows_ite (neverGrows_map _ neverGrows_u16) (neverGrows_fail _))

theorem neverGrows_operands (offset : Nat) (op : Opcode) : NeverGrows (operands offset op) := by
  unfold operands
  generalize op.shape? = shape
  cases shape with
  | none => exact neverGrows_fail _
  | some shape =>
    cases shape with
    | none => exact neverGrows_pure _
    | byte => exact neverGrows_map _ neverGrows_i8
    | short => exact neverGrows_map _ neverGrows_i16
    | «local» => exact neverGrows_map _ neverGrows_byte
    | increment =>
      exact neverGrows_bind neverGrows_byte fun _ => neverGrows_bind neverGrows_i8 fun _ =>
        neverGrows_pure _
    | shortConstant => exact neverGrows_map _ neverGrows_byte
    | constant => exact neverGrows_map _ neverGrows_u16
    | interfaceCall =>
      exact neverGrows_bind neverGrows_u16 fun _ => neverGrows_bind neverGrows_byte fun _ =>
        neverGrows_bind neverGrows_byte fun _ =>
          neverGrows_ite (neverGrows_pure _) (neverGrows_fail _)
    | dynamicCall =>
      exact neverGrows_bind neverGrows_u16 fun _ => neverGrows_bind neverGrows_u16 fun _ =>
        neverGrows_ite (neverGrows_pure _) (neverGrows_fail _)
    | newArray =>
      refine neverGrows_bind neverGrows_byte fun code => ?_
      cases BaseType.ofArrayCode? code with
      | none => exact neverGrows_fail _
      | some t => exact neverGrows_pure _
    | multiArray =>
      exact neverGrows_bind neverGrows_u16 fun _ => neverGrows_bind neverGrows_byte fun _ =>
        neverGrows_pure _
    | branch => exact neverGrows_map _ neverGrows_i16
    | wideBranch => exact neverGrows_map _ neverGrows_i32
    | tableSwitch => exact neverGrows_tableOperands offset
    | lookupSwitch => exact neverGrows_lookupOperands offset
    | wide => exact neverGrows_widened offset

theorem decoder_shrinks {s t : Input} {i : Instruction Int32} (h : decoder s = .ok (i, t)) :
    t.rest.length < s.rest.length := by
  change (byte s >>= fun p => operands s.position ⟨p.1⟩ p.2) = .ok (i, t) at h
  obtain ⟨p, hs, h⟩ := bind_eq_ok h
  exact Nat.lt_of_le_of_lt (neverGrows_operands s.position ⟨p.1⟩ h) (byte_shrinks hs)

end Shrinking

end Instruction

end JvmClass
