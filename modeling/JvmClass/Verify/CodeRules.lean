import JvmClass.ClassFile
import JvmClass.Code.Body
import JvmClass.Verify.Rejection

/-!
Rules for the code of one method that need no simulation: the code lifts, so that branches and
tables lead to instructions; handlers catch classes; constants are of the kinds that instructions
need; and local variables are in range.  A method without code keeps all of them.
-/

namespace JvmClass

def firstWithoutSubroutines : UInt16 := 51

structure CodeContext where
  pool : Pool
  major : UInt16
  maxLocals : UInt16

namespace CodeContext

def found {α : Type} (x : Except PoolFault α) : Except OperandFault α := x.mapError .pool

def checkSlot (c : CodeContext) (slot : UInt16) (slots : Nat) : Except OperandFault Unit :=
  if slot.toNat + slots > c.maxLocals.toNat then .error (.slotRange slot c.maxLocals) else .ok ()

def checkSubroutine (c : CodeContext) : Except OperandFault Unit :=
  if firstWithoutSubroutines ≤ c.major then .error (.subroutine c.major) else .ok ()

def classOperand (c : CodeContext) (i : UInt16) : Except OperandFault RefType := do
  let name ← found (c.pool.getClassName i)
  (RefType.ofClassName name).mapError .descriptor

/-- Constructors are called in one way only, and class initializers are never called. -/
def checkCalled (op : Opcode) (name : String) : Except OperandFault Unit :=
  if name = Name.classInitializerName then .error .callsInitializer
  else if name = Name.constructorName ∧ op ≠ .invokespecial then .error (.callsConstructor op)
  else .ok ()

def checkField (c : CodeContext) (i : UInt16) : Except OperandFault Unit := do
  let m ← found (c.pool.getMemberRef i)
  if m.kind ≠ .field then throw (.notField m.name)

def checkMethod (c : CodeContext) (op : Opcode) (i : UInt16) : Except OperandFault Unit := do
  let m ← found (c.pool.getMemberRef i)
  if m.kind = .field then throw (.notMethod m.name)
  if m.kind = .interfaceMethod ∧ op = .invokevirtual then throw (.interfaceMethod m.name)
  checkCalled op m.name

def checkInterfaceCall (c : CodeContext) (i : UInt16) (count : UInt8) :
    Except OperandFault Unit := do
  let m ← found (c.pool.getMemberRef i)
  if m.kind ≠ .interfaceMethod then throw (.notInterfaceMethod m.name)
  checkCalled .invokeinterface m.name
  let type ← (MethodType.parse m.descriptor).mapError .descriptor
  let expected := type.parameterSlots true
  if count.toNat ≠ expected then throw (.argumentCount count expected)

def checkDynamicCall (c : CodeContext) (i : UInt16) : Except OperandFault Unit := do
  match ← found (c.pool.get i) with
  | .invokeDynamic _ pair => do
    let (name, _) ← found (c.pool.getNameAndType pair)
    checkCalled .invokedynamic name
  | k => throw (.notDynamicCall k)

def checkMultiArray (c : CodeContext) (i : UInt16) (dimensions : UInt8) :
    Except OperandFault Unit := do
  match ← c.classOperand i with
  | .object name => throw (.notArray name)
  | .array available _ =>
    if dimensions = 0 ∨ available < dimensions.toNat then
      throw (.dimensions dimensions available)

/-- The wide load takes wide constants, and the other loads take the rest of the loadable ones. -/
def isLoadedBy (op : Opcode) : Constant → Bool
  | .long _ | .double _ => op == .ldcTwo
  | k => op != .ldcTwo && k.isSingleLoadable

def checkLoaded (c : CodeContext) (op : Opcode) (i : UInt16) : Except OperandFault Unit := do
  let k ← found (c.pool.get i)
  if !isLoadedBy op k then throw (.notLoadable k op)

def checkConstant (c : CodeContext) (op : Opcode) (i : UInt16) : Except OperandFault Unit :=
  match op with
  | .ldc | .ldcWide | .ldcTwo => c.checkLoaded op i
  | .getstatic | .putstatic | .getfield | .putfield => c.checkField i
  | .invokevirtual | .invokespecial | .invokestatic => c.checkMethod op i
  | .new => do
    match ← c.classOperand i with
    | .array _ _ => throw .newArray
    | .object _ => return
  | .anewarray => do
    match ← c.classOperand i with
    | .array dimensions _ => if dimensions ≥ maxDimensions then throw .tooManyDimensions
    | .object _ => return
  | .checkcast | .instanceof => discard (c.classOperand i)
  | _ => .ok ()

def checkOperands {τ : Type} (c : CodeContext) (i : Instruction τ) : Except OperandFault Unit :=
  match i with
  | .plain op =>
    match op.localAccess? with
    | some ⟨kind, _, some slot⟩ => c.checkSlot slot kind.slots
    | _ => .ok ()
  | .localVariable op slot => do
    c.checkSlot slot (op.localAccess?.elim 1 (·.kind.slots))
    if op = .ret then c.checkSubroutine
  | .increment slot _ => c.checkSlot slot 1
  | .branch op _ => if op = .jsr ∨ op = .jsrWide then c.checkSubroutine else .ok ()
  | .constant op index => c.checkConstant op index
  | .interfaceCall method count => c.checkInterfaceCall method count
  | .dynamicCall index => c.checkDynamicCall index
  | .multiArray index dimensions => c.checkMultiArray index dimensions
  | .bipush _ | .sipush _ | .newArray _ | .tableSwitch _ _ _ | .lookupSwitch _ => .ok ()

end CodeContext

/-- A fault in a method, at an offset if it is in one place. -/
structure CodeFaultAt where
  offset? : Option Nat
  why : CodeFault
  deriving DecidableEq, Repr

namespace Body

def checkHandler (p : Pool) (b : Body) (r : ExceptionRange) : Except CodeFaultAt Unit := do
  if let some i := r.catches then
    let offset? := b.listing.offset? r.handler
    let name ← (p.getClassName i).mapError fun e => ⟨offset?, .catchType e⟩
    if name.toList.head? = some '[' then throw ⟨offset?, .catchesArray name⟩

def checkRules (c : CodeContext) (b : Body) : Except CodeFaultAt Unit := do
  b.handlers.values.forM (checkHandler c.pool b)
  b.listing.toList.forM fun (h, i) =>
    (c.checkOperands i).mapError fun e => ⟨b.listing.offset? h, .operand i e⟩

end Body

namespace ClassFile

def methodLabel (c : ClassFile) (position : Nat) : String :=
  let signature : Option String := do
    let m ← c.methods[position]?
    let name ← (m.nameIn c.pool).toOption
    let descriptor ← (m.descriptorIn c.pool).toOption
    return name ++ descriptor
  signature.getD s!"method #{position}"

/-- The code of a method whose length and locals are right, or nothing if there is no code. -/
def codeToCheck? (c : ClassFile) (position : Nat) : Except CodeFault (Option Code) := do
  let some m := c.methods[position]? | throw (.noMethod c.methods.length)
  let some code ← (m.code? c.pool).mapError .error | return none
  if code.bytes.length = 0 ∨ code.bytes.length > maxCodeLength then
    throw (.length code.bytes.length)
  let descriptor ← (m.descriptorIn c.pool).mapError fun e => .error (.pool e)
  let type ← (MethodType.parse descriptor).mapError .descriptor
  let slots := type.parameterSlots !(m.flags.has AccessFlags.staticBit)
  if slots > code.maxLocals.toNat then throw (.parameterSlots code.maxLocals slots)
  return some code

/-- The rules for the code of one method.  Lifting the code may bring everything to a halt. -/
def checkCode (c : ClassFile) (position : Nat) : Except Halt (Except CodeFaultAt Unit) :=
  match c.codeToCheck? position with
  | .error e => .ok (.error ⟨none, e⟩)
  | .ok none => .ok (.ok ())
  | .ok (some code) =>
    match Body.lift 0 c.pool code with
    | .error (.halt h) => .error h
    | .error (.error e) => .ok (.error ⟨none, .error e⟩)
    | .ok b => .ok (b.checkRules ⟨c.pool, c.version.major, code.maxLocals⟩)

end ClassFile

end JvmClass
