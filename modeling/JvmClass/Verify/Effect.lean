import JvmClass.Instruction.Basic
import JvmClass.Pool.Basic
import JvmClass.Verify.Frame

/-!
What instructions do to frames.  A load or store of a local variable comes first, then a stack
effect that the opcode fixes; everything else depends on operands, constants or the stack.
Arguments of a call are popped from the last to the first and the receiver after them.  Only the
call of a constructor takes an uninitialized receiver, and it gives every copy of it a type.
-/

namespace JvmClass

open Width (width)

structure MethodContext where
  pool : Pool
  thisClass : String
  type : MethodType
  isConstructor : Bool

inductive ArrayKind where
  | int | long | float | double | reference | byte | char | short
  deriving DecidableEq, Repr

def VType.ofKind : ValueKind → VType
  | .int => int
  | .long => long
  | .float => float
  | .double => double
  | .reference => object Name.object

namespace ArrayKind

def all : List ArrayKind := [int, long, float, double, reference, byte, char, short]

def valueType : ArrayKind → VType
  | long => .long
  | float => .float
  | double => .double
  | reference => .object Name.object
  | _ => .int

def element : ArrayKind → String
  | int => "I"
  | long => "J"
  | float => "F"
  | double => "D"
  | reference => "Ljava/lang/Object;"
  | byte => "B"
  | char => "C"
  | short => "S"

def load? : ArrayKind → VType → Option VType
  | reference, a => a.component?.filter VType.isReference
  | byte, a => if a.isByteOrBooleanArray then some .int else none
  | k, a => if a.isArrayOf k.element then some k.valueType else none

end ArrayKind

namespace Opcode

def arrayLoad? (op : Opcode) : Option ArrayKind :=
  if op.code < 0x2e then none else ArrayKind.all[op.code.toNat - 0x2e]?

def arrayStore? (op : Opcode) : Option ArrayKind :=
  if op.code < 0x4f then none else ArrayKind.all[op.code.toNat - 0x4f]?

def returnKind? (op : Opcode) : Option ValueKind :=
  if op.code < 0xac then none else ValueKind.all[op.code.toNat - 0xac]?

end Opcode

namespace Frame

def popKind : ValueKind → Step VType
  | .reference => popReference
  | k => popExpecting (.ofKind k)

def popKinds (ks : List ValueKind) : Step Unit := ks.reverse.forM fun k => discard (popKind k)

/-- Loads or stores a local variable.  References need not be initialized. -/
def access (a : LocalAccess) (slot : UInt16) : Step Unit := do
  if a.isStore then
    let t ← match a.kind with
      | .reference => popAnyReference
      | k => popExpecting (.ofKind k)
    store slot t
  else
    let t ← load slot (.ofKind a.kind)
    push t

def popArguments (ts : List FieldType) : Step Unit :=
  ts.reverse.forM fun t => discard (popExpecting (.ofFieldType t))

def pushReturn : Option FieldType → Step Unit
  | some t => push (.ofFieldType t)
  | none => pure ()

def loadElement (k : ArrayKind) : Step Unit := do
  discard (popExpecting .int)
  let array ← popReference
  match k.load? array with
  | some t => push t
  | none => throw .notArray

def storeElement (k : ArrayKind) : Step Unit := do
  match k with
  | .reference => discard popReference
  | k => discard (popExpecting k.valueType)
  discard (popExpecting .int)
  let array ← popReference
  if (k.load? array).isNone then throw .notArray

def dup : Step Unit := do
  let a ← popWidth 1
  pushAll [a, a]

def dupX1 : Step Unit := do
  let a ← popWidth 1
  let b ← popWidth 1
  pushAll [a, b, a]

def dupX2 : Step Unit := do
  let a ← popWidth 1
  let b ← pop
  if width b = 2 then pushAll [a, b, a]
  else
    let c ← popWidth 1
    pushAll [a, c, b, a]

def popTwo : Step Unit := do
  let a ← pop
  if width a = 1 then discard (popWidth 1)

def dupTwo : Step Unit := do
  let a ← pop
  if width a = 2 then pushAll [a, a]
  else
    let b ← popWidth 1
    pushAll [b, a, b, a]

def dupTwoX1 : Step Unit := do
  let a ← pop
  let b ← popWidth 1
  if width a = 2 then pushAll [a, b, a]
  else
    let c ← popWidth 1
    pushAll [b, a, c, b, a]

def dupTwoX2 : Step Unit := do
  let a ← pop
  if width a = 2 then
    let b ← pop
    if width b = 2 then pushAll [a, b, a]
    else
      let c ← popWidth 1
      pushAll [a, c, b, a]
  else
    let b ← popWidth 1
    let c ← pop
    if width c = 2 then pushAll [b, a, c, b, a]
    else
      let d ← popWidth 1
      pushAll [b, a, d, c, b, a]

def swap : Step Unit := do
  let a ← popWidth 1
  let b ← popWidth 1
  pushAll [a, b]

end Frame

namespace MethodContext

open JvmClass.Frame

def found {α : Type} (x : Except PoolFault α) : Step α :=
  liftExcept (x.mapError fun e => FlowFault.invalidConstant (.pool e))

def namedClass (name : String) : Step RefType :=
  liftExcept ((RefType.ofClassName name).mapError fun e => FlowFault.invalidConstant (.className e))

def classType (c : MethodContext) (i : UInt16) : Step VType := do
  let name ← found (c.pool.getClassName i)
  return .object (← namedClass name).className

def fieldType (text : String) : Step VType :=
  match FieldType.parse text with
  | .ok t => pure (.ofFieldType t)
  | .error _ => throw (.badDescriptor text)

def methodType (text : String) : Step MethodType :=
  match MethodType.parse text with
  | .ok m => pure m
  | .error _ => throw (.badDescriptor text)

def loadedType (c : MethodContext) : Constant → Step VType
  | .integer _ => pure .int
  | .float _ => pure .float
  | .long _ => pure .long
  | .double _ => pure .double
  | .string _ => pure (.object Name.stringObject)
  | .classInfo _ => pure (.object Name.classObject)
  | .methodHandle _ _ => pure (.object Name.methodHandle)
  | .methodType _ => pure (.object Name.methodType)
  | .dynamic _ pair => do
    let (_, descriptor) ← found (c.pool.getNameAndType pair)
    fieldType descriptor
  | k => throw (.invalidConstant (.notLoadable k))

def loadConstant (c : MethodContext) (op : Opcode) (i : UInt16) : Step Unit := do
  let k ← found (c.pool.get i)
  let t ← c.loadedType k
  if op = .ldcTwo ↔ width t = 2 then push t else throw (.invalidWidth (width t))

/-- Pops the object whose field is written.  A constructor may write fields of its own class
before the object is initialized. -/
def popOwner (c : MethodContext) (owner : String) : Step Unit := do
  let t ← pop
  if t = .uninitializedThis ∧ owner = c.thisClass then return
  else if t.isUninitialized then throw .uninitializedObject
  else if !t.isReference then throw (.incompatible (.object Name.object) t)

def accessField (c : MethodContext) (op : Opcode) (i : UInt16) : Step Unit := do
  let m ← found (c.pool.getMemberRef i)
  let t ← fieldType m.descriptor
  match op with
  | .getstatic => push t
  | .putstatic => discard (popExpecting t)
  | .getfield => do
    discard popReference
    push t
  | _ => do
    discard (popExpecting t)
    c.popOwner m.owner

/-- Pops the receiver of a constructor and gives every copy of it its type. -/
def construct (c : MethodContext) (owner : String) : Step Unit := do
  let receiver ← pop
  let made ← match receiver with
    | .uninitializedThis => pure (.object c.thisClass)
    | .uninitialized _ => do pure (.object (← namedClass owner).className)
    | t => throw (.incompatible .uninitializedThis t)
  modify (Frame.retype receiver made)

def invoke (c : MethodContext) (op : Opcode) (i : UInt16) : Step Unit := do
  let m ← found (c.pool.getMemberRef i)
  let type ← methodType m.descriptor
  popArguments type.parameters
  if op = .invokespecial ∧ m.name = Name.constructorName then c.construct m.owner
  else if op ≠ .invokestatic then discard popReference
  pushReturn type.returns

def invokeDynamic (c : MethodContext) (i : UInt16) : Step Unit := do
  match ← found (c.pool.get i) with
  | .invokeDynamic _ pair => do
    let (_, descriptor) ← found (c.pool.getNameAndType pair)
    let type ← methodType descriptor
    popArguments type.parameters
    pushReturn type.returns
  | k => throw (.invalidConstant (.notDynamicCall k))

def newObjectArray (c : MethodContext) (i : UInt16) : Step Unit := do
  discard (popExpecting .int)
  let name ← found (c.pool.getClassName i)
  let component ← namedClass name
  push (.object (RefType.arrayOf (.ref component)).className)

def returns (k : ValueKind) (result : VType) : Bool :=
  match k with
  | .reference => result.isReference
  | k => result == .ofKind k

def returnValue (c : MethodContext) (k : ValueKind) : Step Unit := do
  match c.type.returns with
  | none => throw .badReturn
  | some t =>
    let expected : VType := .ofFieldType t
    if !returns k expected then throw .badReturn
    else if expected.isReference then
      let found ← popReference
      if !found.isAssignable expected then throw (.incompatible expected found)
    else discard (popExpecting expected)

/-- A constructor has to have called another one by the time it returns. -/
def returnVoid (c : MethodContext) : Step Unit := do
  if c.type.returns.isSome then throw .badReturn
  if c.isConstructor && (← get).hasUninitializedThis then throw .uninitializedObject

def plain (c : MethodContext) (op : Opcode) : Step Unit :=
  match op with
  | .aconstNull => push .null
  | .pop => discard (popWidth 1)
  | .popTwo => Frame.popTwo
  | .dup => Frame.dup
  | .dupX1 => Frame.dupX1
  | .dupX2 => Frame.dupX2
  | .dupTwo => Frame.dupTwo
  | .dupTwoX1 => Frame.dupTwoX1
  | .dupTwoX2 => Frame.dupTwoX2
  | .swap => Frame.swap
  | .voidReturn => c.returnVoid
  | .athrow => discard popReference
  | .arraylength => do
    let array ← popReference
    if array.component?.isNone then throw .notArray
    push .int
  | op =>
    match op.arrayLoad?, op.arrayStore?, op.returnKind? with
    | some k, _, _ => loadElement k
    | none, some k, _ => storeElement k
    | none, none, some k => c.returnValue k
    | none, none, none => throw .invalidType

def constant (c : MethodContext) (offset : Nat) (op : Opcode) (i : UInt16) : Step Unit :=
  match op with
  | .ldc | .ldcWide | .ldcTwo => c.loadConstant op i
  | .getstatic | .putstatic | .getfield | .putfield => c.accessField op i
  | .invokevirtual | .invokespecial | .invokestatic => c.invoke op i
  | .new => do
    discard (c.classType i)
    push (.uninitialized offset)
  | .anewarray => c.newObjectArray i
  | .checkcast => do
    discard popReference
    let t ← c.classType i
    push t
  | _ => throw .invalidType

/-- Instructions that neither access a local variable nor have a fixed effect. -/
def special {τ : Type} (c : MethodContext) (offset : Nat) (i : Instruction τ) : Step Unit :=
  match i with
  | .plain op => c.plain op
  | .increment slot _ => discard (load slot .int)
  | .constant op index => c.constant offset op index
  | .interfaceCall method _ => c.invoke .invokeinterface method
  | .dynamicCall index => c.invokeDynamic index
  | .newArray element => do
    discard (popExpecting .int)
    push (.object (FieldType.base element).array.render)
  | .multiArray index dimensions => do
    popKinds (List.replicate dimensions.toNat .int)
    let t ← c.classType index
    push t
  | .branch op _ => throw (if op.hasFacet .subroutine then .subroutine else .invalidType)
  | .localVariable .ret _ => throw .subroutine
  | _ => throw .invalidType

def effect {τ : Type} (c : MethodContext) (offset : Nat) (i : Instruction τ) : Step Unit :=
  match i.opcode.localAccess?, i.slot?, i.opcode.fixedEffect? with
  | some a, some slot, _ => access a slot
  | some _, none, _ => throw .invalidType
  | none, _, some (pops, pushes) => do
    popKinds pops
    pushAll (pushes.map .ofKind)
  | none, _, none => c.special offset i

def storeParameters : List FieldType → UInt16 → Step Unit
  | [], _ => pure ()
  | t :: ts, slot => do
    let type : VType := .ofFieldType t
    store slot type
    storeParameters ts (slot + (width type).toUInt16)

def receiverType (c : MethodContext) : VType :=
  if c.isConstructor ∧ c.thisClass ≠ Name.object then .uninitializedThis else .object c.thisClass

def entryFrame (c : MethodContext) (maxLocals maxStack : UInt16) (isStatic : Bool) :
    Except FlowFault Frame :=
  let fill : Step Unit := do
    if isStatic then storeParameters c.type.parameters 0
    else
      store 0 c.receiverType
      storeParameters c.type.parameters 1
  Frame.after fill (.empty maxLocals maxStack)

end MethodContext

end JvmClass
