import JvmClass.Attribute.Tables
import JvmClass.ClassFile
import JvmClass.Verify.Rejection
import Std.Data.HashSet

/-!
Rules for a class that do not look into method bodies.  Constants refer to constants of the right
kinds, with valid names and descriptors; the class and its members have flags that go together;
no member is declared twice; a constant value fits its field; and a method has code exactly when
it is neither abstract nor native.
-/

namespace JvmClass.ClassFile

def resolved {α : Type} (place : Place) (x : Except PoolFault α) : Except ClassFault α :=
  x.mapError fun e => .unresolved place (.pool e)

/-- A method that a constant refers to.  Class initializers are never referred to, and
constructors return nothing. -/
def checkMethodRef (i : UInt16) (name descriptor : String) : Except ClassFault Unit := do
  (Name.checkMethod name).mapError (.refName i)
  let type ← (MethodType.parse descriptor).mapError (.refDescriptor i)
  if name = Name.classInitializerName then throw (.refersToInitializer i)
  if name = Name.constructorName ∧ type.returns.isSome then throw (.constructorResult i)

def isMemberOf (k : HandleKind) : Constant → Bool
  | .fieldRef _ _ => k.isField
  | .methodRef _ _ _ => !k.isField
  | _ => false

def checkConstant (p : Pool) (i : UInt16) (c : Constant) : Except ClassFault Unit :=
  let here {α : Type} (x : Except PoolFault α) : Except ClassFault α := resolved (.constant i) x
  match c with
  | .utf8 _ | .integer _ | .float _ | .long _ | .double _ => .ok ()
  | .classInfo name => do
    let name ← here (p.getUtf8 name)
    discard ((RefType.ofClassName name).mapError (.className i))
  | .string text => discard (here (p.getUtf8 text))
  | .fieldRef owner pair => do
    discard (here (p.getClassName owner))
    let (name, descriptor) ← here (p.getNameAndType pair)
    (Name.checkUnqualified name).mapError (.refName i)
    discard ((FieldType.parse descriptor).mapError (.refDescriptor i))
  | .methodRef owner pair _ => do
    discard (here (p.getClassName owner))
    let (name, descriptor) ← here (p.getNameAndType pair)
    checkMethodRef i name descriptor
  | .nameAndType name descriptor => do
    discard (here (p.getUtf8 name))
    discard (here (p.getUtf8 descriptor))
  | .methodHandle kind member => do
    let m ← here (p.get member)
    if !isMemberOf kind m then throw (.handleMember i kind m)
  | .methodType descriptor => do
    let text ← here (p.getUtf8 descriptor)
    discard ((MethodType.parse text).mapError (.refDescriptor i))
  | .dynamic _ pair => do
    let (_, descriptor) ← here (p.getNameAndType pair)
    discard ((FieldType.parse descriptor).mapError (.refDescriptor i))
  | .invokeDynamic _ pair => do
    let (name, descriptor) ← here (p.getNameAndType pair)
    (Name.checkUnqualified name).mapError (.refName i)
    discard ((MethodType.parse descriptor).mapError (.refDescriptor i))
  | .moduleInfo name | .packageInfo name => discard (here (p.getUtf8 name))

def checkPool (p : Pool) : Except ClassFault Unit := p.toList.forM fun (i, c) => checkConstant p i c

def checkHeader (c : ClassFile) : Except ClassFault Unit := do
  let name ← resolved .thisClass c.name
  match c.superClass with
  | some i => discard (resolved .superClass (c.pool.getClassName i))
  | none => if name ≠ Name.object then throw (.noSuperClass name)
  c.interfaces.forM fun i => discard (resolved .interface (c.pool.getClassName i))
  if c.flags.has AccessFlags.interfaceBit ∧ !c.flags.has AccessFlags.abstractBit then
    throw (.concreteInterface name)
  if c.flags.has (AccessFlags.finalBit ||| AccessFlags.abstractBit) then
    throw (.finalAndAbstract name)

def fits : FieldType → Constant → Bool
  | .base .long, .long _ => true
  | .base .float, .float _ => true
  | .base .double, .double _ => true
  | .base .byte, .integer _ => true
  | .base .char, .integer _ => true
  | .base .int, .integer _ => true
  | .base .short, .integer _ => true
  | .base .boolean, .integer _ => true
  | .ref (.object name), .string _ => name == Name.stringObject
  | _, _ => false

def checkFieldValue (p : Pool) (name : String) (type : FieldType) (i : UInt16) :
    Except ClassFault Unit := do
  let value ← (p.get i).mapError (.fieldConstant name)
  if !fits type value then throw (.fieldMisfit name value type)

abbrev Signatures := Std.HashSet (String × String)

def checkField (c : ClassFile) (seen : Signatures) (position : Nat) (f : Field) :
    Except ClassFault Signatures := do
  let name ← resolved (.field position) (f.nameIn c.pool)
  let descriptor ← resolved (.field position) (f.descriptorIn c.pool)
  (Name.checkUnqualified name).mapError .memberName
  let type ← (FieldType.parse descriptor).mapError (.fieldDescriptor name)
  if seen.contains (name, descriptor) then throw (.fieldTwice name descriptor)
  if !f.flags.hasValidVisibility then throw (.fieldVisibility name)
  let value? ← (Attribute.findValue? c.pool ConstantValue f.attributes).mapError
    (.unresolved (.field position))
  if let some value := value? then checkFieldValue c.pool name type value.constant
  return seen.insert (name, descriptor)

def checkFields (c : ClassFile) : Except ClassFault Unit :=
  discard (c.fields.zipIdx.foldlM (fun seen (f, i) => checkField c seen i f) ∅)

def concreteBits : UInt16 :=
  AccessFlags.finalBit ||| AccessFlags.nativeBit ||| AccessFlags.privateBit |||
    AccessFlags.staticBit ||| AccessFlags.synchronizedBit

def checkConstructor (c : ClassFile) (isStatic : Bool) (descriptor : String) (type : MethodType) :
    Except ClassFault Unit := do
  if isStatic ∨ type.returns.isSome then throw (.constructorShape descriptor)
  if c.flags.has AccessFlags.interfaceBit then throw .constructorOfInterface

/-- A method has code unless it is abstract or native. -/
def checkHasCode (c : ClassFile) (position : Nat) (m : Method) (name descriptor : String) :
    Except ClassFault Unit := do
  let code? ← resolved (.method position)
    (Attribute.find? c.pool (AttributeKind.title Code) m.attributes)
  let isBodiless := m.flags.has AccessFlags.abstractBit || m.flags.has AccessFlags.nativeBit
  if code?.isSome && isBodiless then throw (.unwantedCode name descriptor)
  if code?.isNone && !isBodiless then throw (.missingCode name descriptor)

def checkMethod (c : ClassFile) (seen : Signatures) (position : Nat) (m : Method) :
    Except ClassFault Signatures := do
  let name ← resolved (.method position) (m.nameIn c.pool)
  let descriptor ← resolved (.method position) (m.descriptorIn c.pool)
  (Name.checkMethod name).mapError .memberName
  let type ← (MethodType.parse descriptor).mapError (.methodDescriptor name)
  if seen.contains (name, descriptor) then throw (.methodTwice name descriptor)
  if !m.flags.hasValidVisibility then throw (.methodVisibility name descriptor)
  let isStatic := m.flags.has AccessFlags.staticBit
  let slots := type.parameterSlots !isStatic
  if slots > maxParameterSlots then throw (.methodSlots name descriptor slots)
  if name = Name.constructorName then checkConstructor c isStatic descriptor type
  if m.flags.has AccessFlags.abstractBit ∧ m.flags.hasAny concreteBits then
    throw (.abstractFlags name descriptor m.flags)
  checkHasCode c position m name descriptor
  return seen.insert (name, descriptor)

def checkMethods (c : ClassFile) : Except ClassFault Unit :=
  discard (c.methods.zipIdx.foldlM (fun seen (m, i) => checkMethod c seen i m) ∅)

def checkRules (c : ClassFile) : Except ClassFault Unit := do
  checkPool c.pool
  checkHeader c
  checkFields c
  checkMethods c

end JvmClass.ClassFile
