import JvmClass.AccessFlags
import JvmClass.Instruction.Basic
import JvmClass.Verify.FlowFault

/-!
Why the verifier turns a class down.  What is wrong with the class as a whole, with the code of
one method, and with the flow of types through a method are kept apart, and everything else is an
error of reading the class.
-/

namespace JvmClass

inductive Place where
  | constant (index : UInt16)
  | thisClass
  | superClass
  | interface
  | field (position : Nat)
  | method (position : Nat)
  deriving DecidableEq, Repr

inductive ClassFault where
  | unresolved (place : Place) (why : Error)
  | className (index : UInt16) (why : Descriptor.Fault)
  | refName (index : UInt16) (why : Name.Fault)
  | refDescriptor (index : UInt16) (why : Descriptor.Fault)
  | refersToInitializer (index : UInt16)
  | constructorResult (index : UInt16)
  | handleMember (index : UInt16) (kind : HandleKind) (member : Constant)
  | noSuperClass (name : String)
  | concreteInterface (name : String)
  | finalAndAbstract (name : String)
  | memberName (why : Name.Fault)
  | fieldDescriptor (name : String) (why : Descriptor.Fault)
  | fieldTwice (name descriptor : String)
  | fieldVisibility (name : String)
  | fieldConstant (name : String) (why : PoolFault)
  | fieldMisfit (name : String) (found : Constant) (type : FieldType)
  | methodDescriptor (name : String) (why : Descriptor.Fault)
  | methodTwice (name descriptor : String)
  | methodVisibility (name descriptor : String)
  | methodSlots (name descriptor : String) (slots : Nat)
  | constructorShape (descriptor : String)
  | constructorOfInterface
  | abstractFlags (name descriptor : String) (flags : AccessFlags .method)
  | unwantedCode (name descriptor : String)
  | missingCode (name descriptor : String)
  deriving DecidableEq, Repr

inductive OperandFault where
  | slotRange (slot maxLocals : UInt16)
  | subroutine (major : UInt16)
  | pool (why : PoolFault)
  | descriptor (why : Descriptor.Fault)
  | notInterfaceMethod (name : String)
  | callsInitializer
  | callsConstructor (op : Opcode)
  | argumentCount (count : UInt8) (expected : Nat)
  | notDynamicCall (found : Constant)
  | notArray (name : String)
  | dimensions (wanted : UInt8) (available : Nat)
  | notLoadable (found : Constant) (op : Opcode)
  | notField (name : String)
  | notMethod (name : String)
  | interfaceMethod (name : String)
  | newArray
  | tooManyDimensions
  deriving DecidableEq, Repr

inductive CodeFault where
  | noMethod (count : Nat)
  | error (why : Error)
  | descriptor (why : Descriptor.Fault)
  | length (n : Nat)
  | parameterSlots (maxLocals : UInt16) (slots : Nat)
  | catchType (why : PoolFault)
  | catchesArray (name : String)
  | operand (i : Instruction Handle) (why : OperandFault)
  deriving DecidableEq, Repr

inductive Rejection where
  | error (why : Error)
  | wrongName (requested found : String)
  | missing (name : String)
  | inClass (why : ClassFault)
  | inCode (method : String) (offset? : Option Nat) (why : CodeFault)
  | inFlow (method : String) (offset : Nat) (instruction? : Option (Instruction Handle))
      (why : FlowFault)
  deriving DecidableEq, Repr

def Place.label : Place → String
  | constant i => s!"constant #{i}"
  | thisClass => "this class"
  | superClass => "super class"
  | interface => "interface"
  | field n => s!"field #{n}"
  | method n => s!"method #{n}"

namespace ClassFault

def message : ClassFault → String
  | unresolved place why => place.label ++ ": " ++ why.message
  | className i why => s!"constant #{i}: invalid class name: {why.message}"
  | refName i why => s!"constant #{i}: {why.message}"
  | refDescriptor i why => s!"constant #{i}: {why.message}"
  | refersToInitializer i => s!"constant #{i}: class initializers can't be referenced"
  | constructorResult i => s!"constant #{i}: constructors must return void"
  | handleMember i k c =>
    s!"constant #{i}: {k.label} method handle points at {c.describe}"
  | noSuperClass n => s!"{n} has no super class (only {Name.object} may omit it)"
  | concreteInterface n => s!"interface {n} is not abstract"
  | finalAndAbstract n => s!"class {n} is both final and abstract"
  | memberName why => why.message
  | fieldDescriptor n why => s!"field {n}: {why.message}"
  | fieldTwice n d => s!"field {n} {d} is declared twice"
  | fieldVisibility n => s!"field {n} has conflicting visibility flags"
  | fieldConstant n why => s!"field {n}: {why.message}"
  | fieldMisfit n c t => s!"field {n}: constant value {c.describe} does not fit type {t.render}"
  | methodDescriptor n why => s!"method {n}: {why.message}"
  | methodTwice n d => s!"method {n}{d} is declared twice"
  | methodVisibility n d => s!"method {n}{d} has conflicting visibility flags"
  | methodSlots n d slots =>
    s!"method {n}{d} takes {slots} parameter slots (at most {maxParameterSlots} are allowed)"
  | constructorShape d => s!"constructor {d} must be an instance method returning void"
  | constructorOfInterface => "interfaces can't have constructors"
  | abstractFlags n d flags => s!"abstract method {n}{d} has incompatible flags {flags.describe}"
  | unwantedCode n d => s!"abstract or native method {n}{d} has code"
  | missingCode n d => s!"method {n}{d} has no code"

end ClassFault

def OperandFault.message : OperandFault → String
  | slotRange i m => s!"local variable {i} is out of range (max_locals is {m})"
  | subroutine major => s!"subroutines are not allowed in class file version {major}"
  | pool why => why.message
  | descriptor why => why.message
  | notInterfaceMethod n => s!"{n} is not an interface method"
  | callsInitializer => "class initializers can't be invoked"
  | callsConstructor op => s!"constructors can't be invoked with {op.mnemonic}"
  | argumentCount n expected => s!"argument count is {n} but the descriptor needs {expected}"
  | notDynamicCall c => s!"expected an InvokeDynamic constant, found {c.describe}"
  | notArray n => s!"{n} is not an array type"
  | dimensions n available => s!"can't create {n} dimensions of a {available} dimensional array"
  | notLoadable c op => s!"{c.describe} can't be loaded with {op.mnemonic}"
  | notField n => s!"{n} is not a field"
  | notMethod n => s!"{n} is not a method"
  | interfaceMethod n => s!"{n} is an interface method (use invokeinterface)"
  | newArray => "new can't create arrays"
  | tooManyDimensions => s!"array would have more than {maxDimensions} dimensions"

def CodeFault.message : CodeFault → String
  | noMethod n => s!"class has only {n} methods"
  | error why => why.message
  | descriptor why => why.message
  | length n => s!"code length {n} is outside 1..={maxCodeLength}"
  | parameterSlots m slots => s!"max_locals {m} is too small for {slots} parameter slots"
  | catchType why => s!"bad catch type: {why.message}"
  | catchesArray n => s!"arrays can't be caught ({n})"
  | operand i why => i.describe Handle.label ++ ": " ++ why.message

def Rejection.message : Rejection → String
  | error why => why.message
  | wrongName requested found =>
    s!"Wrong name: the internal name of the .class file '{found}' does not match " ++
      s!"the file's name '{requested}'"
  | missing n => s!"class '{n}' could not be found"
  | inClass why => why.message
  | inCode method (some offset) why => s!"{method} @ {offset}: {why.message}"
  | inCode method none why => s!"{method}: {why.message}"
  | inFlow method offset i? why =>
    s!"{method} @ {offset} (" ++ i?.elim "" (·.describe Handle.label) ++ "): " ++ why.message

end JvmClass
