import JvmClass.Error
import JvmClass.Verify.VType

/-!
What can go wrong when an instruction acts on a frame.
-/

namespace JvmClass

inductive ConstantFault where
  | pool (why : PoolFault)
  | className (why : Descriptor.Fault)
  | notLoadable (found : Constant)
  | notDynamicCall (found : Constant)
  deriving DecidableEq, Repr

inductive FlowFault where
  | emptyStack
  | stackOverflow (maxStack : UInt16)
  | invalidWidth (found : Nat)
  | notArray
  | invalidLocal (slot : UInt16)
  | invalidType
  | incompatible (expected found : VType)
  | heightMismatch (a b : Nat)
  | fallsOffEnd
  | uninitializedObject
  | badReturn
  | subroutine
  | badDescriptor (text : String)
  | invalidConstant (why : ConstantFault)
  deriving DecidableEq, Repr

def ConstantFault.message : ConstantFault → String
  | pool why => why.message
  | className why => why.message
  | notLoadable c => s!"{c.describe} is not loadable"
  | notDynamicCall c => s!"expected InvokeDynamic, found {c.describe}"

def FlowFault.message : FlowFault → String
  | emptyStack => "operand stack underflow"
  | stackOverflow m => s!"operand stack grows past max_stack {m}"
  | invalidWidth n => s!"expected a value of width {n}"
  | notArray => "expected an array"
  | invalidLocal i => s!"invalid local variable {i}"
  | invalidType => "invalid type"
  | incompatible expected found => s!"expected {expected.label} but found {found.label}"
  | heightMismatch a b => s!"operand stack heights {a} and {b} do not merge"
  | fallsOffEnd => "execution falls off the end of the code"
  | uninitializedObject => "uninitialized object used before its constructor ran"
  | badReturn => "return does not match the method descriptor"
  | subroutine => "subroutines (jsr/ret) are not supported"
  | badDescriptor text => s!"malformed descriptor {text}"
  | invalidConstant why => s!"invalid constant: {why.message}"

end JvmClass
