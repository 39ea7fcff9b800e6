import JvmClass.AccessFlags

/-!
Opcodes are bytes.  What is known about each assigned one is an `Entry`: its mnemonic, the shape
of its operands, what it can do, and its effect on the operand stack where that is always the
same.
-/

namespace JvmClass

structure Opcode where
  code : UInt8
  deriving DecidableEq, Repr, Hashable

/-- Opcodes are few, so what can be decided of each of them can be decided of all. -/
instance (priority := low) Opcode.decidableForall {P : Opcode → Prop} [DecidablePred P] :
    Decidable (∀ op, P op) :=
  decidable_of_iff (∀ code : Fin 256, P ⟨UInt8.ofFin code⟩)
    ⟨fun all op => all op.code.toFin, fun all _ => all _⟩

inductive OperandShape where
  | none | byte | short | local | increment | shortConstant | constant | interfaceCall
  | dynamicCall | newArray | multiArray | branch | wideBranch | tableSwitch | lookupSwitch | wide
  deriving DecidableEq, Repr

inductive Facet where
  | branch | conditional | select | returning | throwing | constant | localVariable | invoke
  | fieldAccess | allocation | producer | consumer | variableLength | subroutine
  deriving DecidableEq, Repr

inductive ValueKind where
  | int | long | float | double | reference
  deriving DecidableEq, Repr

inductive StackEffect where
  | fixed (pops pushes : List ValueKind)
  /-- The effect depends on operands, constants, locals or the stack. -/
  | special
  deriving DecidableEq, Repr

structure LocalAccess where
  kind : ValueKind
  isStore : Bool
  /-- The variable, where the opcode itself names it. -/
  named? : Option UInt16
  deriving DecidableEq, Repr

namespace OperandShape

def label : OperandShape → String
  | none => "None"
  | byte => "Byte"
  | short => "Short"
  | «local» => "Local"
  | increment => "IInc"
  | shortConstant => "ConstantU8"
  | constant => "Constant"
  | interfaceCall => "InvokeInterface"
  | dynamicCall => "InvokeDynamic"
  | newArray => "NewArray"
  | multiArray => "MultiANewArray"
  | branch => "Branch"
  | wideBranch => "BranchWide"
  | tableSwitch => "TableSwitch"
  | lookupSwitch => "LookupSwitch"
  | wide => "Wide"

end OperandShape

namespace Facet

def namedBit : Facet → NamedBit
  | branch => ⟨"BRANCH", 0x0001⟩
  | conditional => ⟨"CONDITIONAL", 0x0002⟩
  | select => ⟨"SELECT", 0x0004⟩
  | returning => ⟨"RETURN", 0x0008⟩
  | throwing => ⟨"EXCEPTION_THROWER", 0x0010⟩
  | constant => ⟨"CONSTANT_POOL", 0x0020⟩
  | localVariable => ⟨"LOCAL_VARIABLE", 0x0040⟩
  | invoke => ⟨"INVOKE", 0x0080⟩
  | fieldAccess => ⟨"FIELD_ACCESS", 0x0100⟩
  | allocation => ⟨"ALLOCATION", 0x0200⟩
  | producer => ⟨"STACK_PRODUCER", 0x0400⟩
  | consumer => ⟨"STACK_CONSUMER", 0x0800⟩
  | variableLength => ⟨"VARIABLE_LENGTH", 0x1000⟩
  | subroutine => ⟨"SUBROUTINE", 0x2000⟩

def all : List Facet :=
  [branch, conditional, select, returning, throwing, constant, localVariable, invoke,
    fieldAccess, allocation, producer, consumer, variableLength, subroutine]

def bits (fs : List Facet) : UInt16 := fs.foldl (fun acc f => acc ||| f.namedBit.bit) 0

def describe (fs : List Facet) : String := NamedBit.describe (all.map namedBit) (bits fs)

end Facet

namespace ValueKind

def all : List ValueKind := [int, long, float, double, reference]

def letter : ValueKind → Char
  | int => 'I'
  | long => 'J'
  | float => 'F'
  | double => 'D'
  | reference => 'A'

def label : ValueKind → String
  | int => "Int"
  | long => "Long"
  | float => "Float"
  | double => "Double"
  | reference => "Reference"

def slots : ValueKind → Nat
  | long | double => 2
  | _ => 1

end ValueKind

end JvmClass
