import JvmClass.Decimal.Shortest
import JvmClass.Slotted
import JvmClass.Text.Quoted

/-!
Constants of a class file.  A constant refers to others by their index in the pool.  Floating
point numbers are kept as their bits, so that equality of constants is equality of what is
written, whatever the numbers are.
-/

namespace JvmClass

inductive HandleKind where
  | getField | getStatic | putField | putStatic | invokeVirtual | invokeStatic | invokeSpecial
  | newInvokeSpecial | invokeInterface
  deriving DecidableEq, Repr, Hashable

namespace HandleKind

def all : List HandleKind :=
  [getField, getStatic, putField, putStatic, invokeVirtual, invokeStatic, invokeSpecial,
    newInvokeSpecial, invokeInterface]

def label : HandleKind → String
  | getField => "GetField"
  | getStatic => "GetStatic"
  | putField => "PutField"
  | putStatic => "PutStatic"
  | invokeVirtual => "InvokeVirtual"
  | invokeStatic => "InvokeStatic"
  | invokeSpecial => "InvokeSpecial"
  | newInvokeSpecial => "NewInvokeSpecial"
  | invokeInterface => "InvokeInterface"

def code : HandleKind → UInt8
  | getField => 1
  | getStatic => 2
  | putField => 3
  | putStatic => 4
  | invokeVirtual => 5
  | invokeStatic => 6
  | invokeSpecial => 7
  | newInvokeSpecial => 8
  | invokeInterface => 9

def ofCode? (code : UInt8) : Option HandleKind := all.find? (·.code == code)

def isField : HandleKind → Bool
  | getField | getStatic | putField | putStatic => true
  | _ => false

theorem ofCode?_code (k : HandleKind) : ofCode? k.code = some k := by cases k <;> rfl

end HandleKind

inductive Constant where
  | utf8 (text : String)
  | integer (value : Int32)
  | float (bits : UInt32)
  | long (value : Int64)
  | double (bits : UInt64)
  | classInfo (name : UInt16)
  | string (text : UInt16)
  | fieldRef (owner nameAndType : UInt16)
  | methodRef (owner nameAndType : UInt16) (ofInterface : Bool)
  | nameAndType (name descriptor : UInt16)
  | methodHandle (kind : HandleKind) (member : UInt16)
  | methodType (descriptor : UInt16)
  | dynamic (bootstrap nameAndType : UInt16)
  | invokeDynamic (bootstrap nameAndType : UInt16)
  | moduleInfo (name : UInt16)
  | packageInfo (name : UInt16)
  deriving DecidableEq, Repr, Hashable

namespace Constant

def tag : Constant → UInt8
  | utf8 _ => 1
  | integer _ => 3
  | float _ => 4
  | long _ => 5
  | double _ => 6
  | classInfo _ => 7
  | string _ => 8
  | fieldRef _ _ => 9
  | methodRef _ _ false => 10
  | methodRef _ _ true => 11
  | nameAndType _ _ => 12
  | methodHandle _ _ => 15
  | methodType _ => 16
  | dynamic _ _ => 17
  | invokeDynamic _ _ => 18
  | moduleInfo _ => 19
  | packageInfo _ => 20

instance : Width Constant where
  width
    | long _ | double _ => 2
    | _ => 1

def isSingleLoadable : Constant → Bool
  | integer _ | float _ | string _ | classInfo _ | methodHandle _ _ | methodType _
  | dynamic _ _ => true
  | _ => false

def describeIndex (kind : String) (i : UInt16) : String := s!"{kind}(ConstantIndex({i}))"

def describeText : UInt16 → String := describeIndex "Utf8ConstantIndex"
def describeOwner : UInt16 → String := describeIndex "ClassConstantIndex"
def describePair : UInt16 → String := describeIndex "NameAndTypeConstantIndex"

def describeRecord (name : String) (fields : List (String × String)) : String :=
  name ++ " \x7b " ++ ", ".intercalate (fields.map fun (f, v) => s!"{f}: {v}") ++ " \x7d"

def describe : Constant → String
  | utf8 s => s!"Utf8({Text.quoted s})"
  | integer n => s!"Integer({n.toInt})"
  | float b => s!"Float({Decimal.renderBits Decimal.single b.toNat})"
  | long n => s!"Long({n.toInt})"
  | double b => s!"Double({Decimal.renderBits Decimal.double b.toNat})"
  | classInfo i => s!"Class({describeText i})"
  | string i => s!"String({describeText i})"
  | fieldRef c n =>
    describeRecord "FieldRef" [("class", describeOwner c), ("name_and_type", describePair n)]
  | methodRef c n i =>
    describeRecord "MethodRef" [("class", describeOwner c), ("name_and_type", describePair n),
      ("is_interface", toString i)]
  | nameAndType n d =>
    describeRecord "NameAndType" [("name", describeText n), ("descriptor", describeText d)]
  | methodHandle k m =>
    describeRecord "MethodHandle" [("handle_kind", k.label), ("member", s!"ConstantIndex({m})")]
  | methodType d => describeRecord "MethodType" [("descriptor", describeText d)]
  | dynamic b n =>
    describeRecord "Dynamic" [("bootstrap_method", toString b), ("name_and_type", describePair n)]
  | invokeDynamic b n =>
    describeRecord "InvokeDynamic"
      [("bootstrap_method", toString b), ("name_and_type", describePair n)]
  | moduleInfo i => s!"Module({describeText i})"
  | packageInfo i => s!"Package({describeText i})"

end Constant

end JvmClass
