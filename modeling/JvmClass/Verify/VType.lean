import JvmClass.Descriptor
import JvmClass.Slotted

/-!
Types of values as the verifier sees them.  References are named as class constants name them:
classes by their names and arrays by their descriptors.  Class hierarchies are not consulted, so
any class is assumed to be assignable to any other, and the only common type of two different
reference types is the root class.
-/

namespace JvmClass

inductive VType where
  /-- A local variable that holds nothing usable. -/
  | top
  | int
  | float
  | long
  | double
  | null
  /-- The receiver of a constructor that has not called another constructor yet. -/
  | uninitializedThis
  /-- What the new instruction at this offset made, before its constructor has run. -/
  | uninitialized (offset : Nat)
  | object (name : String)
  deriving DecidableEq, Repr, Hashable

namespace VType

def label : VType → String
  | top => "top"
  | int => "int"
  | float => "float"
  | long => "long"
  | double => "double"
  | null => "null"
  | uninitializedThis => "uninitializedThis"
  | uninitialized o => s!"uninitialized({o})"
  | object n => n

instance : Width VType where
  width
    | long | double => 2
    | _ => 1

def ofFieldType : FieldType → VType
  | .base .float => float
  | .base .long => long
  | .base .double => double
  | .base _ => int
  | .ref r => object r.className

def ofClassName (name : String) : Except Descriptor.Fault VType :=
  (RefType.ofClassName name).map fun r => object r.className

def isReference : VType → Bool
  | null | uninitializedThis | uninitialized _ | object _ => true
  | _ => false

def isUninitialized : VType → Bool
  | uninitializedThis | uninitialized _ => true
  | _ => false

/-- Type of the values in an array; null counts as an array of null. -/
def component? : VType → Option VType
  | null => some null
  | object n =>
    match RefType.ofClassName n with
    | .ok (.array d e) => some (ofFieldType (RefType.component d e))
    | _ => none
  | _ => none

def isByteOrBooleanArray : VType → Bool
  | null => true
  | object n => n == "[B" || n == "[Z"
  | _ => false

def isArrayOf (element : String) : VType → Bool
  | null => true
  | object n => n.toList == '[' :: element.toList
  | _ => false

/-- A name with one bracket in front that does not end like a class. -/
def isPrimitiveArray (name : String) : Bool :=
  match name.toList with
  | '[' :: rest => ('[' :: rest).getLast? != some ';' && rest.head? != some '['
  | _ => false

def isAssignable : VType → VType → Bool
  | _, top => true
  | null, object _ => true
  | object sub, object sup =>
    sub == sup || sup == Name.object || sup == Name.cloneable || sup == Name.serializable ||
      !(isPrimitiveArray sub || isPrimitiveArray sup)
  | a, b => a == b

/-- The least type of both; types with nothing in common meet at the top. -/
def merge (a b : VType) : VType :=
  if a = b then a
  else
    match a, b with
    | null, object n => object n
    | object n, null => object n
    | object _, object _ => object Name.object
    | _, _ => top

def room : VType → Nat
  | top => 0
  | null => 3
  | object n => if n = Name.object then 1 else 2
  | _ => 1

theorem merge_self (a : VType) : a.merge a = a := by simp [merge]

theorem room_merge_le (a b : VType) : (a.merge b).room ≤ a.room := by
  unfold merge
  split
  · exact Nat.le_refl _
  · cases a <;> cases b <;> simp [room] <;> split <;> omega

theorem room_merge_lt {a b : VType} (h : a.merge b ≠ a) : (a.merge b).room < a.room := by
  unfold merge at h ⊢
  split at h
  · exact absurd rfl h
  · rename_i hab
    rw [if_neg hab]
    cases a <;> cases b <;> simp [room] at h ⊢ <;> first | omega | (split <;> omega) | skip
    all_goals rename_i n m
    all_goals split
    all_goals simp_all

end VType

end JvmClass
