import JvmClass.Constant.Codec
import Std.Data.HashMap

/-!
Constant pools.  Indices start at 1, and a wide constant uses two of them.  Entries never change:
adding a constant gives the index of an equal one if there is one, and otherwise puts it at the
end.  When a helper that adds several constants fails, those it had added stay.
-/

namespace JvmClass

/-- The constants by index, and the first index of each of them. -/
structure Pool where
  entries : Slotted Constant
  index : Std.HashMap Constant UInt16

abbrev Adding := EStateM Error Pool

inductive MemberKind where
  | field | method | interfaceMethod
  deriving DecidableEq, Repr

structure MemberRef where
  owner : String
  name : String
  descriptor : String
  kind : MemberKind
  deriving DecidableEq, Repr

def MemberKind.label : MemberKind → String
  | field => "Field"
  | method => "Method"
  | interfaceMethod => "InterfaceMethod"

theorem Constant.width_pos (c : Constant) : 0 < Width.width c := by
  cases c <;> simp [Width.width]

namespace Pool

def empty : Pool := ⟨.startingAt 1, ∅⟩

def count (p : Pool) : UInt16 := p.entries.next.toUInt16

def size (p : Pool) : Nat := p.entries.size

def isEmpty (p : Pool) : Bool := p.entries.isEmpty

def constants (p : Pool) : List Constant := p.entries.toList

def toList (p : Pool) : List (UInt16 × Constant) :=
  p.entries.entries.toList.map fun (slot, c) => (slot.toUInt16, c)

def get (p : Pool) (i : UInt16) : Except PoolFault Constant :=
  match p.entries.at? i.toNat with
  | some c => .ok c
  | none => .error (.outOfRange i)

/-- The pool with one more entry; an equal constant that came before keeps its place in the
index. -/
def extended : Pool → Constant → Pool
  | ⟨entries, index⟩, c =>
    match entries.put c with
    | (slot, entries) => ⟨entries, index.insertIfNew c slot.toUInt16⟩

/-- Puts a constant at the end, if its indices are at most 65534. -/
def push (c : Constant) : Adding UInt16 := fun p =>
  let next := p.count
  if next.toNat + Width.width c > 0xFFFF then .error (.poolFull c next.toNat) p
  else .ok next (p.extended c)

def add (c : Constant) : Adding UInt16 := fun p =>
  match c.checkLength with
  | .error e => .error e p
  | .ok () =>
    match p.index[c]? with
    | some i => .ok i p
    | none => push c p

def addUtf8 (s : String) : Adding UInt16 := add (.utf8 s)

/-- Adds a class by its name, or by the descriptor of an array. -/
def addClass (name : String) : Adding UInt16 := do
  add (.classInfo (← addUtf8 name))

def addString (s : String) : Adding UInt16 := do
  add (.string (← addUtf8 s))

def addNameAndType (name descriptor : String) : Adding UInt16 := do
  let name ← addUtf8 name
  let descriptor ← addUtf8 descriptor
  add (.nameAndType name descriptor)

def addFieldRef (owner name descriptor : String) : Adding UInt16 := do
  let owner ← addClass owner
  let pair ← addNameAndType name descriptor
  add (.fieldRef owner pair)

def addMethodRef (owner name descriptor : String) (ofInterface : Bool) : Adding UInt16 := do
  let owner ← addClass owner
  let pair ← addNameAndType name descriptor
  add (.methodRef owner pair ofInterface)

def getUtf8 (p : Pool) (i : UInt16) : Except PoolFault String := do
  match ← p.get i with
  | .utf8 s => pure s
  | c => throw (.unexpected i "a Utf8" c)

def getClassName (p : Pool) (i : UInt16) : Except PoolFault String := do
  match ← p.get i with
  | .classInfo name => p.getUtf8 name
  | c => throw (.unexpected i "a Class" c)

def getNameAndType (p : Pool) (i : UInt16) : Except PoolFault (String × String) := do
  match ← p.get i with
  | .nameAndType name descriptor => return (← p.getUtf8 name, ← p.getUtf8 descriptor)
  | c => throw (.unexpected i "a NameAndType" c)

def memberParts? : Constant → Option (UInt16 × UInt16 × MemberKind)
  | .fieldRef owner pair => some (owner, pair, .field)
  | .methodRef owner pair false => some (owner, pair, .method)
  | .methodRef owner pair true => some (owner, pair, .interfaceMethod)
  | _ => none

/-- Resolves the name and type first, and the owner after them. -/
def getMemberRef (p : Pool) (i : UInt16) : Except PoolFault MemberRef := do
  let c ← p.get i
  match memberParts? c with
  | some (owner, pair, kind) =>
    let (name, descriptor) ← p.getNameAndType pair
    return ⟨← p.getClassName owner, name, descriptor, kind⟩
  | none => throw (.unexpected i "a field or method reference" c)

@[simp] theorem constants_empty : empty.constants = [] := rfl

@[simp] theorem constants_extended (p : Pool) (c : Constant) :
    (p.extended c).constants = p.constants ++ [c] := by
  simp [extended, constants]

@[simp] theorem next_extended (p : Pool) (c : Constant) :
    (p.extended c).entries.next = p.entries.next + Width.width c := rfl

end Pool

end JvmClass
