import JvmClass.Name
import JvmClass.Total

/-!
Types of fields and signatures of methods, with their written form, the descriptor.
A base type is one letter, a class type is its binary name between L and a semicolon, an array
type has one bracket for each dimension in front of its element type, and a method descriptor
lists its parameters in parentheses before the type it returns, V when it returns nothing.
Array dimensions are counted at once, so the element of an array is never itself an array.
-/

namespace JvmClass

inductive BaseType where
  | byte | char | double | float | int | long | short | boolean
  deriving DecidableEq, Repr, Hashable

inductive ElementType where
  | base (type : BaseType)
  | object (name : String)
  deriving DecidableEq, Repr, Hashable

inductive RefType where
  | object (name : String)
  | array (dimensions : Nat) (element : ElementType)
  deriving DecidableEq, Repr, Hashable

inductive FieldType where
  | base (type : BaseType)
  | ref (type : RefType)
  deriving DecidableEq, Repr, Hashable

/-- Nothing is returned when there is no return type. -/
structure MethodType where
  parameters : List FieldType
  returns : Option FieldType
  deriving DecidableEq, Repr, Hashable

def maxDimensions : Nat := 255

def maxParameterSlots : Nat := 255

namespace BaseType

def all : List BaseType := [byte, char, double, float, int, long, short, boolean]

def letter : BaseType → Char
  | byte => 'B'
  | char => 'C'
  | double => 'D'
  | float => 'F'
  | int => 'I'
  | long => 'J'
  | short => 'S'
  | boolean => 'Z'

def ofLetter? : Char → Option BaseType
  | 'B' => some byte
  | 'C' => some char
  | 'D' => some double
  | 'F' => some float
  | 'I' => some int
  | 'J' => some long
  | 'S' => some short
  | 'Z' => some boolean
  | _ => none

def arrayCode : BaseType → UInt8
  | boolean => 4
  | char => 5
  | float => 6
  | double => 7
  | byte => 8
  | short => 9
  | int => 10
  | long => 11

def ofArrayCode? (code : UInt8) : Option BaseType := all.find? (·.arrayCode == code)

def word : BaseType → String
  | byte => "byte"
  | char => "char"
  | double => "double"
  | float => "float"
  | int => "int"
  | long => "long"
  | short => "short"
  | boolean => "boolean"

def slots : BaseType → Nat
  | double | long => 2
  | _ => 1

theorem ofLetter?_letter (b : BaseType) : ofLetter? b.letter = some b := by cases b <;> rfl

theorem ofArrayCode?_arrayCode (b : BaseType) : ofArrayCode? b.arrayCode = some b := by
  cases b <;> rfl

end BaseType

namespace ElementType

def toFieldType : ElementType → FieldType
  | base b => .base b
  | object n => .ref (.object n)

def chars : ElementType → List Char
  | base b => [b.letter]
  | object n => 'L' :: n.toList ++ [';']

end ElementType

namespace RefType

def chars : RefType → List Char
  | object n => (ElementType.object n).chars
  | array d e => List.replicate d '[' ++ e.chars

def render (t : RefType) : String := String.ofList t.chars

/-- The name by which a class constant refers to the type: that of a class is written as it is,
and that of an array is its descriptor. -/
def className : RefType → String
  | object n => n
  | array d e => (array d e).render

def arrayOf : FieldType → RefType
  | .base b => array 1 (.base b)
  | .ref (.object n) => array 1 (.object n)
  | .ref (.array d e) => array (d + 1) e

def component (dimensions : Nat) (element : ElementType) : FieldType :=
  if dimensions > 1 then .ref (array (dimensions - 1) element) else element.toFieldType

end RefType

namespace FieldType

def chars : FieldType → List Char
  | base b => [b.letter]
  | ref r => r.chars

def render (t : FieldType) : String := String.ofList t.chars

def array (t : FieldType) : FieldType := ref (.arrayOf t)

def slots : FieldType → Nat
  | base b => b.slots
  | ref _ => 1

end FieldType

namespace MethodType

def chars (m : MethodType) : List Char :=
  '(' :: m.parameters.flatMap FieldType.chars ++ ')' ::
    match m.returns with
    | none => ['V']
    | some t => t.chars

def render (m : MethodType) : String := String.ofList m.chars

/-- Slots of the parameters, with one more for the receiver where there is one. -/
def parameterSlots (m : MethodType) (receiver : Bool) : Nat :=
  (if receiver then 1 else 0) + total FieldType.slots m.parameters

end MethodType

namespace Descriptor

inductive Fault where
  | leftover (next : Char) (source : String)
  | baseLetter (c : Char)
  | missingBase
  | notArray
  | dimensions (n : Nat)
  | notObject
  | unterminated (name : String)
  | refLetter (c : Char)
  | missingRef
  | missingField
  | fieldLetter (c : Char)
  | missingOpen
  | missingClose
  | name (cause : Name.Fault)
  deriving DecidableEq, Repr

def Fault.message : Fault → String
  | leftover c s => s!"Unexpected leftover input '{c}' in '{s}'"
  | baseLetter c => s!"Invalid base type character '{c}'"
  | missingBase => "Missing base type character"
  | notArray => "Expected at least one \x60[\x60 for array type"
  | dimensions n => s!"Array type has {n} dimensions"
  | notObject => "Expected object type to start with \x60L\x60"
  | unterminated n => s!"Missing terminator for 'L{n}'"
  | refLetter c => s!"Invalid reference type character '{c}'"
  | missingRef => "Missing reference type"
  | missingField => "Missing field type"
  | fieldLetter c => s!"Invalid field type character '{c}'"
  | missingOpen => "Expected '(' for method"
  | missingClose => "Expected ')' for method"
  | name cause => cause.message

abbrev Reader (α : Type) := List Char → Except Fault (α × List Char)

def readAll {α : Type} (reader : Reader α) (source : String) : Except Fault α :=
  match reader source.toList with
  | .error e => .error e
  | .ok (a, []) => .ok a
  | .ok (_, c :: _) => .error (.leftover c source)

def readBase : Reader BaseType
  | [] => .error .missingBase
  | c :: cs =>
    match BaseType.ofLetter? c with
    | some b => .ok (b, cs)
    | none => .error (.baseLetter c)

def readObject : Reader String
  | 'L' :: cs =>
    let name := String.ofList (cs.takeWhile (· != ';'))
    match cs.dropWhile (· != ';') with
    | [] => .error (.unterminated name)
    | _ :: rest =>
      match Name.checkBinary name with
      | .error e => .error (.name e)
      | .ok () => .ok (name, rest)
  | _ => .error .notObject

def readElement : Reader ElementType
  | [] => .error .missingField
  | c :: cs =>
    match BaseType.ofLetter? c with
    | some b => .ok (.base b, cs)
    | none =>
      if c = 'L' then (readObject (c :: cs)).map fun (n, rest) => (.object n, rest)
      else .error (.fieldLetter c)

def readArray : Reader RefType := fun cs =>
  let brackets := (cs.takeWhile (· == '[')).length
  if brackets < 1 then .error .notArray
  else if brackets > maxDimensions then .error (.dimensions brackets)
  else (readElement (cs.dropWhile (· == '['))).map fun (e, rest) => (.array brackets e, rest)

def readRef : Reader RefType
  | [] => .error .missingRef
  | 'L' :: cs => (readObject ('L' :: cs)).map fun (n, rest) => (.object n, rest)
  | '[' :: cs => readArray ('[' :: cs)
  | c :: _ => .error (.refLetter c)

def readField : Reader FieldType
  | [] => .error .missingField
  | c :: cs =>
    match BaseType.ofLetter? c with
    | some b => .ok (.base b, cs)
    | none =>
      if c = 'L' ∨ c = '[' then (readRef (c :: cs)).map fun (r, rest) => (.ref r, rest)
      else .error (.fieldLetter c)

section Shorter

variable {cs rest : List Char}

theorem length_dropWhile_le {α : Type} (p : α → Bool) (xs : List α) :
    (xs.dropWhile p).length ≤ xs.length := by
  induction xs with
  | nil => simp
  | cons x xs ih =>
    rw [List.dropWhile_cons]
    split
    · simp only [List.length_cons]; omega
    · exact Nat.le_refl _

theorem eq_ok_of_map {α β : Type} {f : α → β} {x : Except Fault α} {b : β}
    (h : x.map f = .ok b) : ∃ a, x = .ok a ∧ f a = b := by
  cases x with
  | error e => cases h
  | ok a => cases h; exact ⟨a, rfl, rfl⟩

theorem readObject_shorter {n : String} (h : readObject cs = .ok (n, rest)) :
    rest.length < cs.length := by
  unfold readObject at h
  split at h
  · rename_i cs'
    dsimp only at h
    have hle := length_dropWhile_le (· != ';') cs'
    split at h
    · cases h
    · rename_i heq
      rw [heq] at hle
      split at h
      · cases h
      · cases h; simp only [List.length_cons] at hle ⊢; omega
  · cases h

theorem readElement_shorter {e : ElementType} (h : readElement cs = .ok (e, rest)) :
    rest.length < cs.length := by
  unfold readElement at h
  split at h
  · cases h
  · split at h
    · cases h; simp
    · split at h
      · obtain ⟨⟨n, r⟩, hr, he⟩ := eq_ok_of_map h
        cases he
        exact readObject_shorter hr
      · cases h

theorem readArray_shorter {r : RefType} (h : readArray cs = .ok (r, rest)) :
    rest.length < cs.length := by
  unfold readArray at h
  dsimp only at h
  split at h
  · cases h
  · split at h
    · cases h
    · obtain ⟨⟨e, r⟩, hr, he⟩ := eq_ok_of_map h
      cases he
      exact Nat.lt_of_lt_of_le (readElement_shorter hr) (length_dropWhile_le _ _)

theorem readRef_shorter {r : RefType} (h : readRef cs = .ok (r, rest)) :
    rest.length < cs.length := by
  unfold readRef at h
  split at h
  · cases h
  · obtain ⟨⟨n, r⟩, hr, he⟩ := eq_ok_of_map h
    cases he
    exact readObject_shorter hr
  · exact readArray_shorter h
  · cases h

theorem readField_shorter {t : FieldType} (h : readField cs = .ok (t, rest)) :
    rest.length < cs.length := by
  unfold readField at h
  split at h
  · cases h
  · split at h
    · cases h; simp
    · split at h
      · obtain ⟨⟨r, r'⟩, hr, he⟩ := eq_ok_of_map h
        cases he
        exact readRef_shorter hr
      · cases h

end Shorter

def readParameters (cs : List Char) : Except Fault (List FieldType × List Char) :=
  match cs with
  | [] => .error .missingClose
  | ')' :: rest => .ok ([], rest)
  | c :: cs =>
    match _h : readField (c :: cs) with
    | .error e => .error e
    | .ok (t, rest) => (readParameters rest).map fun (ts, rest) => (t :: ts, rest)
termination_by cs.length
decreasing_by exact readField_shorter (by assumption)

def readReturn : Reader (Option FieldType)
  | 'V' :: rest => .ok (none, rest)
  | cs => (readField cs).map fun (t, rest) => (some t, rest)

def readMethod : Reader MethodType
  | '(' :: cs => do
    let (parameters, cs) ← readParameters cs
    let (returns, cs) ← readReturn cs
    return (⟨parameters, returns⟩, cs)
  | _ => .error .missingOpen

end Descriptor

def BaseType.parse : String → Except Descriptor.Fault BaseType := Descriptor.readAll Descriptor.readBase

def RefType.parse : String → Except Descriptor.Fault RefType := Descriptor.readAll Descriptor.readRef

def RefType.parseArray : String → Except Descriptor.Fault RefType :=
  Descriptor.readAll Descriptor.readArray

def RefType.parseObject : String → Except Descriptor.Fault String :=
  Descriptor.readAll Descriptor.readObject

def FieldType.parse : String → Except Descriptor.Fault FieldType :=
  Descriptor.readAll Descriptor.readField

def MethodType.parse : String → Except Descriptor.Fault MethodType :=
  Descriptor.readAll Descriptor.readMethod

/-- The type that a class constant names: an array if the name starts with a bracket. -/
def RefType.ofClassName (name : String) : Except Descriptor.Fault RefType :=
  if name.toList.head? = some '[' then parseArray name
  else
    match Name.checkBinary name with
    | .error e => .error (.name e)
    | .ok () => .ok (.object name)

end JvmClass
