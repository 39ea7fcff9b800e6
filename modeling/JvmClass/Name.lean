/-!
Names of classes, fields and methods.  An unqualified name is not empty and has none of the
characters that separate names in descriptors; a binary name is a sequence of unqualified names
with slashes between them; a method name has no angle brackets either, the two special names
apart.
-/

namespace JvmClass.Name

inductive Fault where
  | illegalCharacter (name : String)
  | empty
  | emptyBinary
  | segment (name : String) (cause : Fault)
  | angleBracket (name : String)
  deriving DecidableEq, Repr

def Fault.message : Fault → String
  | illegalCharacter n => s!"Unqualified name '{n}' contains an illegal character"
  | empty => "Unqualified name is empty"
  | emptyBinary => "Binary name is empty"
  | segment n cause => s!"Binary name '{n}' is invalid: {cause.message}"
  | angleBracket n => s!"Method name '{n}' contains an illegal character"

def constructorName : String := "<init>"

def classInitializerName : String := "<clinit>"

def object : String := "java/lang/Object"
def classObject : String := "java/lang/Class"
def stringObject : String := "java/lang/String"
def throwable : String := "java/lang/Throwable"
def cloneable : String := "java/lang/Cloneable"
def serializable : String := "java/io/Serializable"
def methodHandle : String := "java/lang/invoke/MethodHandle"
def methodType : String := "java/lang/invoke/MethodType"

def isSeparator (c : Char) : Bool := c == '.' || c == ';' || c == '[' || c == '/'

def checkUnqualified (name : String) : Except Fault Unit :=
  if name.toList.any isSeparator then .error (.illegalCharacter name)
  else if name.toList.isEmpty then .error .empty
  else .ok ()

def checkMethod (name : String) : Except Fault Unit := do
  if name = constructorName ∨ name = classInitializerName then return
  checkUnqualified name
  if name.toList.any fun c => c == '<' || c == '>' then throw (.angleBracket name)

/-- The pieces between slashes, of which there is one more than there are slashes. -/
def segments : List Char → List (List Char)
  | [] => [[]]
  | c :: cs =>
    if c = '/' then [] :: segments cs
    else
      match segments cs with
      | [] => [[c]]
      | s :: ss => (c :: s) :: ss

def checkSegments : List (List Char) → Except Fault Unit
  | [] => .ok ()
  | s :: ss => do
    checkUnqualified (String.ofList s)
    checkSegments ss

def checkBinary (name : String) : Except Fault Unit :=
  if name.toList.isEmpty then .error .emptyBinary
  else (checkSegments (segments name.toList)).mapError (.segment name)

def internalForm (name : String) : String :=
  String.ofList (name.toList.map fun c => if c = '.' then '/' else c)

@[simp] theorem internalForm_internalForm (name : String) :
    internalForm (internalForm name) = internalForm name := by
  unfold internalForm
  rw [String.toList_ofList, List.map_map]
  refine congrArg String.ofList (List.map_congr_left fun x _ => ?_)
  by_cases dot : x = '.' <;> simp [dot]

end JvmClass.Name
