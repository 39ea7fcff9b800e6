import JvmClass.Attribute.Tables
import JvmClass.ClassFile
import JvmClass.Verify.Rejection

/-!
First checks of a class that has been found: it is the class that was asked for, its version is
supported, and the attributes of known kinds decode.  An attribute whose name does not resolve is
of no known kind.
-/

namespace JvmClass.ClassFile

def isTitled (p : Pool) (title : String) (a : Attribute) : Bool :=
  match a.title p with
  | .ok found => found == title
  | .error _ => false

def checkKind (α : Type) [AttributeKind α] (p : Pool) (a : Attribute) : Except Error Unit :=
  if isTitled p (AttributeKind.title α) a then discard (a.value α) else pure ()

def checkCodeAttribute (p : Pool) (a : Attribute) : Except Error Unit := do
  if isTitled p (AttributeKind.title Code) a then
    let code ← a.value Code
    code.attributes.forM fun nested => do
      checkKind LineNumberTable p nested
      checkKind LocalVariableTable p nested

def checkAttributes (c : ClassFile) : Except Error Unit := do
  c.attributes.forM (checkKind SourceFile c.pool)
  c.fields.forM fun f => f.attributes.forM (checkKind ConstantValue c.pool)
  c.methods.forM fun m => m.attributes.forM fun a => do
    checkKind Exceptions c.pool a
    checkCodeAttribute c.pool a

/-- The recorded name only has to end with the one that was asked for. -/
def checkName (requested : String) (c : ClassFile) : Except Rejection Unit :=
  match c.name with
  | .error e => .error (.error (.pool e))
  | .ok found =>
    if requested.toList.isSuffixOf found.toList then .ok () else .error (.wrongName requested found)

def checkVersion (newest : UInt16) (c : ClassFile) : Except Error Unit :=
  if oldestMajorVersion ≤ c.version.major ∧ c.version.major ≤ newest then .ok ()
  else .error (.malformed (.version c.version.major c.version.minor newest))

/-- The checks of loading a class under a name, up to the newest major version. -/
def checkLoaded (requested : String) (newest : UInt16) (c : ClassFile) : Except Rejection Unit := do
  checkName requested c
  (checkVersion newest c).mapError .error
  (checkAttributes c).mapError .error

end JvmClass.ClassFile
