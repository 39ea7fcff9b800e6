import JvmClass.Pool.Basic

/-!
Attributes in their raw form: the index of a name, and bytes.  Those of a known kind are decoded
when they are asked for, and all others are carried along byte for byte.
-/

namespace JvmClass

structure Attribute where
  name : UInt16
  info : List UInt8
  deriving DecidableEq, Repr

class AttributeKind (α : Type) where
  title : String
  encode : α → Output
  decoder : Decoder α

namespace Attribute

def encode (a : Attribute) : Output :=
  match length32 "attribute length" a.info.length with
  | .error e => .fail e
  | .ok n => .u16 a.name ++ (.u32 n ++ .put a.info)

def decoder : Decoder Attribute := do
  let name ← Decoder.u16
  let n ← Decoder.u32
  return ⟨name, ← Decoder.run n.toNat⟩

def title (a : Attribute) (p : Pool) : Except PoolFault String := p.getUtf8 a.name

/-- Malformed contents are reported with the name of the attribute in front. -/
def blame (title : String) : Error → Error
  | .malformed why => .malformed (.inAttribute title why)
  | e => e

def value (a : Attribute) (α : Type) [AttributeKind α] : Except Error α :=
  (AttributeKind.decoder.decode a.info).mapError (blame (AttributeKind.title α))

/-- The first attribute of a name.  A name before it that does not resolve is a fault. -/
def find? (p : Pool) (title : String) : List Attribute → Except PoolFault (Option Attribute)
  | [] => .ok none
  | a :: rest => do
    if (← a.title p) = title then return some a else find? p title rest

def findValue? (p : Pool) (α : Type) [AttributeKind α] (attributes : List Attribute) :
    Except Error (Option α) := do
  match ← (find? p (AttributeKind.title α) attributes).mapError .pool with
  | none => pure none
  | some a => some <$> a.value α

end Attribute

def Pool.addAttribute {α : Type} [AttributeKind α] (a : α) : Adding Attribute := do
  let name ← addUtf8 (AttributeKind.title α)
  let info ← liftExcept (AttributeKind.encode a).toExcept
  return ⟨name, info⟩

end JvmClass
