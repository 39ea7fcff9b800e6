import JvmClass.Attribute.Basic

/-!
The attribute that holds the body of a method: limits of the stack and the locals, the code
array, the exception table, and attributes of its own.
-/

namespace JvmClass

/-- Code from `start` up to but not including `stop` is covered by a handler, for all exceptions
or for those of one class. -/
structure ExceptionEntry where
  start : UInt16
  stop : UInt16
  handler : UInt16
  catches : Option UInt16
  deriving DecidableEq, Repr

structure Code where
  maxStack : UInt16
  maxLocals : UInt16
  bytes : List UInt8
  handlers : List ExceptionEntry
  attributes : List Attribute
  deriving DecidableEq, Repr

def Output.optional16 (i : Option UInt16) : Output := .u16 (i.getD 0)

def Decoder.optional16 : Decoder (Option UInt16) := do
  let i ← Decoder.u16
  return if i = 0 then none else some i

def Decoder.longRun : Decoder (List UInt8) := do
  let n ← Decoder.u32
  run n.toNat

namespace ExceptionEntry

def encode (e : ExceptionEntry) : Output :=
  .u16 e.start ++ .u16 e.stop ++ .u16 e.handler ++ .optional16 e.catches

def decoder : Decoder ExceptionEntry :=
  return ⟨← Decoder.u16, ← Decoder.u16, ← Decoder.u16, ← Decoder.optional16⟩

end ExceptionEntry

namespace Code

def encode (c : Code) : Output :=
  .u16 c.maxStack ++ (.u16 c.maxLocals ++ (.longRun "code length" c.bytes ++
    (.counted c.handlers ExceptionEntry.encode ++ .counted c.attributes Attribute.encode)))

def decoder : Decoder Code :=
  return ⟨← Decoder.u16, ← Decoder.u16, ← Decoder.longRun, ← .counted ExceptionEntry.decoder,
    ← .counted Attribute.decoder⟩

end Code

instance : AttributeKind Code where
  title := "Code"
  encode := Code.encode
  decoder := Code.decoder

end JvmClass
