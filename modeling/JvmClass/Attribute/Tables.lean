import JvmClass.Attribute.Basic

/-!
Attributes that hold indices and tables: constant values of fields, the source file of a class,
the exceptions that a method declares, and the lines and local variables of code.
-/

namespace JvmClass

structure ConstantValue where
  constant : UInt16
  deriving DecidableEq, Repr

structure SourceFile where
  name : UInt16
  deriving DecidableEq, Repr

structure Exceptions where
  classes : List UInt16
  deriving DecidableEq, Repr

structure LineNumber where
  start : UInt16
  line : UInt16
  deriving DecidableEq, Repr

structure LineNumberTable where
  entries : Array LineNumber
  deriving DecidableEq, Repr

structure LocalVariable where
  start : UInt16
  length : UInt16
  name : UInt16
  descriptor : UInt16
  slot : UInt16
  deriving DecidableEq, Repr

structure LocalVariableTable where
  entries : List LocalVariable
  deriving DecidableEq, Repr

open Decoder Output

instance : AttributeKind ConstantValue where
  title := "ConstantValue"
  encode v := .u16 v.constant
  decoder := ConstantValue.mk <$> Decoder.u16

instance : AttributeKind SourceFile where
  title := "SourceFile"
  encode v := .u16 v.name
  decoder := SourceFile.mk <$> Decoder.u16

instance : AttributeKind Exceptions where
  title := "Exceptions"
  encode v := .counted v.classes Output.u16
  decoder := Exceptions.mk <$> .counted Decoder.u16

namespace LineNumber

def encode (n : LineNumber) : Output := .u16 n.start ++ .u16 n.line

def decoder : Decoder LineNumber := return ⟨← Decoder.u16, ← Decoder.u16⟩

end LineNumber

namespace LineNumberTable

def line? (t : LineNumberTable) (pc : Int) : Option UInt16 :=
  if pc < 0 then none
  else (Search.lastUpTo? (fun n => n.start.toNat) t.entries pc.toNat).map (·.line)

end LineNumberTable

instance : AttributeKind LineNumberTable where
  title := "LineNumberTable"
  encode t := .countedAs "line number table length" t.entries.toList LineNumber.encode
  decoder := (fun ns => ⟨ns.toArray⟩) <$> .counted LineNumber.decoder

namespace LocalVariable

def encode (v : LocalVariable) : Output :=
  .u16 v.start ++ .u16 v.length ++ .u16 v.name ++ .u16 v.descriptor ++ .u16 v.slot

def decoder : Decoder LocalVariable :=
  return ⟨← Decoder.u16, ← Decoder.u16, ← Decoder.u16, ← Decoder.u16, ← Decoder.u16⟩

end LocalVariable

instance : AttributeKind LocalVariableTable where
  title := "LocalVariableTable"
  encode t := .counted t.entries LocalVariable.encode
  decoder := LocalVariableTable.mk <$> .counted LocalVariable.decoder

end JvmClass
