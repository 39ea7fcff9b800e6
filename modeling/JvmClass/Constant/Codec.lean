import JvmClass.Wire.Input
import JvmClass.Wire.Output

/-!
Constants in class files: the tag, and then what the constant holds.  A text comes with its
length in two bytes, which is checked before the tag is put out.
-/

namespace JvmClass

namespace HandleKind

def encode (k : HandleKind) : Output := .u8 k.code

def decoder : Decoder HandleKind := do
  let code ← Decoder.byte
  match ofCode? code with
  | some k => pure k
  | none => .fail (.unknownHandleKind code)

end HandleKind

namespace Constant

open Output

def operands : Constant → Output
  | utf8 s =>
    let text := Text.ModifiedUtf8.encode s
    u16 text.length.toUInt16 ++ put text
  | integer n => i32 n
  | float b => u32 b
  | long n => i64 n
  | double b => u64 b
  | classInfo i | string i | methodType i | moduleInfo i | packageInfo i => u16 i
  | fieldRef c n | methodRef c n _ => u16 c ++ u16 n
  | nameAndType n d => u16 n ++ u16 d
  | methodHandle k m => k.encode ++ u16 m
  | dynamic b n | invokeDynamic b n => u16 b ++ u16 n

def checkLength : Constant → Except Error Unit
  | utf8 s =>
    (length16 "Utf8 constant length" (Text.ModifiedUtf8.encode s).length).map fun _ => ()
  | _ => .ok ()

def encode (c : Constant) : Output :=
  match c.checkLength with
  | .error e => fail e
  | .ok () => u8 c.tag ++ c.operands

open Decoder in
def decoder : Decoder Constant := do
  let tag ← byte
  match tag with
  | 1 => do
    let n ← u16
    let bytes ← run n.toNat
    match Text.ModifiedUtf8.decode bytes with
    | .ok s => pure (utf8 s)
    | .error cause => .fail (.text cause)
  | 3 => integer <$> i32
  | 4 => float <$> u32
  | 5 => long <$> i64
  | 6 => double <$> u64
  | 7 => classInfo <$> u16
  | 8 => string <$> u16
  | 9 => return fieldRef (← u16) (← u16)
  | 10 => return methodRef (← u16) (← u16) false
  | 11 => return methodRef (← u16) (← u16) true
  | 12 => return nameAndType (← u16) (← u16)
  | 15 => return methodHandle (← HandleKind.decoder) (← u16)
  | 16 => methodType <$> u16
  | 17 => return dynamic (← u16) (← u16)
  | 18 => return invokeDynamic (← u16) (← u16)
  | 19 => moduleInfo <$> u16
  | 20 => packageInfo <$> u16
  | tag => .fail (.unknownTag tag)

end Constant

end JvmClass
