import JvmClass.Text.Digits
import JvmClass.Text.Utf16

/-!
The text encoding of class files.  A text is written unit by unit of its UTF-16 form: a unit
below 0x80 other than zero is one byte, a unit below 0x800 and the zero are two bytes, and any
other unit is three bytes.  No byte is zero, and a supplementary character is six bytes.
Reading also takes units that are written longer than they need to be.
-/

namespace JvmClass.Text.ModifiedUtf8

inductive Fault where
  | zeroByte (position : Nat)
  | leadingByte (byte : UInt8) (position : Nat)
  | continuationByte (byte : UInt8) (position : Nat)
  | truncated
  | loneSurrogate
  deriving DecidableEq, Repr

def Fault.message : Fault → String
  | zeroByte p => s!"null byte at {p}"
  | leadingByte b p => s!"invalid leading byte {markedHexByte b} at {p}"
  | continuationByte b p => s!"invalid continuation byte {markedHexByte b} at {p}"
  | truncated => "truncated multi-byte sequence"
  | loneSurrogate => "unpaired surrogate"

def encodeUnit (u : UInt16) : List UInt8 :=
  if u ≠ 0 ∧ u < 0x80 then [u.toUInt8]
  else if u < 0x800 then [(u >>> 6).toUInt8 ||| 0xC0, (u &&& 0x3F).toUInt8 ||| 0x80]
  else [(u >>> 12).toUInt8 ||| 0xE0, (u >>> 6 &&& 0x3F).toUInt8 ||| 0x80,
    (u &&& 0x3F).toUInt8 ||| 0x80]

def encodeUnits (us : List UInt16) : List UInt8 := us.flatMap encodeUnit

def encode (s : String) : List UInt8 := encodeUnits (Utf16.units s.toList)

def continuation (position : Nat) (b : UInt8) : Except Fault UInt16 :=
  if b &&& 0xC0 = 0x80 then .ok (b &&& 0x3F).toUInt16 else .error (.continuationByte b position)

def twoByteUnit (a b : UInt16) : UInt16 := (a &&& 0x1F) <<< 6 ||| b

def threeByteUnit (a b c : UInt16) : UInt16 := (a &&& 0x0F) <<< 12 ||| b <<< 6 ||| c

/-- Reads units; `position` is where the list starts in the whole run of bytes. -/
def decodeUnits (position : Nat) : List UInt8 → Except Fault (List UInt16)
  | [] => .ok []
  | a :: rest =>
    if a = 0 then .error (.zeroByte position)
    else if a &&& 0x80 = 0 then do
      return a.toUInt16 :: (← decodeUnits (position + 1) rest)
    else if a &&& 0xE0 = 0xC0 then
      match rest with
      | [] => .error .truncated
      | b :: rest => do
        let b ← continuation (position + 1) b
        return twoByteUnit a.toUInt16 b :: (← decodeUnits (position + 2) rest)
    else if a &&& 0xF0 = 0xE0 then
      match rest with
      | [] => .error .truncated
      | [b] => do
        let _ ← continuation (position + 1) b
        .error .truncated
      | b :: c :: rest => do
        let b ← continuation (position + 1) b
        let c ← continuation (position + 2) c
        return threeByteUnit a.toUInt16 b c :: (← decodeUnits (position + 3) rest)
    else .error (.leadingByte a position)

def decode (bytes : List UInt8) : Except Fault String := do
  match Utf16.ofUnits? (← decodeUnits 0 bytes) with
  | some cs => .ok (String.ofList cs)
  | none => .error .loneSurrogate

end JvmClass.Text.ModifiedUtf8
