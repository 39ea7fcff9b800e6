/-!
Digits of bytes and small numbers, as they are shown in messages.
-/

namespace JvmClass.Text

def hexDigit (n : Nat) : Char := Nat.digitChar (n % 16)

def hexByte (b : UInt8) : String :=
  String.ofList [hexDigit (b.toNat / 16), hexDigit b.toNat]

def hexByteUpper (b : UInt8) : String := (hexByte b).toUpper

def markedHexByte (b : UInt8) : String := "0x" ++ hexByte b

end JvmClass.Text
