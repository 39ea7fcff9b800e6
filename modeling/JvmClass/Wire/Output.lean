import JvmClass.Error

/-!
Writing.  An encoder puts bytes out one piece after the other and may fail on the way; what it
had put out before the failure stays visible.  A length that does not fit into its field is
noticed before anything of its sequence is put out.
-/

namespace JvmClass

/-- The bytes put out, and the failure that put an end to it. -/
structure Output where
  bytes : List UInt8
  failure? : Option Error
  deriving DecidableEq, Repr

def length16 (what : String) (n : Nat) : Except Error UInt16 :=
  if n < 0x10000 then .ok n.toUInt16 else .error (.tooLarge what n 0xFFFF)

def length32 (what : String) (n : Nat) : Except Error UInt32 :=
  if n < 0x100000000 then .ok n.toUInt32 else .error (.tooLarge what n 0xFFFFFFFF)

namespace Output

variable {α : Type}

def put (bytes : List UInt8) : Output := ⟨bytes, none⟩

def fail (e : Error) : Output := ⟨[], some e⟩

def andThen (a b : Output) : Output :=
  match a.failure? with
  | some _ => a
  | none => ⟨a.bytes ++ b.bytes, b.failure?⟩

instance : Append Output := ⟨andThen⟩

def concat (pieces : List Output) : Output := pieces.foldr (· ++ ·) (put [])

def toExcept (o : Output) : Except Error (List UInt8) :=
  match o.failure? with
  | some e => .error e
  | none => .ok o.bytes

def u8 (b : UInt8) : Output := put [b]

def u16Bytes (w : UInt16) : List UInt8 := [(w >>> 8).toUInt8, w.toUInt8]

def u32Bytes (w : UInt32) : List UInt8 := u16Bytes (w >>> 16).toUInt16 ++ u16Bytes w.toUInt16

def u64Bytes (w : UInt64) : List UInt8 := u32Bytes (w >>> 32).toUInt32 ++ u32Bytes w.toUInt32

def u16 (w : UInt16) : Output := put (u16Bytes w)
def u32 (w : UInt32) : Output := put (u32Bytes w)
def u64 (w : UInt64) : Output := put (u64Bytes w)
def i8 (n : Int8) : Output := u8 n.toUInt8
def i16 (n : Int16) : Output := u16 n.toUInt16
def i32 (n : Int32) : Output := u32 n.toUInt32
def i64 (n : Int64) : Output := u64 n.toUInt64

/-- A sequence behind its length, which goes by the given name when it is too large. -/
def countedAs (what : String) (xs : List α) (encode : α → Output) : Output :=
  match length16 what xs.length with
  | .error e => fail e
  | .ok n => u16 n ++ concat (xs.map encode)

def counted (xs : List α) (encode : α → Output) : Output :=
  countedAs "sequence length" xs encode

def longRun (what : String) (bytes : List UInt8) : Output :=
  match length32 what bytes.length with
  | .error e => fail e
  | .ok n => u32 n ++ put bytes

@[simp] theorem put_append_put (a b : List UInt8) : put a ++ put b = put (a ++ b) := rfl

@[simp] theorem toExcept_put (bytes : List UInt8) : (put bytes).toExcept = .ok bytes := rfl

@[simp] theorem toExcept_fail (e : Error) : (fail e).toExcept = .error e := rfl

theorem append_assoc (a b c : Output) : a ++ b ++ c = a ++ (b ++ c) := by
  change andThen (andThen a b) c = andThen a (andThen b c)
  obtain ⟨x, f⟩ := a
  obtain ⟨y, g⟩ := b
  cases f <;> cases g <;> simp [andThen]

end Output

end JvmClass
