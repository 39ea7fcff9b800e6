/-!
Access flags of classes, methods and fields.  Every kind of declaration gives a meaning to some
of the sixteen bits; a bit without a meaning is dropped.  A set of flags is shown by the names of
its bits in a fixed order.
-/

namespace JvmClass

inductive Declaration where
  | type | method | field
  deriving DecidableEq, Repr

structure NamedBit where
  name : String
  bit : UInt16

namespace NamedBit

def describe (table : List NamedBit) (bits : UInt16) : String :=
  match table.filter fun b => bits &&& b.bit == b.bit with
  | [] => "(empty)"
  | set => " | ".intercalate (set.map (·.name))

end NamedBit

namespace Declaration

def namedBits : Declaration → List NamedBit
  | type => [⟨"PUBLIC", 0x0001⟩, ⟨"FINAL", 0x0010⟩, ⟨"SUPER", 0x0020⟩, ⟨"INTERFACE", 0x0200⟩,
      ⟨"ABSTRACT", 0x0400⟩, ⟨"SYNTHETIC", 0x1000⟩, ⟨"ANNOTATION", 0x2000⟩, ⟨"ENUM", 0x4000⟩,
      ⟨"MODULE", 0x8000⟩]
  | method => [⟨"PUBLIC", 0x0001⟩, ⟨"PRIVATE", 0x0002⟩, ⟨"PROTECTED", 0x0004⟩,
      ⟨"STATIC", 0x0008⟩, ⟨"FINAL", 0x0010⟩, ⟨"SYNCHRONIZED", 0x0020⟩, ⟨"BRIDGE", 0x0040⟩,
      ⟨"VARARGS", 0x0080⟩, ⟨"NATIVE", 0x0100⟩, ⟨"ABSTRACT", 0x0400⟩, ⟨"STRICT", 0x0800⟩,
      ⟨"SYNTHETIC", 0x1000⟩]
  | field => [⟨"PUBLIC", 0x0001⟩, ⟨"PRIVATE", 0x0002⟩, ⟨"PROTECTED", 0x0004⟩,
      ⟨"STATIC", 0x0008⟩, ⟨"FINAL", 0x0010⟩, ⟨"VOLATILE", 0x0040⟩, ⟨"TRANSIENT", 0x0080⟩,
      ⟨"SYNTHETIC", 0x1000⟩, ⟨"ENUM", 0x4000⟩]

def assigned (d : Declaration) : UInt16 := d.namedBits.foldl (fun acc b => acc ||| b.bit) 0

end Declaration

structure AccessFlags (d : Declaration) where
  bits : UInt16
  deriving DecidableEq, Repr

namespace AccessFlags

variable {d : Declaration}

def ofBits (bits : UInt16) : AccessFlags d := ⟨bits &&& d.assigned⟩

def has (f : AccessFlags d) (mask : UInt16) : Bool := f.bits &&& mask == mask

def hasAny (f : AccessFlags d) (mask : UInt16) : Bool := f.bits &&& mask != 0

def describe (f : AccessFlags d) : String := NamedBit.describe d.namedBits f.bits

def privateBit : UInt16 := 0x0002
def staticBit : UInt16 := 0x0008
def finalBit : UInt16 := 0x0010
def synchronizedBit : UInt16 := 0x0020
def nativeBit : UInt16 := 0x0100
def interfaceBit : UInt16 := 0x0200
def abstractBit : UInt16 := 0x0400

def hasValidVisibility (f : AccessFlags d) : Bool :=
  match f.bits &&& 0x0007 with
  | 0 | 1 | 2 | 4 => true
  | _ => false

theorem ofBits_bits_idem (bits : UInt16) :
    (ofBits (ofBits (d := d) bits).bits : AccessFlags d) = ofBits bits := by
  simp [ofBits, UInt16.and_assoc]

end AccessFlags

end JvmClass
