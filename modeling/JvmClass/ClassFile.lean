import JvmClass.AccessFlags
import JvmClass.Attribute.Code
import JvmClass.Pool.Codec

/-!
Class files: a version, a pool of constants, the class with its super class and interfaces, its
fields and methods, and attributes.
-/

namespace JvmClass

structure Version where
  major : UInt16
  minor : UInt16
  deriving DecidableEq, Repr

structure Member (d : Declaration) where
  flags : AccessFlags d
  name : UInt16
  descriptor : UInt16
  attributes : List Attribute
  deriving DecidableEq, Repr

abbrev Field := Member .field

abbrev Method := Member .method

structure ClassFile where
  version : Version
  pool : Pool
  flags : AccessFlags .type
  thisClass : UInt16
  /-- Only the root class has none. -/
  superClass : Option UInt16
  interfaces : List UInt16
  fields : List Field
  methods : List Method
  attributes : List Attribute

namespace Version

/-- The minor number is written first. -/
def encode (v : Version) : Output := .u16 v.minor ++ .u16 v.major

def decoder : Decoder Version := do
  let minor ← Decoder.u16
  let major ← Decoder.u16
  return ⟨major, minor⟩

def label (v : Version) : String := s!"{v.major}.{v.minor}"

def atLeast (v w : Version) : Bool :=
  w.major < v.major || (w.major == v.major && w.minor ≤ v.minor)

end Version

namespace AccessFlags

variable {d : Declaration}

def encode (f : AccessFlags d) : Output := .u16 f.bits

def decoder : Decoder (AccessFlags d) := ofBits <$> Decoder.u16

end AccessFlags

namespace Member

variable {d : Declaration}

def encode (m : Member d) : Output :=
  m.flags.encode ++ (.u16 m.name ++ (.u16 m.descriptor ++ .counted m.attributes Attribute.encode))

def decoder : Decoder (Member d) :=
  return ⟨← AccessFlags.decoder, ← Decoder.u16, ← Decoder.u16, ← .counted Attribute.decoder⟩

def nameIn (m : Member d) (p : Pool) : Except PoolFault String := p.getUtf8 m.name

def descriptorIn (m : Member d) (p : Pool) : Except PoolFault String := p.getUtf8 m.descriptor

def code? (m : Method) (p : Pool) : Except Error (Option Code) :=
  Attribute.findValue? p Code m.attributes

/-- Puts an attribute in the place of the first of its name, or at the end. -/
def replaceFirst (p : Pool) (title : String) (new : Attribute) :
    List Attribute → Except PoolFault (List Attribute)
  | [] => .ok [new]
  | a :: rest => do
    if (← a.title p) = title then return new :: rest
    else return a :: (← replaceFirst p title new rest)

def setCode (m : Method) (code : Code) : Adding Method := do
  let new ← Pool.addAttribute code
  let p ← get
  let attributes ←
    liftExcept ((replaceFirst p (AttributeKind.title Code) new m.attributes).mapError Error.pool)
  return { m with attributes }

end Member

namespace ClassFile

def magic : List UInt8 := [0xCA, 0xFE, 0xBA, 0xBE]

def named (version : Version) (flags : AccessFlags .type) (name : String)
    (superName : Option String) : Except Error ClassFile :=
  let build : Adding (UInt16 × Option UInt16) := do
    let thisClass ← Pool.addClass name
    return (thisClass, ← superName.mapM Pool.addClass)
  match build Pool.empty with
  | .error e _ => .error e
  | .ok (thisClass, superClass) pool =>
    .ok ⟨version, pool, flags, thisClass, superClass, [], [], [], []⟩

def encode (c : ClassFile) : Output :=
  .put magic ++ (c.version.encode ++ (c.pool.encode ++ (c.flags.encode ++ (.u16 c.thisClass ++
    (.optional16 c.superClass ++ (.counted c.interfaces Output.u16 ++
      (.counted c.fields Member.encode ++ (.counted c.methods Member.encode ++
        .counted c.attributes Attribute.encode))))))))

def decoder : Decoder ClassFile := do
  let found ← Decoder.run 4
  if found ≠ magic then .fail (.badMagic found)
  else
    return ⟨← Version.decoder, ← Pool.decoder, ← AccessFlags.decoder, ← Decoder.u16,
      ← Decoder.optional16, ← .counted Decoder.u16, ← .counted Member.decoder,
      ← .counted Member.decoder, ← .counted Attribute.decoder⟩

def toBytes (c : ClassFile) : Except Error (List UInt8) := c.encode.toExcept

def parse (bytes : List UInt8) : Except Error ClassFile := decoder.decode bytes

def name (c : ClassFile) : Except PoolFault String := c.pool.getClassName c.thisClass

def superName (c : ClassFile) : Except PoolFault (Option String) :=
  c.superClass.mapM c.pool.getClassName

/-- Where in a list of methods the first one with a name and descriptor stands.  Names before it
have to resolve, and so do the descriptors of those that share its name. -/
def methodIndexFrom? (p : Pool) (name descriptor : String) :
    List Method → Except PoolFault (Option Nat)
  | [] => .ok none
  | m :: rest => do
    if (← m.nameIn p) = name then
      if (← m.descriptorIn p) = descriptor then return some 0
    return (← methodIndexFrom? p name descriptor rest).map (· + 1)

def methodIndex? (c : ClassFile) (name descriptor : String) : Except PoolFault (Option Nat) :=
  methodIndexFrom? c.pool name descriptor c.methods

end ClassFile

end JvmClass
