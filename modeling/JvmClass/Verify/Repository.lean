import JvmClass.ClassFile
import JvmClass.Name
import Std.Data.HashMap

/-!
Repositories: the bytes of classes by name.  Names may be written with dots or with slashes.  A
class is decoded when it is first looked up and kept from then on, until it is evicted or its
bytes are replaced.  Bytes that do not decode are not kept.
-/

namespace JvmClass

structure Repository where
  /-- Bytes, by the internal form of the name. -/
  sources : Std.HashMap String (List UInt8)
  decoded : Std.HashMap String ClassFile

namespace Repository

def empty : Repository := ⟨∅, ∅⟩

/-- Puts bytes under a name, in the place of those that were there. -/
def add (name : String) (bytes : List UInt8) (r : Repository) : Repository :=
  let name := Name.internalForm name
  ⟨r.sources.insert name bytes, r.decoded.erase name⟩

def isCached (name : String) (r : Repository) : Bool := r.decoded.contains (Name.internalForm name)

/-- Forgets the decoded form of a class, and says whether there was one. -/
def evict (name : String) (r : Repository) : Bool × Repository :=
  (r.isCached name, { r with decoded := r.decoded.erase (Name.internalForm name) })

def clear (r : Repository) : Repository := { r with decoded := ∅ }

@[simp] theorem add_internalForm (name : String) (bytes : List UInt8) (r : Repository) :
    r.add (Name.internalForm name) bytes = r.add name bytes := by
  simp [add]

@[simp] theorem isCached_clear (name : String) (r : Repository) :
    r.clear.isCached name = false := by
  simp [clear, isCached]

def lookup (name : String) : EStateM Error Repository (Option ClassFile) := fun r =>
  let name := Name.internalForm name
  match r.decoded[name]? with
  | some c => .ok (some c) r
  | none =>
    match r.sources[name]? with
    | none => .ok none r
    | some bytes =>
      match ClassFile.parse bytes with
      | .error e => .error e r
      | .ok c => .ok (some c) { r with decoded := r.decoded.insert name c }

end Repository

end JvmClass
