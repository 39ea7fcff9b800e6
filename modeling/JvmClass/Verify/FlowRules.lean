import JvmClass.Verify.CodeRules
import JvmClass.Verify.Flow

/-!
The last rules for a method: over types, its code never finds an instruction that its frame does
not suit.  The frame at the entry comes from the descriptor, and the analysis of `Flow` does the
rest.
-/

namespace JvmClass.ClassFile

structure FlowSubject where
  context : MethodContext
  isStatic : Bool
  code : Code
  listing : Listing
  starts : Listing.Starts

/-- What is known of the flow through a method, or nothing if there is no code. -/
def flowSubject? (c : ClassFile) (position : Nat) : Except Rejection (Option FlowSubject) := do
  let label := c.methodLabel position
  let some m := c.methods[position]?
    | throw (.inCode label none (.noMethod c.methods.length))
  let some code ← (m.code? c.pool).mapError .error | return none
  let known {α : Type} (x : Except PoolFault α) : Except Rejection α :=
    x.mapError fun e => .error (.pool e)
  let thisClass ← known c.name
  let name ← known (m.nameIn c.pool)
  let descriptor ← known (m.descriptorIn c.pool)
  let type ← (MethodType.parse descriptor).mapError fun e => .inCode label none (.descriptor e)
  let (listing, starts) ← (Listing.decode 0 code.bytes).mapError .error
  return some ⟨⟨c.pool, thisClass, type, name == Name.constructorName⟩,
    m.flags.has AccessFlags.staticBit, code, listing, starts⟩

def faultAt (label : String) (p : Program) (position : Nat) (why : FlowFault) : Rejection :=
  match p.code[position]? with
  | some (offset, i) => .inFlow label offset (some i) why
  | none => .inFlow label 0 none why

/-- The type of what a handler catches: everything that can be thrown, or one class. -/
def caughtType (pool : Pool) (blame : FlowFault → Rejection) : Option UInt16 → Except Rejection VType
  | none => .ok (.object Name.throwable)
  | some i => do
    let name ← (pool.getClassName i).mapError fun e => .error (.pool e)
    (VType.ofClassName name).mapError fun e => blame (.invalidConstant (.className e))

def handlerOf (label : String) (s : FlowSubject) (p : Program) (e : ExceptionEntry) :
    Except Rejection Handler := do
  let some position := (s.starts.at? e.handler.toNat).bind (p.positions[·]?)
    | throw (faultAt label p 0 .invalidType)
  let caught ← caughtType s.context.pool (faultAt label p position) e.catches
  return ⟨e.start.toNat, e.stop.toNat, position, caught⟩

def programOf (label : String) (s : FlowSubject) : Except Rejection Program := do
  let p := Program.ofListing s.listing []
  return { p with handlers := ← s.code.handlers.mapM (handlerOf label s p) }

/-- The frames of a method, which it has if its flow of types is free of faults. -/
def solveFlow (label : String) (s : FlowSubject) : Except Rejection Flow := do
  let p ← programOf label s
  let entry ← (s.context.entryFrame s.code.maxLocals s.code.maxStack s.isStatic).mapError
    (faultAt label p 0)
  (Flow.solve s.context p entry).mapError fun (position, why) => faultAt label p position why

def checkFlow (c : ClassFile) (position : Nat) : Except Rejection Unit := do
  match ← c.flowSubject? position with
  | none => return
  | some s => discard (solveFlow (c.methodLabel position) s)

end JvmClass.ClassFile
