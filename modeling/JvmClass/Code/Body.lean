import JvmClass.Attribute.Code
import JvmClass.Attribute.Tables
import JvmClass.Code.Listing
import Std.Data.TreeMap

/-!
Bodies of methods in a form that can be edited.  The exception table, the local variables and the
lines of a body refer to instructions by handles, and the listing knows which entries point at
which instruction.  Entries of all three tables take their identifiers from one counter.
Lifting makes a body of a code attribute, and lowering makes the attribute again.  Stack maps do
not survive edits, so lifting leaves them out.
-/

namespace JvmClass

structure ExceptionRange where
  start : Handle
  last : Handle
  handler : Handle
  catches : Option UInt16
  deriving DecidableEq, Repr

structure VariableScope where
  start : Handle
  last? : Option Handle
  name : UInt16
  descriptor : UInt16
  slot : UInt16
  deriving DecidableEq, Repr

structure LineEntry where
  start : Handle
  line : UInt16
  deriving DecidableEq, Repr

structure Body where
  maxStack : UInt16
  maxLocals : UInt16
  listing : Listing
  handlers : Std.TreeMap Nat ExceptionRange
  scopes : Std.TreeMap Nat VariableScope
  lines : Std.TreeMap Nat LineEntry
  /-- The next identifier of an entry. -/
  fresh : Nat
  attributes : List Attribute

abbrev Body.Edit := EStateM Error Body

/-- A range of offsets that ends before it starts.  It is not an error that can be reported: it
brings everything to a halt. -/
structure Halt where
  start : Nat
  stop : Nat
  deriving DecidableEq, Repr

inductive LiftFailure where
  | error (e : Error)
  | halt (h : Halt)
  deriving DecidableEq, Repr

namespace ExceptionRange

def handles (r : ExceptionRange) : List Handle := [r.start, r.last, r.handler]

def map (f : Handle → Handle) (r : ExceptionRange) : ExceptionRange :=
  { r with start := f r.start, last := f r.last, handler := f r.handler }

end ExceptionRange

namespace VariableScope

def handles (v : VariableScope) : List Handle := v.start :: v.last?.toList

def map (f : Handle → Handle) (v : VariableScope) : VariableScope :=
  { v with start := f v.start, last? := v.last?.map f }

end VariableScope

namespace Body

def empty (id : Nat) (maxStack maxLocals : UInt16) : Body :=
  ⟨maxStack, maxLocals, .empty id, ∅, ∅, ∅, 0, []⟩

def onListing {α : Type} (edit : Listing.Edit α) : Edit α := fun b =>
  match b with
  | ⟨maxStack, maxLocals, listing, handlers, scopes, lines, fresh, attributes⟩ =>
    match edit listing with
    | .ok a l => .ok a ⟨maxStack, maxLocals, l, handlers, scopes, lines, fresh, attributes⟩
    | .error e l => .error e ⟨maxStack, maxLocals, l, handlers, scopes, lines, fresh, attributes⟩

def freshId : Edit Nat := fun b =>
  match b with
  | ⟨maxStack, maxLocals, listing, handlers, scopes, lines, fresh, attributes⟩ =>
    .ok fresh ⟨maxStack, maxLocals, listing, handlers, scopes, lines, fresh + 1, attributes⟩

/-- Makes an entry a targeter of its handles, all of which have to be known. -/
def register (hs : List Handle) (t : Targeter) : Edit Unit := onListing fun l =>
  match hs.find? fun h => !l.contains h with
  | some h => .error (.unknownHandle h) l
  | none => .ok () (hs.foldl (fun l h => l.point t h) l)

def unregister (hs : List Handle) (t : Targeter) (l : Listing) : Listing :=
  hs.foldl (fun l h => l.unpoint t h) l

/-- The first instruction does not come after the second one. -/
def checkRange (l : Listing) (start last : Handle) : Except Error Unit := do
  let p ← l.position start
  let q ← l.position last
  if p > q then throw (.malformed (.backwardRange start last))

def addHandler (r : ExceptionRange) : Edit Nat := do
  liftExcept (checkRange (← get).listing r.start r.last)
  let id ← freshId
  register r.handles (.exceptionHandler id)
  modify fun b => { b with handlers := b.handlers.insert id r }
  return id

def addVariable (v : VariableScope) : Edit Nat := do
  if let some last := v.last? then
    liftExcept (checkRange (← get).listing v.start last)
  let id ← freshId
  register v.handles (.localVariable id)
  modify fun b => { b with scopes := b.scopes.insert id v }
  return id

def addLine (n : LineEntry) : Edit Nat := do
  let id ← freshId
  register [n.start] (.lineNumber id)
  modify fun b => { b with lines := b.lines.insert id n }
  return id

def removeHandler (id : Nat) (b : Body) : Option ExceptionRange × Body :=
  match b.handlers[id]? with
  | none => (none, b)
  | some r =>
    (some r, { b with
      handlers := b.handlers.erase id
      listing := unregister r.handles (.exceptionHandler id) b.listing })

def removeVariable (id : Nat) (b : Body) : Option VariableScope × Body :=
  match b.scopes[id]? with
  | none => (none, b)
  | some v =>
    (some v, { b with
      scopes := b.scopes.erase id
      listing := unregister v.handles (.localVariable id) b.listing })

def removeLine (id : Nat) (b : Body) : Option LineEntry × Body :=
  match b.lines[id]? with
  | none => (none, b)
  | some n =>
    (some n, { b with
      lines := b.lines.erase id
      listing := unregister [n.start] (.lineNumber id) b.listing })

def removeVariables (b : Body) : Body :=
  b.scopes.keys.foldl (fun b id => (b.removeVariable id).2) b

def redirectOne (old new : Handle) (t : Targeter) : Edit Unit :=
  let move : Edit Unit := onListing fun l => .ok () ((l.unpoint t old).point t new)
  let swap := Listing.swapHandle old new
  match t with
  | .instruction branch => onListing (Listing.updateTarget branch old new)
  | .exceptionHandler id => do
    modify fun b => { b with handlers := b.handlers.modify id (·.map swap) }
    move
  | .localVariable id => do
    modify fun b => { b with scopes := b.scopes.modify id (·.map swap) }
    move
  | .lineNumber id => do
    modify fun b => { b with lines := b.lines.modify id fun n => { n with start := new } }
    move

def redirectTargeters (old new : Handle) : Edit Unit := fun b =>
  if b.listing.contains new then
    if old = new then .ok () b
    else (b.listing.targetersOf old).forM (redirectOne old new) b
  else .error (.unknownHandle new) b

def offset16 (offset : Nat) : Except Error UInt16 :=
  if offset ≤ maxCodeLength then .ok offset.toUInt16 else .error (.codeTooLong offset)

def startOf (l : Listing) (h : Handle) : Except Error UInt16 :=
  match l.offset? h with
  | some offset => offset16 offset
  | none => .error (.unknownHandle h)

def stopOf (l : Listing) (h : Handle) : Except Error UInt16 :=
  match l.offset? h, l.get? h with
  | some offset, some i => offset16 (offset + i.widthAt offset)
  | _, _ => .error (.unknownHandle h)

def lowerHandler (l : Listing) (r : ExceptionRange) : Except Error ExceptionEntry := do
  return ⟨← startOf l r.start, ← stopOf l r.last, ← startOf l r.handler, r.catches⟩

def lowerLine (l : Listing) (n : LineEntry) : Except Error LineNumber := do
  return ⟨← startOf l n.start, n.line⟩

/-- A scope that ends before it starts has no length. -/
def lowerVariable (l : Listing) (v : VariableScope) : Except Error LocalVariable := do
  let start ← startOf l v.start
  let length ← match v.last? with
    | none => pure 0
    | some last => do
      let stop ← stopOf l last
      pure (if stop < start then 0 else stop - start)
  return ⟨start, length, v.name, v.descriptor, v.slot⟩

/-- The lines by offset; entries of one offset stay in the order in which they were added. -/
def lowerLines (b : Body) : Except Error LineNumberTable := do
  let entries ← b.lines.values.mapM (lowerLine b.listing)
  return ⟨(entries.mergeSort fun a b => a.start ≤ b.start).toArray⟩

def lineTable : Edit LineNumberTable := do
  onListing Listing.resolve
  liftExcept (← get).lowerLines

def addTable {α : Type} [AttributeKind α] (isEmpty : Bool) (table : Except Error α) :
    Adding (List Attribute) :=
  if isEmpty then pure []
  else do return [← Pool.addAttribute (← liftExcept table)]

/-- The code attribute of a body.  Lines and variables come before all other attributes. -/
def lower (b : Body) : Adding Code := do
  match Listing.encode b.listing with
  | .error e _ => throw e
  | .ok bytes l =>
    let handlers ← liftExcept (b.handlers.values.mapM (lowerHandler l))
    let lines ← addTable b.lines.isEmpty (lowerLines { b with listing := l })
    let scopes ← addTable b.scopes.isEmpty
      (LocalVariableTable.mk <$> b.scopes.values.mapM (lowerVariable l))
    return ⟨b.maxStack, b.maxLocals, bytes, handlers, lines ++ scopes ++ b.attributes⟩

def startAt (s : Listing.Starts) (offset : Nat) : Except LiftFailure Handle :=
  match s.at? offset with
  | some h => .ok h
  | none => .error (.error (.missingTarget offset offset))

/-- The last instruction of a range that ends at an instruction or at the end of the code. -/
def lastBefore (s : Listing.Starts) (start stop : Nat) : Except LiftFailure Handle :=
  if stop ≠ s.length ∧ (s.at? stop).isNone then .error (.error (.missingTarget start stop))
  else if stop < start then .error (.halt ⟨start, stop⟩)
  else
    match s.lastIn? start stop with
    | some h => .ok h
    | none => .error (.error (.malformed (.emptyRange start stop)))

def edited {α : Type} (edit : Edit α) (b : Body) : Except LiftFailure Body :=
  match edit b with
  | .ok _ b => .ok b
  | .error e _ => .error (.error e)

def liftHandler (s : Listing.Starts) (b : Body) (e : ExceptionEntry) : Except LiftFailure Body := do
  let start ← startAt s e.start.toNat
  let last ← lastBefore s e.start.toNat e.stop.toNat
  let handler ← startAt s e.handler.toNat
  edited (addHandler ⟨start, last, handler, e.catches⟩) b

def liftLine (s : Listing.Starts) (b : Body) (n : LineNumber) : Except LiftFailure Body := do
  let start ← startAt s n.start.toNat
  edited (addLine ⟨start, n.line⟩) b

def liftVariable (s : Listing.Starts) (b : Body) (v : LocalVariable) : Except LiftFailure Body := do
  let last? ←
    if v.length = 0 then pure none
    else some <$> lastBefore s v.start.toNat (v.start.toNat + v.length.toNat)
  let start ← startAt s v.start.toNat
  edited (addVariable ⟨start, last?, v.name, v.descriptor, v.slot⟩) b

/-- The name of the attribute that lifting leaves out. -/
def stackMapTitle : String := "StackMapTable"

def liftAttribute (p : Pool) (s : Listing.Starts) (b : Body) (a : Attribute) :
    Except LiftFailure Body := do
  let title ← (a.title p).mapError fun e => .error (.pool e)
  if title = AttributeKind.title LineNumberTable then
    let table ← (a.value LineNumberTable).mapError .error
    table.entries.toList.foldlM (liftLine s) b
  else if title = AttributeKind.title LocalVariableTable then
    let table ← (a.value LocalVariableTable).mapError .error
    table.entries.foldlM (liftVariable s) b
  else if title = stackMapTitle then return b
  else return { b with attributes := b.attributes ++ [a] }

def lift (id : Nat) (p : Pool) (code : Code) : Except LiftFailure Body := do
  let (listing, starts) ← (Listing.decode id code.bytes).mapError .error
  let b : Body := { empty id code.maxStack code.maxLocals with listing := listing }
  let b ← code.handlers.foldlM (liftHandler starts) b
  code.attributes.foldlM (liftAttribute p starts) b

end Body

end JvmClass
