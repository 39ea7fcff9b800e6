import JvmClass.Instruction.Codec
import Std.Data.HashMap

/-!
Listings: sequences of instructions that can be edited.  Every instruction has a handle and
branches point at handles, so inserting and removing leaves all branches as they are.  A listing
also knows, for every handle, what points at it; the branches inside keep that index up to date
themselves, and the tables that go with a method body do so from outside.  Byte offsets exist
from the time they are resolved until the next edit that can move an instruction.
-/

namespace JvmClass

structure Offsets where
  starts : Std.HashMap Handle Nat
  length : Nat

structure Listing where
  /-- Identity, which the handles of the listing share. -/
  id : Nat
  /-- Number of the next handle. -/
  fresh : Nat
  order : Array Handle
  instructions : Std.HashMap Handle (Instruction Handle)
  targeters : Std.HashMap Handle TargeterSet
  offsets? : Option Offsets

abbrev Listing.Edit := EStateM Error Listing

namespace Listing

def empty (id : Nat) : Listing := ⟨id, 0, #[], ∅, ∅, none⟩

def size (l : Listing) : Nat := l.order.size

def contains (l : Listing) (h : Handle) : Bool := l.instructions.contains h

@[simp] theorem contains_empty (id : Nat) (h : Handle) : (empty id).contains h = false := by
  simp [contains, empty]

def get? (l : Listing) (h : Handle) : Option (Instruction Handle) := l.instructions[h]?

def toList (l : Listing) : List (Handle × Instruction Handle) :=
  l.order.toList.filterMap fun h => (l.get? h).map (h, ·)

def first? (l : Listing) : Option Handle := l.order[0]?

def last? (l : Listing) : Option Handle := l.order.back?

def position? (l : Listing) (h : Handle) : Option Nat := l.order.idxOf? h

def next? (l : Listing) (h : Handle) : Option Handle := do
  l.order[(← l.position? h) + 1]?

def targetersOf (l : Listing) (h : Handle) : List Targeter :=
  match l.targeters[h]? with
  | some ts => ts.toList
  | none => []

def offset? (l : Listing) (h : Handle) : Option Nat := do (← l.offsets?).starts[h]?

def length? (l : Listing) : Option Nat := l.offsets?.map (·.length)

def describe (l : Listing) : String :=
  "[" ++ ", ".intercalate (l.toList.map fun (h, i) => h.label ++ ": " ++ i.describe Handle.label) ++
    "]"

def pointing (t : Targeter) (index : Std.HashMap Handle TargeterSet) (h : Handle) :
    Std.HashMap Handle TargeterSet :=
  index.alter h fun ts? => some ((ts?.getD ∅).insert t)

def unpointing (t : Targeter) (index : Std.HashMap Handle TargeterSet) (h : Handle) :
    Std.HashMap Handle TargeterSet :=
  index.alter h fun
    | none => none
    | some ts =>
      let ts := ts.erase t
      if ts.isEmpty then none else some ts

def point (t : Targeter) (h : Handle) : Listing → Listing
  | ⟨id, fresh, order, instructions, targeters, offsets?⟩ =>
    ⟨id, fresh, order, instructions, pointing t targeters h, offsets?⟩

def unpoint (t : Targeter) (h : Handle) : Listing → Listing
  | ⟨id, fresh, order, instructions, targeters, offsets?⟩ =>
    ⟨id, fresh, order, instructions, unpointing t targeters h, offsets?⟩

def checkTargets (l : Listing) (i : Instruction Handle) : Except Error Unit :=
  match i.targets.find? fun t => !l.contains t with
  | some t => .error (.unknownHandle t)
  | none => .ok ()

def place (position : Nat) (i : Instruction Handle) : Listing → Handle × Listing
  | ⟨id, fresh, order, instructions, targeters, _⟩ =>
    let h : Handle := ⟨id, fresh⟩
    (h, ⟨id, fresh + 1, order.insertIdxIfInBounds position h, instructions.insert h i,
      i.targets.foldl (pointing (.instruction h)) targeters, none⟩)

def insertAt (position : Nat) (i : Instruction Handle) : Edit Handle := fun l =>
  match l.checkTargets i with
  | .error e => .error e l
  | .ok () =>
    match l.place position i with
    | (h, l) => .ok h l

def append (i : Instruction Handle) : Edit Handle := fun l => insertAt l.order.size i l

def position (l : Listing) (h : Handle) : Except Error Nat :=
  match l.position? h with
  | some p => .ok p
  | none => .error (.unknownHandle h)

def insertBefore (h : Handle) (i : Instruction Handle) : Edit Handle := fun l =>
  match l.position h with
  | .error e => .error e l
  | .ok p => insertAt p i l

def insertAfter (h : Handle) (i : Instruction Handle) : Edit Handle := fun l =>
  match l.position h with
  | .error e => .error e l
  | .ok p => insertAt (p + 1) i l

/-- Puts an instruction in the place of another, whose handle it takes over, and gives the other.
What points at the handle goes on to do so. -/
def replace (h : Handle) (i : Instruction Handle) : Edit (Instruction Handle) := fun l =>
  match l.get? h with
  | none => .error (.unknownHandle h) l
  | some old =>
    match l.checkTargets i with
    | .error e => .error e l
    | .ok () =>
      match l with
      | ⟨id, fresh, order, instructions, targeters, _⟩ =>
        let targeters := old.targets.foldl (unpointing (.instruction h)) targeters
        .ok old ⟨id, fresh, order, instructions.insert h i,
          i.targets.foldl (pointing (.instruction h)) targeters, none⟩

def otherTargeters (l : Listing) (h : Handle) : List Targeter :=
  (l.targetersOf h).filter (· != .instruction h)

def remove (h : Handle) : Edit (Instruction Handle) := fun l =>
  match l.position h with
  | .error e => .error e l
  | .ok p =>
    match l.otherTargeters h with
    | t :: ts => .error (.stillTargeted h (t :: ts)) l
    | [] =>
      match l with
      | ⟨id, fresh, order, instructions, targeters, offsets?⟩ =>
        let order := order.eraseIdxIfInBounds p
        match instructions[h]? with
        | none => .error (.unknownHandle h) ⟨id, fresh, order, instructions, targeters, offsets?⟩
        | some i =>
          let targeters := i.targets.foldl (unpointing (.instruction h)) targeters
          .ok i ⟨id, fresh, order, instructions.erase h, targeters.erase h, none⟩

def swapHandle (old new h : Handle) : Handle := if h = old then new else h

/-- Points the targets of a branch that are `old` at `new`.  Widths do not depend on targets, so
offsets stay resolved. -/
def updateTarget (branch old new : Handle) : Edit Unit := fun l =>
  if l.contains new then
    match l.get? branch with
    | none => .error (.unknownHandle branch) l
    | some i =>
      if i.targets.contains old then
        match l with
        | ⟨id, fresh, order, instructions, targeters, offsets?⟩ =>
          let targeters := unpointing (.instruction branch) targeters old
          .ok () ⟨id, fresh, order, instructions.insert branch (i.map (swapHandle old new)),
            pointing (.instruction branch) targeters new, offsets?⟩
      else .error (.unknownHandle old) l
  else .error (.unknownHandle new) l

def redirect (old new : Handle) : List Targeter → Edit Unit
  | [] => pure ()
  | .instruction branch :: ts => do
    updateTarget branch old new
    redirect old new ts
  | _ :: ts => redirect old new ts

def redirectBranches (old new : Handle) : Edit Unit := fun l =>
  if l.contains new then redirect old new (l.targetersOf old) l
  else .error (.unknownHandle new) l

def layOut (l : Listing) : List Handle → Offsets → Except Error Offsets
  | [], o => .ok o
  | h :: hs, ⟨starts, length⟩ =>
    match l.get? h with
    | none => .error (.unknownHandle h)
    | some i => l.layOut hs ⟨starts.insert h length, length + i.widthAt length⟩

def layout (l : Listing) : Except Error Offsets := do
  let o ← l.layOut l.order.toList ⟨∅, 0⟩
  if o.length > maxCodeLength then throw (.codeTooLong o.length)
  return o

/-- Gives every instruction its offset; offsets from before stay if that fails. -/
def resolve : Edit Unit := fun l =>
  match l.layout with
  | .error e => .error e l
  | .ok o => .ok () { l with offsets? := some o }

/-- The branch has to reach its target with an offset of two bytes. -/
def isShortBranch : Instruction Handle → Bool
  | .branch op _ => op.shape? == some .branch
  | _ => false

def offsetOf (o : Offsets) (h : Handle) : Except Error Nat :=
  match o.starts[h]? with
  | some offset => .ok offset
  | none => .error (.unknownHandle h)

def encodeOne (l : Listing) (o : Offsets) (h : Handle) : Except Error (List UInt8) :=
  match l.get? h with
  | none => .error (.unknownHandle h)
  | some i => do
    let offset ← offsetOf o h
    let relative ← i.mapM fun t => do
      let distance : Int := (← offsetOf o t) - offset
      if isShortBranch i && !fitsShort distance then throw (.branchTooFar h distance)
      return Int32.ofInt distance
    relative.encodeAt offset

def encode : Edit (List UInt8) := do
  resolve
  fun l =>
    match l.layout.bind fun o => l.order.toList.mapM (l.encodeOne o) with
    | .error e => .error e l
    | .ok pieces => .ok pieces.flatten l

/-- The instruction starts of a code array with their handles, in order, and its length. -/
structure Starts where
  table : Array (Nat × Handle)
  length : Nat

namespace Starts

def at? (s : Starts) (offset : Nat) : Option Handle :=
  (Search.at? (·.1) s.table offset).map (·.2)

def lastIn? (s : Starts) (start stop : Nat) : Option Handle :=
  match stop with
  | 0 => none
  | last + 1 => ((Search.lastUpTo? (·.1) s.table last).filter (start ≤ ·.1)).map (·.2)

end Starts

def readAll (s : Input) : Except Error (List (Nat × Instruction Int32)) :=
  if s.rest.isEmpty then .ok []
  else
    match _h : Instruction.decoder s with
    | .error e => .error e
    | .ok (i, t) => do
      return (s.position, i) :: (← readAll t)
termination_by s.rest.length
decreasing_by exact Instruction.decoder_shrinks (by assumption)

def linkOne (starts : Starts) (offset : Nat) (i : Instruction Int32) :
    Except Error (Instruction Handle) :=
  i.mapM fun relative =>
    let target : Int := offset + relative.toInt
    match if target < 0 then none else starts.at? target.toNat with
    | some h => .ok h
    | none => .error (.missingTarget offset target)

def linkAll (starts : Starts) : List (Nat × Instruction Int32) → Listing → Offsets →
    Except Error (Listing × Offsets)
  | [], l, o => .ok (l, o)
  | (offset, i) :: rest, l, ⟨table, length⟩ => do
    let i ← linkOne starts offset i
    match l.place l.order.size i with
    | (h, l) => linkAll starts rest l ⟨table.insert h offset, length⟩

/-- The listing of a code array, with the instruction starts.  Offsets are resolved. -/
def decode (id : Nat) (code : List UInt8) : Except Error (Listing × Starts) := do
  let read ← readAll (.ofBytes code)
  let starts : Starts :=
    ⟨(read.zipIdx.map fun ((offset, _), k) => (offset, ⟨id, k⟩)).toArray, code.length⟩
  let (l, offsets) ← linkAll starts read (empty id) ⟨∅, code.length⟩
  return ({ l with offsets? := some offsets }, starts)

end Listing

end JvmClass
