import JvmClass.Total
import JvmClass.Verify.FlowFault

/-!
Frames: the types of the local variables and of the operand stack at a point of the code.  Locals
go by slot, and the slot behind a wide value holds the top type.  A step that fails keeps what it
has done to the frame so far, so a pop that finds the wrong type has popped.
Where paths meet, frames merge: locals that disagree become unusable, and stacks need one shape.
`room_merge_lt` bounds how often that can change a frame.
-/

namespace JvmClass

open Width (width)

structure Frame where
  locals : Array VType
  /-- The stack from the bottom, each value with its slot. -/
  slots : Slotted VType
  /-- The most slots that the stack may take up. -/
  maxStack : UInt16
  isStack : slots.IsStack
  deriving DecidableEq, Repr

namespace Frame

abbrev Step := EStateM FlowFault Frame

def empty (maxLocals maxStack : UInt16) : Frame :=
  ⟨Array.replicate maxLocals.toNat .top, .startingAt 0, maxStack, rfl⟩

/-- The values on the stack, the top first. -/
def stack (f : Frame) : List VType := f.slots.toList.reverse

/-- A frame whose stack has these values, the top first, pushed from the bottom on. -/
def ofStack (locals : Array VType) (ts : List VType) (maxStack : UInt16) : Frame :=
  ⟨locals, .ofList 0 ts.reverse, maxStack, Slotted.isStack_ofList _⟩

def withStack (f : Frame) (ts : List VType) : Frame := ofStack f.locals ts f.maxStack

def height (f : Frame) : Nat := f.slots.used

def push (t : VType) : Step Unit := fun f =>
  if f.height + width t > f.maxStack.toNat then .error (.stackOverflow f.maxStack) f
  else .ok () { f with slots := (f.slots.put t).2, isStack := f.isStack.put t }

def pushAll : List VType → Step Unit
  | [] => pure ()
  | t :: ts => do
    push t
    pushAll ts

def pop : Step VType := fun f =>
  match popped : f.slots.pop? with
  | some (t, slots) => .ok t { f with slots, isStack := f.isStack.pop popped }
  | none => .error .emptyStack f

def popWidth (n : Nat) : Step VType := do
  let t ← pop
  if width t = n then return t else throw (.invalidWidth (width t))

def popExpecting (expected : VType) : Step VType := do
  let t ← pop
  if t.isAssignable expected then return t else throw (.incompatible expected t)

def popAnyReference : Step VType := do
  let t ← pop
  if t.isReference then return t else throw (.incompatible (.object Name.object) t)

def popReference : Step VType := do
  let t ← pop
  if t.isUninitialized then throw .uninitializedObject
  else if t.isReference then return t
  else throw (.incompatible (.object Name.object) t)

/-- A local of this type can be loaded as the expected one.  References are loaded whether they
are initialized or not. -/
def isLoadable (t expected : VType) : Bool :=
  match expected with
  | .object _ => t.isReference
  | _ => t.isAssignable expected

def load (slot : UInt16) (expected : VType) : Step VType := fun f =>
  if slot.toNat + width expected > f.locals.size then .error (.invalidLocal slot) f
  else
    match f.locals[slot.toNat]? with
    | none => .error (.invalidLocal slot) f
    | some t => if isLoadable t expected then .ok t f else .error (.incompatible expected t) f

/-- A wide value whose second slot is about to be overwritten is lost. -/
def breakWide (locals : Array VType) : Nat → Array VType
  | 0 => locals
  | i + 1 =>
    match locals[i]? with
    | some t => if width t = 2 then locals.setIfInBounds i .top else locals
    | none => locals

/-- The locals with a value at a slot, and the top type behind it if it is wide. -/
def written (locals : Array VType) (i : Nat) (t : VType) : Array VType :=
  let locals := (breakWide locals i).setIfInBounds i t
  if width t = 2 then locals.setIfInBounds (i + 1) .top else locals

def store (slot : UInt16) (t : VType) : Step Unit := fun f =>
  match f with
  | ⟨locals, slots, maxStack, isStack⟩ =>
    if slot.toNat + width t > locals.size then
      .error (.invalidLocal slot) ⟨locals, slots, maxStack, isStack⟩
    else .ok () ⟨written locals slot.toNat t, slots, maxStack, isStack⟩

def retype (old new : VType) (f : Frame) : Frame :=
  let swap (t : VType) : VType := if t = old then new else t
  ⟨f.locals.map swap, f.slots.clear.putAll (f.slots.toList.map swap), f.maxStack,
    f.isStack.clear_putAll _⟩

def hasUninitializedThis (f : Frame) : Bool := f.locals.contains .uninitializedThis

def after (step : Step Unit) (f : Frame) : Except FlowFault Frame :=
  match step f with
  | .ok () g => .ok g
  | .error e _ => .error e

def withCaught (f : Frame) (caught : VType) : Except FlowFault Frame :=
  after (push caught) (f.withStack [])

/-- The least type above two values of a stack, which may not be the top type. -/
def mergeValue (t u : VType) : Except FlowFault VType :=
  match t.merge u with
  | .top => .error (.incompatible t u)
  | m => .ok m

/-- Merges two stacks of one height, the bottom first. -/
def mergeStacks : List VType → List VType → Except FlowFault (List VType)
  | t :: ts, u :: us => do
    let rest ← mergeStacks ts us
    return (← mergeValue t u) :: rest
  | _, _ => .ok []

def merge (f g : Frame) : Except FlowFault Frame :=
  if f.stack.length = g.stack.length ∧ f.height = g.height then do
    let stack ← mergeStacks f.stack g.stack
    return ofStack (Array.zipWith VType.merge f.locals g.locals) stack f.maxStack
  else .error (.heightMismatch f.height g.height)

@[simp] theorem stack_ofStack (locals : Array VType) (ts : List VType) (maxStack : UInt16) :
    (ofStack locals ts maxStack).stack = ts := by
  simp [stack, ofStack]

@[simp] theorem locals_ofStack (locals : Array VType) (ts : List VType) (maxStack : UInt16) :
    (ofStack locals ts maxStack).locals = locals := rfl

@[simp] theorem locals_withStack (f : Frame) (ts : List VType) :
    (f.withStack ts).locals = f.locals := rfl

@[simp] theorem maxStack_withStack (f : Frame) (ts : List VType) :
    (f.withStack ts).maxStack = f.maxStack := rfl

@[simp] theorem stack_withStack (f : Frame) (ts : List VType) : (f.withStack ts).stack = ts :=
  stack_ofStack ..

/-- A frame is known by its locals, its stack and its limit: the slots follow from the stack. -/
theorem ext_stack {f g : Frame} (locals : f.locals = g.locals) (stack : f.stack = g.stack)
    (maxStack : f.maxStack = g.maxStack) : f = g := by
  obtain ⟨locals, slots, maxStack, isStack⟩ := f
  obtain ⟨locals', slots', maxStack', isStack'⟩ := g
  cases locals
  cases maxStack
  have same : slots = slots' := by rw [isStack, isStack', List.reverse_inj.mp stack]
  cases same
  rfl

@[simp] theorem withStack_stack (f : Frame) : f.withStack f.stack = f :=
  ext_stack rfl (stack_withStack f f.stack) rfl

@[simp] theorem withStack_withStack (f : Frame) (ts us : List VType) :
    (f.withStack ts).withStack us = f.withStack us := rfl

theorem height_eq (f : Frame) : f.height = total width f.stack := by
  rw [height, f.isStack, Slotted.used, Slotted.next_ofList, Slotted.ofList, Slotted.first_putAll,
    stack, total_reverse]
  exact Nat.add_sub_cancel_left ..

theorem push_eq (t : VType) (f : Frame) :
    push t f = if f.height + width t > f.maxStack.toNat then .error (.stackOverflow f.maxStack) f
      else .ok () (f.withStack (t :: f.stack)) := by
  have top : { f with slots := (f.slots.put t).2, isStack := f.isStack.put t } =
      f.withStack (t :: f.stack) := by
    refine ext_stack rfl ?_ rfl
    rw [stack_withStack]
    simp [stack]
  rw [← top]
  rfl

theorem push_eq_ok_iff {t : VType} {f g : Frame} :
    push t f = .ok () g ↔
      f.height + width t ≤ f.maxStack.toNat ∧ g = f.withStack (t :: f.stack) := by
  rw [push_eq]
  split
  · simp only [reduceCtorEq, false_iff, not_and]
    omega
  · simp only [EStateM.Result.ok.injEq, true_and, eq_comm]
    constructor
    · intro h
      exact ⟨by omega, h⟩
    · exact And.right

theorem pop_withStack (f : Frame) (t : VType) (ts : List VType) :
    pop (f.withStack (t :: ts)) = .ok t (f.withStack ts) := by
  have popped : (f.withStack (t :: ts)).slots.pop? = some (t, (f.withStack ts).slots) := by
    change (Slotted.ofList 0 (t :: ts).reverse).pop? = _
    rw [List.reverse_cons]
    exact Slotted.pop?_concat 0 ts.reverse t
  unfold pop
  split
  · rename_i found
    cases found.symm.trans popped
    rfl
  · rename_i found
    cases found.symm.trans popped

theorem pop_withStack_nil (f : Frame) : pop (f.withStack []) = .error .emptyStack (f.withStack []) :=
  rfl

theorem pop_of_nil {f : Frame} (values : f.stack = []) : pop f = .error .emptyStack f := by
  rw [← f.withStack_stack, values]
  exact pop_withStack_nil f

theorem pop_of_cons {f : Frame} {t : VType} {ts : List VType} (values : f.stack = t :: ts) :
    pop f = .ok t (f.withStack ts) := by
  rw [← f.withStack_stack, values, pop_withStack, withStack_withStack]

theorem pop_eq_ok_iff {t : VType} {f g : Frame} :
    pop f = .ok t g ↔ f = g.withStack (t :: g.stack) := by
  constructor
  · intro done
    cases values : f.stack with
    | nil =>
      rw [pop_of_nil values] at done
      cases done
    | cons u us =>
      rw [pop_of_cons values] at done
      cases done
      rw [stack_withStack, withStack_withStack, ← values, withStack_stack]
  · intro same
    rw [same, pop_withStack, withStack_stack]

@[simp] theorem stack_retype (old new : VType) (f : Frame) :
    (f.retype old new).stack = f.stack.map fun t => if t = old then new else t := by
  simp [stack, retype]

@[simp] theorem size_breakWide (locals : Array VType) (i : Nat) :
    (breakWide locals i).size = locals.size := by
  cases i with
  | zero => rfl
  | succ i =>
    simp only [breakWide]
    split
    · split <;> simp
    · rfl

@[simp] theorem size_written (locals : Array VType) (i : Nat) (t : VType) :
    (written locals i t).size = locals.size := by
  unfold written
  split <;> simp

/-- How many times a list of types can still change by merging or by becoming shorter. -/
def roomOf (ts : List VType) : Nat := total (fun t => t.room + 1) ts

def room (f : Frame) : Nat := roomOf f.locals.toList + roomOf f.stack

@[simp] theorem roomOf_nil : roomOf [] = 0 := rfl

@[simp] theorem roomOf_cons (t : VType) (ts : List VType) :
    roomOf (t :: ts) = t.room + 1 + roomOf ts := rfl

theorem room_zipWith_le (ts us : List VType) : roomOf (ts.zipWith VType.merge us) ≤ roomOf ts := by
  induction ts generalizing us with
  | nil => simp
  | cons t ts ih =>
    cases us with
    | nil => simp [roomOf]
    | cons u us =>
      have := VType.room_merge_le t u
      have := ih us
      simp only [List.zipWith_cons_cons, roomOf_cons]
      omega

theorem room_zipWith_lt (ts us : List VType) (h : ts.zipWith VType.merge us ≠ ts) :
    roomOf (ts.zipWith VType.merge us) < roomOf ts := by
  induction ts generalizing us with
  | nil => exact absurd rfl h
  | cons t ts ih =>
    cases us with
    | nil =>
      rw [List.zipWith_nil_right, roomOf_cons, roomOf_nil]
      omega
    | cons u us =>
      simp only [List.zipWith_cons_cons, roomOf_cons]
      by_cases ht : t.merge u = t
      · have hts : ts.zipWith VType.merge us ≠ ts := by
          intro heq
          exact h (by simp [ht, heq])
        have := ih us hts
        rw [ht]
        omega
      · have := VType.room_merge_lt ht
        have := room_zipWith_le ts us
        omega

theorem mergeValue_eq {t u m : VType} (h : mergeValue t u = .ok m) : m = t.merge u := by
  unfold mergeValue at h
  split at h <;> simp_all

theorem mergeStacks_eq {ts us ms : List VType} (h : mergeStacks ts us = .ok ms) :
    ms = ts.zipWith VType.merge us := by
  induction ts generalizing us ms with
  | nil => simp_all [mergeStacks]
  | cons t ts ih =>
    cases us with
    | nil => simp_all [mergeStacks]
    | cons u us =>
      simp only [mergeStacks, bind, Except.bind] at h
      cases hr : mergeStacks ts us with
      | error e => simp [hr] at h
      | ok rest =>
        simp only [hr] at h
        cases hm : mergeValue t u with
        | error e => simp [hm] at h
        | ok m =>
          simp only [hm, pure, Except.pure, Except.ok.injEq] at h
          rw [← h, ih hr, mergeValue_eq hm]
          rfl

theorem merge_eq {f g m : Frame} (h : f.merge g = .ok m) :
    m = ofStack (Array.zipWith VType.merge f.locals g.locals)
      (f.stack.zipWith VType.merge g.stack) f.maxStack := by
  unfold merge at h
  split at h
  · simp only [bind, Except.bind] at h
    cases hs : mergeStacks f.stack g.stack with
    | error e => simp [hs] at h
    | ok stack =>
      simp only [hs, pure, Except.pure, Except.ok.injEq] at h
      rw [← h, mergeStacks_eq hs]
  · cases h

theorem room_merge_lt {f g m : Frame} (h : f.merge g = .ok m) (hne : m ≠ f) : m.room < f.room := by
  have hstack : m.stack = f.stack.zipWith VType.merge g.stack := by
    rw [merge_eq h, stack_ofStack]
  have hlocals : m.locals.toList = f.locals.toList.zipWith VType.merge g.locals.toList := by
    rw [merge_eq h]
    exact Array.toList_zipWith
  rw [room, room, hstack, hlocals]
  have hl := room_zipWith_le f.locals.toList g.locals.toList
  have hs := room_zipWith_le f.stack g.stack
  by_cases hls : f.locals.toList.zipWith VType.merge g.locals.toList = f.locals.toList
  · by_cases hss : f.stack.zipWith VType.merge g.stack = f.stack
    · have same : m = f := by
        refine ext_stack (Array.toList_inj.mp (hlocals.trans hls)) (hstack.trans hss) ?_
        rw [merge_eq h]
        rfl
      exact absurd same hne
    · have := room_zipWith_lt _ _ hss
      omega
  · have := room_zipWith_lt _ _ hls
    omega

end Frame

end JvmClass
