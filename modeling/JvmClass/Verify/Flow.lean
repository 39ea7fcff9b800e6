import JvmClass.Code.Listing
import JvmClass.Verify.Effect

/-!
Frames at every instruction of a body, found by running its instructions over types.  The frame
at the entry is given.  What an instruction makes of its frame flows into its successors, and
before that its frame flows into the handlers that cover it, with the caught value alone on the
stack.  Frames that flow into one instruction merge, and an instruction whose frame changes is
visited again, the one that was queued last first.
`visit_advances` is why this ends: a visit records a first frame, takes room from a recorded one,
or leaves the work that is left shorter.
-/

namespace JvmClass

/-- A handler of exceptions: the offsets it covers, the position of its first instruction, and
the type of what it catches. -/
structure Handler where
  start : Nat
  stop : Nat
  position : Nat
  caught : VType
  deriving DecidableEq, Repr

structure Program where
  code : Array (Nat × Instruction Handle)
  /-- Where the instruction of a handle stands. -/
  positions : Std.HashMap Handle Nat
  handlers : List Handler

/-- The frames found so far, and the positions that are still to be visited. -/
structure Flow where
  frames : Array (Option Frame)
  /-- Whether a position is among those that are left. -/
  queued : Array Bool
  left : List Nat
  deriving DecidableEq

namespace Program

def ofListing (l : Listing) (handlers : List Handler) : Program :=
  ⟨(l.toList.filterMap fun (h, i) => (l.offset? h).map (·, i)).toArray,
    .ofList l.order.toList.zipIdx, handlers⟩

/-- Where control may go after an instruction, if these are the positions of handles; nothing stands
for a target that is not there. -/
def leads (positions : Handle → Option Nat) (position : Nat) (i : Instruction Handle) :
    List (Option Nat) :=
  if i.opcode.hasFacet .returning ∨ i.opcode = .athrow then []
  else
    match i with
    | .branch .goto t | .branch .gotoWide t => [positions t]
    | .branch _ t => [some (position + 1), positions t]
    | .tableSwitch _ _ _ | .lookupSwitch _ => i.targets.map positions
    | _ => [some (position + 1)]

def successors (p : Program) : Nat → Instruction Handle → List (Option Nat) :=
  leads (p.positions[·]?)

end Program

namespace Flow

def empty (size : Nat) : Flow := ⟨Array.replicate size none, Array.replicate size false, []⟩

def frame? (s : Flow) (position : Nat) : Option Frame := s.frames[position]?.join

/-- Puts a frame at a position, which is then to be visited. -/
def record (position : Nat) (f : Frame) : Flow → Flow
  | ⟨frames, queued, left⟩ =>
    if queued[position]? = some true then ⟨frames.setIfInBounds position (some f), queued, left⟩
    else
      ⟨frames.setIfInBounds position (some f), queued.setIfInBounds position true,
        position :: left⟩

def flowInto (position : Nat) (f : Frame) (s : Flow) : Except FlowFault Flow :=
  match s.frames[position]? with
  | none => .ok s
  | some none => .ok (s.record position f)
  | some (some old) =>
    match old.merge f with
    | .error e => .error e
    | .ok m => if m = old then .ok s else .ok (s.record position m)

def flowIntoHandlers (offset : Nat) (f : Frame) : List Handler → Flow → Except FlowFault Flow
  | [], s => .ok s
  | h :: hs, s =>
    if h.start ≤ offset ∧ offset < h.stop then do
      let s ← s.flowInto h.position (← f.withCaught h.caught)
      flowIntoHandlers offset f hs s
    else flowIntoHandlers offset f hs s

def flowOn (size : Nat) (f : Frame) : List (Option Nat) → Flow → Except FlowFault Flow
  | [], s => .ok s
  | none :: _, _ => .error .fallsOffEnd
  | some position :: rest, s =>
    if position < size then do
      let s ← s.flowInto position f
      flowOn size f rest s
    else .error .fallsOffEnd

def visit (c : MethodContext) (p : Program) (position : Nat) (s : Flow) : Except FlowFault Flow :=
  match p.code[position]?, s.frame? position with
  | some (offset, i), some f => do
    let s ← s.flowIntoHandlers offset f p.handlers
    let after ← Frame.after (c.effect offset i) f
    s.flowOn p.code.size after (p.successors position i)
  | _, _ => .ok s

def unrecorded (s : Flow) : Nat := total (fun f? => if f?.isNone then 1 else 0) s.frames.toList

def room (s : Flow) : Nat := total (fun f? => f?.elim 0 Frame.room) s.frames.toList

/-- From one state to another nothing happens, or a frame is recorded, or one loses room. -/
def Advances (s t : Flow) : Prop :=
  t = s ∨ t.unrecorded < s.unrecorded ∨ t.unrecorded = s.unrecorded ∧ t.room < s.room

theorem Advances.refl (s : Flow) : Advances s s := .inl rfl

theorem Advances.trans {s t u : Flow} (h : Advances s t) (k : Advances t u) : Advances s u := by
  rcases h with rfl | h
  · exact k
  · rcases k with rfl | k
    · exact .inr h
    · exact .inr (by omega)

@[simp] theorem frames_record (s : Flow) (position : Nat) (f : Frame) :
    (s.record position f).frames = s.frames.setIfInBounds position (some f) := by
  cases s
  simp only [record]
  split <;> rfl

theorem record_advances {s : Flow} {position : Nat} (f : Frame)
    (h : s.frames[position]? = some none) : Advances s (s.record position f) := by
  right; left
  have h' : s.frames.toList[position]? = some none := by simpa using h
  have := total_set_add (fun f? : Option Frame => if f?.isNone then 1 else 0) (some f) h'
  simp only [unrecorded, frames_record, Array.toList_setIfInBounds]
  simp at this ⊢
  omega

theorem record_merge_advances {s : Flow} {position : Nat} {old m : Frame}
    (h : s.frames[position]? = some (some old)) (hm : m.room < old.room) :
    Advances s (s.record position m) := by
  right; right
  have h' : s.frames.toList[position]? = some (some old) := by simpa using h
  have hu := total_set_add (fun f? : Option Frame => if f?.isNone then 1 else 0) (some m) h'
  have hr := total_set_add (fun f? : Option Frame => f?.elim 0 Frame.room) (some m) h'
  simp only [unrecorded, room, frames_record, Array.toList_setIfInBounds]
  simp only [Option.isNone_some, Bool.false_eq_true, if_false, Option.elim_some] at hu hr
  exact ⟨hu, by omega⟩

theorem flowInto_advances {s t : Flow} {position : Nat} {f : Frame}
    (h : s.flowInto position f = .ok t) : Advances s t := by
  unfold flowInto at h
  split at h
  · cases h; exact .refl s
  · rename_i hn
    cases h; exact record_advances f hn
  · rename_i old ho
    split at h
    · cases h
    · rename_i m hm
      split at h
      · cases h; exact .refl s
      · rename_i hne
        cases h; exact record_merge_advances ho (Frame.room_merge_lt hm hne)

theorem flowIntoHandlers_advances {s t : Flow} {offset : Nat} {f : Frame} {hs : List Handler}
    (h : s.flowIntoHandlers offset f hs = .ok t) : Advances s t := by
  induction hs generalizing s with
  | nil => cases h; exact .refl _
  | cons k hs ih =>
    unfold flowIntoHandlers at h
    split at h
    · obtain ⟨g, hg, h⟩ := bind_eq_ok h
      obtain ⟨u, hu, h⟩ := bind_eq_ok h
      exact (flowInto_advances hu).trans (ih h)
    · exact ih h

theorem flowOn_advances {s t : Flow} {size : Nat} {f : Frame} {rest : List (Option Nat)}
    (h : s.flowOn size f rest = .ok t) : Advances s t := by
  induction rest generalizing s with
  | nil => cases h; exact .refl _
  | cons next rest ih =>
    cases next with
    | none => cases h
    | some position =>
      unfold flowOn at h
      split at h
      · obtain ⟨u, hu, h⟩ := bind_eq_ok h
        exact (flowInto_advances hu).trans (ih h)
      · cases h

/-- A visit that succeeds leaves the frames as they are, records one, or takes room from one. -/
theorem visit_advances {c : MethodContext} {p : Program} {position : Nat} {s t : Flow}
    (h : s.visit c p position = .ok t) : Advances s t := by
  unfold visit at h
  split at h
  · obtain ⟨u, hu, h⟩ := bind_eq_ok h
    obtain ⟨g, hg, h⟩ := bind_eq_ok h
    exact (flowIntoHandlers_advances hu).trans (flowOn_advances h)
  · cases h; exact .refl s

/-- Visits positions until none is left.  A fault comes with the position where it arose. -/
def run (c : MethodContext) (p : Program) (s : Flow) : Except (Nat × FlowFault) Flow :=
  match s with
  | ⟨frames, queued, []⟩ => .ok ⟨frames, queued, []⟩
  | ⟨frames, queued, position :: left⟩ =>
    match _h : visit c p position ⟨frames, queued.setIfInBounds position false, left⟩ with
    | .error e => .error (position, e)
    | .ok t => run c p t
termination_by (s.unrecorded, s.room, s.left.length)
decreasing_by
  rcases visit_advances (by assumption) with rfl | h | ⟨hu, hr⟩
  · exact .right _ (.right _ (Nat.lt_succ_self _))
  · exact .left _ _ h
  · simp only [unrecorded] at hu
    simp only [unrecorded, hu]
    exact .right _ (.left _ _ hr)

def solve (c : MethodContext) (p : Program) (entry : Frame) : Except (Nat × FlowFault) Flow :=
  match (empty p.code.size).flowInto 0 entry with
  | .error e => .error (0, e)
  | .ok s => run c p s

end Flow

end JvmClass
