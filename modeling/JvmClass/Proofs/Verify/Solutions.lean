import JvmClass.Proofs.Verify.Joins
import JvmClass.Proofs.Verify.Paths
import JvmClass.Proofs.Verify.Suited

/-! The frames that are recorded when the analysis ends solve the equations of the flow: each of
them already has in it whatever flows in.  Being above a frame is the same as not being changed by
it as long as stacks hold no unusable value, because such values do not merge. -/

namespace JvmClass

namespace Frame

variable {checked : Prop} {P : String → Prop} {size : Nat} {maxStack : UInt16} {f g m : Frame}
  {ts us : List VType} {caught : VType}

theorem meets_of_under (below : List.Forall₂ (VType.Under P) ts us) (values : ∀ u ∈ us, u ≠ .top) :
    List.Forall₂ VType.Meets us ts ∧ us.zipWith VType.merge ts = us := by
  induction below with
  | nil => exact ⟨.nil, rfl⟩
  | @cons t u _ _ first _ ih =>
    obtain ⟨value, values⟩ := List.forall_mem_cons.mp values
    have same : u.merge t = u := (VType.Covered.under first.trivial).merge_eq
    obtain ⟨meets, others⟩ := ih values
    refine ⟨.cons ?_ meets, ?_⟩
    · rwa [VType.Meets, same]
    · rw [List.zipWith_cons_cons, same, others]

/-- Merging a frame into one above it changes nothing. -/
theorem Under.merge_eq (below : Under P size maxStack f g) (usable : g.Usable size) :
    g.merge f = .ok g := by
  have locals : Array.zipWith VType.merge g.locals f.locals = g.locals := by
    have sizes : g.locals.size = f.locals.size := below.right.locals.trans below.left.locals.symm
    refine Array.ext (by rw [Array.size_zipWith, sizes, Nat.min_self]) fun i _ inside => ?_
    have inside' : i < f.locals.size := sizes ▸ inside
    rw [Array.getElem_zipWith]
    exact (below.locals i _ _ (Array.getElem?_eq_getElem inside')
      (Array.getElem?_eq_getElem inside)).merge_eq
  obtain ⟨meets, stack⟩ := meets_of_under below.stack usable.stack
  rw [merge_eq_ok_iff, join, locals, stack]
  exact ⟨meets, g.withStack_stack.symm⟩

theorem ne_top_of_meets (meets : List.Forall₂ VType.Meets ts us) :
    ∀ t ∈ ts.zipWith VType.merge us, t ≠ .top := by
  induction meets with
  | nil => exact fun t member => absurd member List.not_mem_nil
  | cons first _ ih => exact List.forall_mem_cons.mpr ⟨first, ih⟩

theorem usable_merge (usable : f.Usable size) (usable' : g.Usable size)
    (merged : f.merge g = .ok m) : m.Usable size := by
  obtain ⟨meets, rfl⟩ := merge_eq_ok_iff.mp merged
  refine ⟨?_, ?_⟩
  · change (Array.zipWith _ _ _).size = size
    rw [Array.size_zipWith, usable.size_eq, usable'.size_eq, Nat.min_self]
  · rw [stack_join]
    exact ne_top_of_meets meets

theorem mem_merge (merged : f.merge g = .ok m) :
    (∀ t ∈ m.locals, ∃ a ∈ f.locals, ∃ b ∈ g.locals, t = a.merge b) ∧
    ∀ t ∈ m.stack, ∃ a ∈ f.stack, ∃ b ∈ g.stack, t = a.merge b := by
  have zipped {ts us : List VType} :
      ∀ t ∈ ts.zipWith VType.merge us, ∃ a ∈ ts, ∃ b ∈ us, t = a.merge b := by
    intro t member
    obtain ⟨k, here⟩ := List.mem_iff_getElem?.mp member
    obtain ⟨a, b, left, right, same⟩ := List.getElem?_zipWith_eq_some.mp here
    exact ⟨a, List.mem_of_getElem? left, b, List.mem_of_getElem? right, same.symm⟩
  obtain rfl := merge_eq merged
  rw [stack_ofStack, locals_ofStack]
  refine ⟨fun t member => ?_, zipped⟩
  rw [← Array.mem_toList_iff, Array.toList_zipWith] at member
  simpa only [Array.mem_toList_iff] using zipped t member

theorem isOfFlow_of_mergeStacks {e : FlowFault} (failed : mergeStacks ts us = .error e) :
    e.isOfFlow = true := by
  induction ts generalizing us with
  | nil => cases failed
  | cons t ts ih =>
    cases us with
    | nil => cases failed
    | cons u us =>
      cases others : mergeStacks ts us with
      | error e' =>
        simp only [mergeStacks, others, bind, Except.bind] at failed
        cases failed
        exact ih others
      | ok rest =>
        simp only [mergeStacks, others, bind, Except.bind] at failed
        unfold mergeValue at failed
        split at failed
        · rename_i first
          split at first <;> cases first
          cases failed
          rfl
        · cases failed

theorem isOfFlow_of_merge {e : FlowFault} (failed : f.merge g = .error e) :
    e.isOfFlow = true := by
  unfold merge at failed
  split at failed
  · cases merges : mergeStacks f.stack g.stack with
    | error e' =>
      rw [merges] at failed
      cases failed
      exact isOfFlow_of_mergeStacks merges
    | ok stack =>
      rw [merges] at failed
      cases failed
  · cases failed
    rfl

theorem holds_withCaught {d : Discipline size} (holds : d.Holds f) (value : d.value caught)
    (done : f.withCaught caught = .ok g) : d.Holds g := by
  have cleared : d.Holds (f.withStack []) :=
    ⟨holds.locals, fun t member => absurd member List.not_mem_nil⟩
  have push : Guarded False d (push caught) fun _ => True := guarded_push value
  exact push.holds cleared (MethodContext.after_eq_ok_iff.mp done)

theorem isOfFlow_of_withCaught {e : FlowFault} (failed : f.withCaught caught = .error e) :
    e.isOfFlow = true := by
  unfold withCaught after push at failed
  split at failed
  · cases failed
  · rename_i fails
    split at fails <;> cases fails
    cases failed
    rfl

end Frame

namespace Flow

variable {checked : Prop} {c : MethodContext} {p : Program} {size : Nat} {s t : Flow}
  {f g : Frame} {position offset : Nat}

section Keeping

variable {I : Nat → Frame → Prop}

def Has (I : Nat → Frame → Prop) (s : Flow) : Prop := ∀ q F, s.frame? q = some F → I q F

/-- Recorded frames have the property of their positions, and where something has been checked,
there are no faults but those of flow. -/
structure Guarded (checked : Prop) (I : Nat → Frame → Prop) (x : Except FlowFault Flow) :
    Prop where
  has : ∀ t, x = .ok t → t.Has I
  faults : checked → ∀ e, x = .error e → e.isOfFlow = true

structure Keeps (c : MethodContext) (p : Program) (I : Nat → Frame → Prop) : Prop where
  merged : ∀ ⦃q f g m⦄, I q f → I q g → f.merge g = .ok m → I q m
  caught : ∀ ⦃q offset i f g⦄ ⦃h : Handler⦄, p.code[q]? = some (offset, i) → I q f →
    h ∈ p.handlers → h.start ≤ offset → offset < h.stop → f.withCaught h.caught = .ok g →
      I h.position g
  next : ∀ ⦃q offset i f g r⦄, p.code[q]? = some (offset, i) → I q f →
    Frame.after (c.effect offset i) f = .ok g → some r ∈ p.successors q i → I r g

def Sane (c : MethodContext) (p : Program) (I : Nat → Frame → Prop) : Prop :=
  ∀ ⦃q offset i f e⦄, p.code[q]? = some (offset, i) → I q f →
    Frame.after (c.effect offset i) f = .error e → e.isOfFlow = true

theorem guarded_ok (has : s.Has I) : Guarded checked I (.ok s) where
  has t same := by
    cases same
    exact has
  faults _ e same := by cases same

theorem guarded_error {e : FlowFault} (allowed : checked → e.isOfFlow = true) :
    Guarded checked I (.error e) where
  has t same := by cases same
  faults established e' same := by
    cases same
    exact allowed established

theorem guarded_bind {α : Type} {x : Except FlowFault α} {next : α → Except FlowFault Flow}
    (found : ∀ a, x = .ok a → Guarded checked I (next a))
    (faults : checked → ∀ e, x = .error e → e.isOfFlow = true) :
    Guarded checked I (x >>= next) := by
  cases x with
  | ok a => exact found a rfl
  | error e => exact guarded_error fun established => faults established e rfl

theorem has_record (has : s.Has I) (here : I position f) (inside : position < s.frames.size) :
    (s.record position f).Has I := by
  intro q F found
  rw [frame?_record s f inside] at found
  split at found
  · rename_i same
    cases found
    exact same ▸ here
  · exact has q F found

theorem guarded_flowInto (keeps : Keeps c p I) (has : s.Has I) (here : I position f) :
    Guarded checked I (s.flowInto position f) := by
  unfold flowInto
  cases found : s.frames[position]? with
  | none => exact guarded_ok has
  | some old? =>
    have inside := (Array.getElem?_eq_some_iff.mp found).1
    cases old? with
    | none => exact guarded_ok (has_record has here inside)
    | some old =>
      have recorded : s.frame? position = some old := by rw [frame?, found, Option.join_some]
      dsimp only
      cases merged : old.merge f with
      | error e => exact guarded_error fun _ => Frame.isOfFlow_of_merge merged
      | ok m =>
        dsimp only
        split
        · exact guarded_ok has
        · have above := keeps.merged (has position old recorded) here merged
          exact guarded_ok (has_record has above inside)

theorem guarded_flowIntoHandlers (keeps : Keeps c p I) {hs : List Handler} (has : s.Has I)
    (caught : ∀ h ∈ hs, h.start ≤ offset → offset < h.stop →
      ∀ g, f.withCaught h.caught = .ok g → I h.position g) :
    Guarded checked I (s.flowIntoHandlers offset f hs) := by
  induction hs generalizing s with
  | nil => exact guarded_ok has
  | cons h hs ih =>
    obtain ⟨first, others⟩ := List.forall_mem_cons.mp caught
    unfold flowIntoHandlers
    split
    · rename_i covers
      refine guarded_bind (fun g started => ?_) fun _ e failed => ?_
      · have into : Guarded checked I (s.flowInto h.position g) :=
          guarded_flowInto keeps has (first covers.1 covers.2 g started)
        exact guarded_bind (fun t entered => ih (into.has t entered) others) into.faults
      · exact Frame.isOfFlow_of_withCaught failed
    · exact ih has others

theorem guarded_flowOn (keeps : Keeps c p I) {n : Nat} {rest : List (Option Nat)} (has : s.Has I)
    (next : ∀ r, some r ∈ rest → I r f) : Guarded checked I (s.flowOn n f rest) := by
  induction rest generalizing s with
  | nil => exact guarded_ok has
  | cons first rest ih =>
    cases first with
    | none => exact guarded_error fun _ => rfl
    | some position =>
      unfold flowOn
      split
      · have into : Guarded checked I (s.flowInto position f) :=
          guarded_flowInto keeps has (next position List.mem_cons_self)
        have others : ∀ r, some r ∈ rest → I r f := fun r member =>
          next r (List.mem_cons_of_mem _ member)
        exact guarded_bind (fun t entered => ih (into.has t entered) others) into.faults
      · exact guarded_error fun _ => rfl

theorem guarded_visit (keeps : Keeps c p I) (has : s.Has I) :
    Guarded (Sane c p I) I (visit c p position s) := by
  unfold visit
  split
  · rename_i offset i f here found
    have before := has position f found
    have into : Guarded (Sane c p I) I (s.flowIntoHandlers offset f p.handlers) :=
      guarded_flowIntoHandlers keeps has fun h listed starts stops g started =>
        keeps.caught here before listed starts stops started
    refine guarded_bind (fun t entered => ?_) into.faults
    refine guarded_bind (fun g done => ?_) fun sane e failed => sane here before failed
    exact guarded_flowOn keeps (into.has t entered) fun r leads =>
      keeps.next here before done leads
  · exact guarded_ok has

theorem run_cons {frames : Array (Option Frame)} {queued : Array Bool} {left : List Nat} :
    run c p ⟨frames, queued, position :: left⟩ =
      match visit c p position ⟨frames, queued.setIfInBounds position false, left⟩ with
      | .error e => .error (position, e)
      | .ok t => run c p t := by
  rw [run]
  split <;> rename_i visited <;> rw [visited]

theorem guarded_run (keeps : Keeps c p I) (has : s.Has I) :
    Guarded (Sane c p I) I ((run c p s).mapError Prod.snd) := by
  induction s using run.induct c p with
  | case1 frames queued =>
    rw [run]
    exact guarded_ok has
  | case2 frames queued position left e failed =>
    have visited : Guarded (Sane c p I) I
        (visit c p position ⟨frames, queued.setIfInBounds position false, left⟩) :=
      guarded_visit keeps has
    rw [run_cons, failed]
    exact guarded_error fun sane => visited.faults sane e failed
  | case3 frames queued position left u done ih =>
    have visited : Guarded (Sane c p I) I
        (visit c p position ⟨frames, queued.setIfInBounds position false, left⟩) :=
      guarded_visit keeps has
    rw [run_cons, done]
    exact ih (visited.has u done)

theorem has_empty (n : Nat) : (empty n).Has I := by
  intro q F found
  rw [frame?_empty] at found
  cases found

theorem guarded_solve (keeps : Keeps c p I) (start : I 0 f) :
    Guarded (Sane c p I) I ((solve c p f).mapError Prod.snd) := by
  have started : Guarded (Sane c p I) I ((empty p.code.size).flowInto 0 f) :=
    guarded_flowInto keeps (has_empty _) start
  unfold solve
  split
  · rename_i failed
    exact guarded_error fun sane => started.faults sane _ failed
  · rename_i entered
    exact guarded_run keeps (started.has _ entered)

theorem has_solve (keeps : Keeps c p I) (start : I 0 f) (solved : solve c p f = .ok t) :
    t.Has I :=
  (guarded_solve keeps start).has t (mapError_eq_ok_iff.mpr solved)

end Keeping

def Suited (c : MethodContext) (size : Nat) (p : Program) : Prop :=
  ∀ (q : Nat) offset i, p.code[q]? = some (offset, i) → c.Suits size i

theorem keeps_usable (values : ∀ h ∈ p.handlers, h.caught.Finished) :
    Keeps c p fun _ => Frame.Usable size where
  merged _ _ _ _ usable usable' merged := Frame.usable_merge usable usable' merged
  caught _ _ _ _ _ h _ usable listed _ _ done :=
    Frame.holds_withCaught usable (values h listed).usable done
  next _ offset i _ _ _ _ usable done _ :=
    (MethodContext.guarded_effect (c.admits_usable size offset i)).holds usable
      (MethodContext.after_eq_ok_iff.mp done)

theorem keeps_shaped {maxStack : UInt16} : Keeps c p fun _ => Frame.Shaped size maxStack where
  merged _ _ _ _ shaped shaped' merged := (Frame.under_merge shaped shaped' merged).1.right
  caught _ _ _ _ _ _ _ shaped _ _ _ done := MethodContext.shaped_withCaught shaped done
  next _ _ _ _ _ _ _ shaped done _ := MethodContext.shaped_effect shaped done

theorem Suited.sane (suited : Suited c size p) : Sane c p fun _ => Frame.Usable size :=
  fun q offset i _ _ here usable failed =>
    (MethodContext.guarded_effect (c.admits_usable size offset i)).isOfFlow_after usable
      (suited q offset i here) failed

theorem keeps_receives {maxStack : UInt16}
    (settled : ∀ q F, s.frame? q = some F → Settled c p size maxStack s q F)
    (positions : ∀ h ∈ p.handlers, h.position < p.code.size) :
    Keeps c p (s.Receives size maxStack) where
  merged q f g m receives receives' merged := by
    obtain ⟨F, found, below⟩ := receives
    obtain ⟨_, found', below'⟩ := receives'
    cases found.symm.trans found'
    exact ⟨F, found, below.merged below' merged⟩
  caught q offset i f g h here receives listed starts stops done := by
    obtain ⟨F, found, below⟩ := receives
    exact (settled q F found).receives_caught below here listed starts stops (positions h listed)
      done
  next q offset i f g r here receives done leads := by
    obtain ⟨F, found, below⟩ := receives
    exact ((settled q F found).receives_next below here done leads).2

/-- Recorded frames that have in them whatever flows into them: the frame at the entry, what an
instruction makes of the frame before it, and what its handlers start with. -/
structure Solves (s : Flow) (c : MethodContext) (p : Program) (entry : Frame) : Prop where
  start : 0 < p.code.size → ∃ F, s.frame? 0 = some F ∧ F.merge entry = .ok F
  next : ∀ (q : Nat) offset i F, p.code[q]? = some (offset, i) → s.frame? q = some F →
    ∃ g, Frame.after (c.effect offset i) F = .ok g ∧ ∀ next ∈ p.successors q i,
      ∃ r G, next = some r ∧ r < p.code.size ∧ s.frame? r = some G ∧ G.merge g = .ok G
  caught : ∀ (q : Nat) offset i F, p.code[q]? = some (offset, i) → s.frame? q = some F →
    ∀ h ∈ p.handlers, h.start ≤ offset → offset < h.stop →
      ∃ g G, F.withCaught h.caught = .ok g ∧ h.position < p.code.size ∧
        s.frame? h.position = some G ∧ G.merge g = .ok G

theorem Receives.merge_eq {maxStack : UInt16} (usable : s.Has fun _ => Frame.Usable size)
    (receives : s.Receives size maxStack position f) :
    ∃ F, s.frame? position = some F ∧ F.merge f = .ok F := by
  obtain ⟨F, found, below⟩ := receives
  exact ⟨F, found, below.merge_eq (usable position F found)⟩

theorem solves_solve {maxStack : UInt16} (shaped : f.Shaped size maxStack) (usable : f.Usable size)
    (values : ∀ h ∈ p.handlers, h.caught.Finished)
    (positions : ∀ h ∈ p.handlers, h.position < p.code.size) (solved : solve c p f = .ok t) :
    t.Solves c p f := by
  obtain ⟨first, settled⟩ := settled_solve shaped solved
  have usable' := has_solve (keeps_usable values) usable solved
  refine ⟨fun inside => (first inside).merge_eq usable', ?_, ?_⟩
  · intro q offset i F here found
    obtain ⟨g, done, later⟩ := (settled q F found).next offset i here
    refine ⟨g, done, fun next leads => ?_⟩
    obtain ⟨r, same, inside, receives⟩ := later next leads
    obtain ⟨G, recorded, merged⟩ := receives.merge_eq usable'
    exact ⟨r, G, same, inside, recorded, merged⟩
  · intro q offset i F here found h listed starts stops
    obtain ⟨g, done, receives⟩ := (settled q F found).caught offset i here h listed starts stops
    have inside := positions h listed
    obtain ⟨G, recorded, merged⟩ := (receives inside).merge_eq usable'
    exact ⟨g, G, done, inside, recorded, merged⟩

structure Analysis (c : MethodContext) (p : Program) (size : Nat) (maxStack : UInt16)
    (entry : Frame) (s : Flow) : Prop where
  shaped : entry.Shaped size maxStack
  usable : entry.Usable size
  values : ∀ h ∈ p.handlers, h.caught.Finished
  positions : ∀ h ∈ p.handlers, h.position < p.code.size
  solved : solve c p entry = .ok s

namespace Analysis

variable {maxStack : UInt16} {entry F : Frame}
  (analysis : Analysis c p size maxStack entry s)
include analysis

theorem start (inside : 0 < p.code.size) : s.Receives size maxStack 0 entry :=
  (settled_solve analysis.shaped analysis.solved).1 inside

theorem settled (found : s.frame? position = some F) :
    Settled c p size maxStack s position F :=
  (settled_solve analysis.shaped analysis.solved).2 position F found

theorem shapedFrame (found : s.frame? position = some F) : F.Shaped size maxStack :=
  has_solve keeps_shaped analysis.shaped analysis.solved position F found

theorem usableFrame (found : s.frame? position = some F) : F.Usable size :=
  has_solve (keeps_usable analysis.values) analysis.usable analysis.solved position F found

end Analysis

end Flow

namespace MethodContext

open Width (width)
open JvmClass.Frame

variable {checked : Prop} {c : MethodContext} {size : Nat} {f : Frame}

theorem width_receiverType : width c.receiverType = 1 := by
  unfold receiverType
  split <;> rfl

theorem receiverType_ne_top : c.receiverType ≠ .top := by
  unfold receiverType
  split <;> exact VType.noConfusion

theorem width_ofFieldType (t : FieldType) : width (VType.ofFieldType t) = t.slots := by
  rcases t with b | r
  · cases b <;> rfl
  · rfl

theorem guarded_storeParameters {d : Discipline size} {ts : List FieldType} {slot : UInt16}
    (stores : ∀ i, d.stores i)
    (inside : checked → slot.toNat + total FieldType.slots ts ≤ size) (bound : size < 0x10000) :
    Guarded checked d (storeParameters ts slot) fun _ => True := by
  induction ts generalizing slot with
  | nil => exact guarded_pure trivial
  | cons t ts ih =>
    refine guarded_seq (guarded_store (fun established => ?_) (stores _) ?_)
      (ih fun established => ?_)
    · have whole := inside established
      rw [total_cons] at whole
      rw [width_ofFieldType]
      omega
    · exact d.finished (VType.finished_ofFieldType t)
    · have whole := inside established
      rw [total_cons] at whole
      have sum : (slot + (width (VType.ofFieldType t)).toUInt16).toNat = slot.toNat + t.slots := by
        rw [width_ofFieldType, UInt16.toNat_add, UInt16.toNat_ofNat']
        omega
      omega

theorem guarded_entry {maxLocals : UInt16} {isStatic : Bool} {d : Discipline maxLocals.toNat}
    (stores : ∀ i, d.stores i) (receiver : d.value c.receiverType)
    (inside : checked → c.type.parameterSlots (!isStatic) ≤ maxLocals.toNat) :
    Guarded checked d
      (if isStatic then storeParameters c.type.parameters 0
        else store 0 c.receiverType >>= fun _ => storeParameters c.type.parameters 1)
      fun _ => True := by
  have bound := maxLocals.toNat_lt
  unfold MethodType.parameterSlots at inside
  refine guarded_ite (fun static => ?_) fun other => ?_
  · subst static
    refine guarded_storeParameters stores (fun established => ?_) bound
    have whole := inside established
    simpa using whole
  · rw [Bool.not_eq_true] at other
    subst other
    refine guarded_seq (guarded_store (fun established => ?_) (stores _) receiver)
      (guarded_storeParameters stores (fun established => ?_) bound)
    · have whole := inside established
      rw [width_receiverType]
      simp at whole ⊢
      omega
    · have whole := inside established
      simpa using whole

variable {maxLocals maxStack : UInt16} {isStatic : Bool}

theorem usable_empty : (Frame.empty maxLocals maxStack).Usable maxLocals.toNat :=
  ⟨Array.size_replicate, fun _ member => absurd member List.not_mem_nil⟩

theorem usable_entryFrame (found : c.entryFrame maxLocals maxStack isStatic = .ok f) :
    f.Usable maxLocals.toNat :=
  (guarded_entry (fun _ => trivial) receiverType_ne_top False.elim).holds usable_empty
    (after_eq_ok_iff.mp found)

end MethodContext

namespace ClassFile

variable {label : String} {s : FlowSubject} {p : Program}

theorem finished_of_programOf (found : programOf label s = .ok p) :
    ∀ h ∈ p.handlers, h.caught.Finished :=
  holds_caught found (VType.finished_object _) fun _ _ _ => VType.finished_object _

theorem exists_analysis {c : ClassFile} {m : Nat} {s : FlowSubject}
    (subject : c.flowSubject? m = .ok (some s)) (accepted : c.checkFlow m = .ok ()) :
    ∃ p entry flow, programOf (c.methodLabel m) s = .ok p ∧
      s.context.entryFrame s.code.maxLocals s.code.maxStack s.isStatic = .ok entry ∧
      Flow.Analysis s.context p s.code.maxLocals.toNat s.code.maxStack entry flow := by
  obtain ⟨p, flow, _, program, entry, entered, solved⟩ := (checkFlow_eq_ok_iff subject).mp accepted
  exact ⟨p, entry, flow, program, entered, MethodContext.shaped_entryFrame entered,
    MethodContext.usable_entryFrame entered, finished_of_programOf program,
    fun h listed => position_lt_of_mem_handlers (decode_of_flowSubject? subject) program listed,
    solved⟩

/-- Where the flow of types through a method is accepted, the frames that have been recorded solve
its equations. -/
theorem solves_of_checkFlow {c : ClassFile} {m : Nat} {s : FlowSubject}
    (subject : c.flowSubject? m = .ok (some s)) (accepted : c.checkFlow m = .ok ()) :
    ∃ p entry flow, programOf (c.methodLabel m) s = .ok p ∧
      s.context.entryFrame s.code.maxLocals s.code.maxStack s.isStatic = .ok entry ∧
      Flow.solve s.context p entry = .ok flow ∧ flow.Solves s.context p entry := by
  obtain ⟨p, entry, flow, program, entered, analysis⟩ := exists_analysis subject accepted
  exact ⟨p, entry, flow, program, entered, analysis.solved,
    Flow.solves_solve analysis.shaped analysis.usable analysis.values analysis.positions
      analysis.solved⟩

theorem solves_of_checkFlow_merging : ∃ s, merging.flowSubject? 0 = .ok (some s) ∧
    merging.checkFlow 0 = .ok () ∧
    ∃ p entry flow, programOf (merging.methodLabel 0) s = .ok p ∧
      s.context.entryFrame s.code.maxLocals s.code.maxStack s.isStatic = .ok entry ∧
      Flow.solve s.context p entry = .ok flow ∧ flow.Solves s.context p entry := by
  obtain ⟨s, _, _, replayed⟩ := replays_merging.replayed
  exact ⟨s, replayed.flows.subject, replayed.accepted,
    solves_of_checkFlow replayed.flows.subject replayed.accepted⟩

end ClassFile

end JvmClass
