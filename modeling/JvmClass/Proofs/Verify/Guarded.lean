import JvmClass.Proofs.Verify.Following

/-! Steps on frames that keep a discipline for their locals and for the values on their stacks; and
where what steps do has been checked before, the faults that are left are those that only a
simulation finds.  The simulation is gone through once, for all disciplines: that locals are there
and values are usable, that a local stays what it is, that unfinished objects come from the code. -/

namespace JvmClass

def FlowFault.isOfFlow : FlowFault → Bool
  | emptyStack | stackOverflow _ | invalidWidth _ | notArray | incompatible _ _
  | heightMismatch _ _ | fallsOffEnd | uninitializedObject | badReturn | subroutine => true
  | invalidLocal _ | invalidType | badDescriptor _ | invalidConstant _ => false

namespace VType

structure Finished (t : VType) : Prop where
  usable : t ≠ top
  initialized : t.isUninitialized = false

theorem finished_object (n : String) : (object n).Finished := ⟨VType.noConfusion, rfl⟩

theorem finished_ofFieldType (t : FieldType) : (ofFieldType t).Finished := by
  rcases t with b | r
  · cases b <;> exact ⟨VType.noConfusion, rfl⟩
  · exact finished_object _

theorem finished_ofKind (k : ValueKind) : (ofKind k).Finished := by
  cases k <;> exact ⟨VType.noConfusion, rfl⟩

theorem finished_component? {a t : VType} (found : a.component? = some t) : t.Finished := by
  cases a with
  | null =>
    cases found
    exact ⟨VType.noConfusion, rfl⟩
  | object n =>
    unfold component? at found
    dsimp only at found
    split at found
    · cases found
      exact finished_ofFieldType _
    · cases found
  | _ => cases found

theorem finished_load? {k : ArrayKind} {a t : VType} (found : k.load? a = some t) :
    t.Finished := by
  by_cases reference : k = .reference
  · subst reference
    exact finished_component? (Option.filter_eq_some_iff.mp found).1
  · rw [load?_value reference found]
    cases k <;> exact ⟨VType.noConfusion, rfl⟩

theorem width_of_isAssignable_ofKind {t : VType} {k : ValueKind} (other : k ≠ .reference)
    (fits : t.isAssignable (ofKind k) = true) : Width.width t = k.slots := by
  cases k with
  | reference => exact absurd rfl other
  | _ => cases t <;> first | rfl | cases fits

theorem width_of_isReference {t : VType} (reference : t.isReference = true) :
    Width.width t = 1 := by
  cases t <;> first | rfl | cases reference

end VType

namespace Frame

open Width (width)

/-- What frames with a number of locals are to be: what holds of the locals and of every value on
the stack, to which slots values may be written, and which types may turn into others. -/
structure Discipline (size : Nat) where
  locals : Array VType → Prop
  value : VType → Prop
  stores : Nat → Prop
  retypes : VType → Prop
  sized : ∀ ⦃ts⦄, locals ts → ts.size = size
  finished : ∀ ⦃t⦄, t.Finished → value t
  loaded : ∀ ⦃ts⦄ ⦃i : Nat⦄ ⦃t⦄, locals ts → ts[i]? = some t → t ≠ .top → value t
  written : ∀ ⦃ts i t⦄, locals ts → stores i → value t → locals (written ts i t)
  retyped : ∀ ⦃ts old⦄ (n : String), locals ts → retypes old →
    locals (ts.map fun t => if t = old then .object n else t)

structure Discipline.Holds {size : Nat} (d : Discipline size) (f : Frame) : Prop where
  locals : d.locals f.locals
  stack : ∀ t ∈ f.stack, d.value t

def Discipline.usable (size : Nat) : Discipline size where
  locals ts := ts.size = size
  value t := t ≠ .top
  stores _ := True
  retypes _ := True
  sized _ same := same
  finished _ finished := finished.usable
  loaded _ _ _ _ _ usable := usable
  written _ _ _ same _ _ := (size_written ..).trans same
  retyped _ _ _ same _ := (Array.size_map ..).trans same

abbrev Usable (size : Nat) (f : Frame) : Prop := (Discipline.usable size).Holds f

variable {α β : Type} {checked : Prop} {size : Nat} {d : Discipline size} {f g : Frame} {t : VType}
  {Q : α → Prop} {R : β → Prop}

theorem Discipline.Holds.size_eq (holds : d.Holds f) : f.locals.size = size := d.sized holds.locals

/-- A step keeps the discipline and gives values with a property, or it fails; and where
something has been checked, it fails for reasons of flow only. -/
def Guarded (checked : Prop) (d : Discipline size) (step : Step α) (Q : α → Prop) : Prop :=
  ∀ ⦃f⦄, d.Holds f →
    (∃ a g, step f = .ok a g ∧ d.Holds g ∧ Q a) ∨
      ∃ e g, step f = .error e g ∧ (checked → e.isOfFlow = true)

theorem Guarded.holds {step : Step α} {a : α} (guarded : Guarded checked d step Q)
    (holds : d.Holds f) (done : step f = .ok a g) : d.Holds g := by
  obtain ⟨_, _, done', holds', _⟩ | ⟨_, _, failed, _⟩ := guarded holds
  · cases done.symm.trans done'
    exact holds'
  · cases done.symm.trans failed

theorem Guarded.isOfFlow {step : Step α} {e : FlowFault} (guarded : Guarded checked d step Q)
    (holds : d.Holds f) (established : checked) (failed : step f = .error e g) :
    e.isOfFlow = true := by
  obtain ⟨_, _, done, _⟩ | ⟨_, _, failed', allowed⟩ := guarded holds
  · cases failed.symm.trans done
  · cases failed.symm.trans failed'
    exact allowed established

theorem Guarded.isOfFlow_after {step : Step Unit} {Q : Unit → Prop} {e : FlowFault}
    (guarded : Guarded checked d step Q) (holds : d.Holds f) (established : checked)
    (failed : after step f = .error e) : e.isOfFlow = true := by
  unfold after at failed
  split at failed
  · cases failed
  · rename_i fails
    cases failed
    exact guarded.isOfFlow holds established fails

theorem Guarded.mono {step : Step α} {Q' : α → Prop} (guarded : Guarded checked d step Q)
    (weaker : ∀ a, Q a → Q' a) : Guarded checked d step Q' := by
  intro f holds
  obtain ⟨a, g, done, holds', property⟩ | failed := guarded holds
  · exact .inl ⟨a, g, done, holds', weaker a property⟩
  · exact .inr failed

theorem guarded_pure {a : α} (property : Q a) : Guarded checked d (pure a) Q :=
  fun f holds => .inl ⟨a, f, rfl, holds, property⟩

theorem guarded_throw {e : FlowFault} (allowed : checked → e.isOfFlow = true) :
    Guarded checked d (throw e) Q :=
  fun f _ => .inr ⟨e, f, rfl, allowed⟩

theorem guarded_throw_bind {e : FlowFault} {next : α → Step β}
    (allowed : checked → e.isOfFlow = true) : Guarded checked d (throw e >>= next) R :=
  fun f _ => .inr ⟨e, f, rfl, allowed⟩

theorem guarded_get : Guarded checked d get fun _ => True :=
  fun f holds => .inl ⟨f, f, rfl, holds, trivial⟩

theorem guarded_bind {step : Step α} {next : α → Step β} (first : Guarded checked d step Q)
    (second : ∀ a, Q a → Guarded checked d (next a) R) :
    Guarded checked d (step >>= next) R := by
  intro f holds
  obtain ⟨a, g, done, holds', property⟩ | ⟨e, g, failed, allowed⟩ := first holds
  · rw [bind_of_ok done]
    exact second a property holds'
  · rw [bind_of_error failed]
    exact .inr ⟨e, g, rfl, allowed⟩

theorem guarded_seq {step : Step α} {next : Step β} (first : Guarded checked d step Q)
    (second : Guarded checked d next R) : Guarded checked d (step >>= fun _ => next) R :=
  guarded_bind first fun _ _ => second

theorem guarded_discard {step : Step α} (guarded : Guarded checked d step Q) :
    Guarded checked d (discard step) fun _ => True := by
  change Guarded checked d (step >>= fun _ => pure ()) _
  exact guarded_seq guarded (guarded_pure trivial)

theorem guarded_ite {p : Prop} [Decidable p] {step step' : Step α}
    (first : p → Guarded checked d step Q) (second : ¬ p → Guarded checked d step' Q) :
    Guarded checked d (if p then step else step') Q := by
  split
  · exact first ‹_›
  · exact second ‹_›

theorem guarded_liftExcept {x : Except FlowFault α} (found : ∀ a, x = .ok a → Q a)
    (allowed : checked → ∀ e, x = .error e → e.isOfFlow = true) :
    Guarded checked d (liftExcept x) Q := by
  cases x with
  | ok a => exact guarded_pure (found a rfl)
  | error e => exact guarded_throw fun established => allowed established e rfl

theorem guarded_forM {step : β → Step Unit} (xs : List β)
    (guarded : ∀ x ∈ xs, Guarded checked d (step x) fun _ => True) :
    Guarded checked d (xs.forM step) fun _ => True := by
  induction xs with
  | nil => exact guarded_pure trivial
  | cons x xs ih =>
    exact guarded_seq (guarded x List.mem_cons_self)
      (ih fun y member => guarded y (List.mem_cons_of_mem x member))

theorem guarded_push (value : d.value t) : Guarded checked d (push t) fun _ => True := by
  intro f holds
  rw [push_eq]
  split
  · exact .inr ⟨_, f, rfl, fun _ => rfl⟩
  · refine .inl ⟨(), _, rfl, ⟨holds.locals, ?_⟩, trivial⟩
    rw [stack_withStack]
    exact List.forall_mem_cons.mpr ⟨value, holds.stack⟩

theorem guarded_pushFinished (finished : t.Finished) :
    Guarded checked d (push t) fun _ => True :=
  guarded_push (d.finished finished)

theorem guarded_pushAll {ts : List VType} (values : ∀ t ∈ ts, d.value t) :
    Guarded checked d (pushAll ts) fun _ => True := by
  induction ts with
  | nil => exact guarded_pure trivial
  | cons t ts ih =>
    obtain ⟨first, others⟩ := List.forall_mem_cons.mp values
    exact guarded_seq (guarded_push first) (ih others)

theorem guarded_pop : Guarded checked d pop d.value := by
  intro f holds
  have values := holds.stack
  cases stack : f.stack with
  | nil => exact .inr ⟨_, f, pop_of_nil stack, fun _ => rfl⟩
  | cons t ts =>
    rw [stack] at values
    obtain ⟨value, others⟩ := List.forall_mem_cons.mp values
    refine .inl ⟨t, f.withStack ts, pop_of_cons stack, ⟨holds.locals, ?_⟩, value⟩
    rwa [stack_withStack]

theorem guarded_popWidth (n : Nat) : Guarded checked d (popWidth n) d.value :=
  guarded_bind guarded_pop fun _ value =>
    guarded_ite (fun _ => guarded_pure value) fun _ => guarded_throw fun _ => rfl

theorem guarded_popExpecting (expected : VType) :
    Guarded checked d (popExpecting expected) fun t =>
      d.value t ∧ t.isAssignable expected = true :=
  guarded_bind guarded_pop fun _ value =>
    guarded_ite (fun fits => guarded_pure ⟨value, fits⟩) fun _ => guarded_throw fun _ => rfl

theorem guarded_popAnyReference :
    Guarded checked d popAnyReference fun t => d.value t ∧ t.isReference = true :=
  guarded_bind guarded_pop fun _ value =>
    guarded_ite (fun reference => guarded_pure ⟨value, reference⟩) fun _ =>
      guarded_throw fun _ => rfl

theorem guarded_popReference : Guarded checked d popReference d.value :=
  guarded_bind guarded_pop fun _ value =>
    guarded_ite (fun _ => guarded_throw fun _ => rfl) fun _ =>
      guarded_ite (fun _ => guarded_pure value) fun _ => guarded_throw fun _ => rfl

theorem guarded_popKind (k : ValueKind) : Guarded checked d (popKind k) d.value := by
  cases k with
  | reference => exact guarded_popReference
  | _ => exact (guarded_popExpecting _).mono fun _ => And.left

theorem guarded_popKinds (ks : List ValueKind) :
    Guarded checked d (popKinds ks) fun _ => True :=
  guarded_forM ks.reverse fun k _ => guarded_discard (guarded_popKind k)

theorem guarded_popArguments (ts : List FieldType) :
    Guarded checked d (popArguments ts) fun _ => True :=
  guarded_forM ts.reverse fun _ _ => guarded_discard (guarded_popExpecting _)

theorem guarded_pushReturn (r : Option FieldType) :
    Guarded checked d (pushReturn r) fun _ => True := by
  cases r with
  | none => exact guarded_pure trivial
  | some t => exact guarded_pushFinished (VType.finished_ofFieldType t)

theorem guarded_loadElement (k : ArrayKind) :
    Guarded checked d (loadElement k) fun _ => True := by
  refine guarded_seq (guarded_discard (guarded_popExpecting .int)) ?_
  refine guarded_bind guarded_popReference fun array _ => ?_
  split
  · exact guarded_pushFinished (VType.finished_load? ‹_›)
  · exact guarded_throw fun _ => rfl

theorem guarded_storeElement (k : ArrayKind) :
    Guarded checked d (storeElement k) fun _ => True := by
  have others : Guarded checked d (do
      discard (popExpecting .int)
      let array ← popReference
      if (k.load? array).isNone then throw .notArray) fun _ => True := by
    refine guarded_seq (guarded_discard (guarded_popExpecting .int)) ?_
    refine guarded_bind guarded_popReference fun array _ => ?_
    exact guarded_ite (fun _ => guarded_throw fun _ => rfl) fun _ => guarded_pure trivial
  cases k with
  | reference => exact guarded_seq (guarded_discard guarded_popReference) others
  | _ => exact guarded_seq (guarded_discard (guarded_popExpecting _)) others

theorem guarded_dup : Guarded checked d dup fun _ => True :=
  guarded_bind (guarded_popWidth 1) fun a first => guarded_pushAll (by simp [first])

theorem guarded_dupX1 : Guarded checked d dupX1 fun _ => True :=
  guarded_bind (guarded_popWidth 1) fun a first =>
    guarded_bind (guarded_popWidth 1) fun b second => guarded_pushAll (by simp [first, second])

theorem guarded_dupX2 : Guarded checked d dupX2 fun _ => True := by
  refine guarded_bind (guarded_popWidth 1) fun a first => ?_
  refine guarded_bind guarded_pop fun b second => ?_
  refine guarded_ite (fun _ => guarded_pushAll (by simp [first, second])) fun _ => ?_
  exact guarded_bind (guarded_popWidth 1) fun c third =>
    guarded_pushAll (by simp [first, second, third])

theorem guarded_popTwo : Guarded checked d popTwo fun _ => True :=
  guarded_bind guarded_pop fun _ _ =>
    guarded_ite (fun _ => guarded_discard (guarded_popWidth 1)) fun _ => guarded_pure trivial

theorem guarded_dupTwo : Guarded checked d dupTwo fun _ => True := by
  refine guarded_bind guarded_pop fun a first => ?_
  refine guarded_ite (fun _ => guarded_pushAll (by simp [first])) fun _ => ?_
  exact guarded_bind (guarded_popWidth 1) fun b second =>
    guarded_pushAll (by simp [first, second])

theorem guarded_dupTwoX1 : Guarded checked d dupTwoX1 fun _ => True := by
  refine guarded_bind guarded_pop fun a first => ?_
  refine guarded_bind (guarded_popWidth 1) fun b second => ?_
  refine guarded_ite (fun _ => guarded_pushAll (by simp [first, second])) fun _ => ?_
  exact guarded_bind (guarded_popWidth 1) fun c third =>
    guarded_pushAll (by simp [first, second, third])

theorem guarded_dupTwoX2 : Guarded checked d dupTwoX2 fun _ => True := by
  refine guarded_bind guarded_pop fun a first => ?_
  refine guarded_ite (fun _ => ?_) fun _ => ?_
  · refine guarded_bind guarded_pop fun b second => ?_
    refine guarded_ite (fun _ => guarded_pushAll (by simp [first, second])) fun _ => ?_
    exact guarded_bind (guarded_popWidth 1) fun c third =>
      guarded_pushAll (by simp [first, second, third])
  · refine guarded_bind (guarded_popWidth 1) fun b second => ?_
    refine guarded_bind guarded_pop fun c third => ?_
    refine guarded_ite (fun _ => guarded_pushAll (by simp [first, second, third])) fun _ => ?_
    exact guarded_bind (guarded_popWidth 1) fun d fourth =>
      guarded_pushAll (by simp [first, second, third, fourth])

theorem guarded_swap : Guarded checked d swap fun _ => True :=
  guarded_bind (guarded_popWidth 1) fun a first =>
    guarded_bind (guarded_popWidth 1) fun b second => guarded_pushAll (by simp [first, second])

theorem ne_top_of_isLoadable {expected : VType} (usable : expected ≠ .top)
    (loads : isLoadable t expected = true) : t ≠ .top := by
  rintro rfl
  cases expected <;> first | exact usable rfl | cases loads

theorem guarded_load {slot : UInt16} {expected : VType} (usable : expected ≠ .top)
    (inside : checked → slot.toNat + width expected ≤ size) :
    Guarded checked d (load slot expected) d.value := by
  intro f holds
  cases loaded : load slot expected f with
  | ok t g =>
    obtain ⟨_, here, loads, rfl⟩ := load_eq_ok_iff.mp loaded
    exact .inl ⟨t, _, rfl, holds, d.loaded holds.locals here (ne_top_of_isLoadable usable loads)⟩
  | error e g =>
    refine .inr ⟨e, g, rfl, fun established => ?_⟩
    have within := inside established
    have bound : slot.toNat < f.locals.size := by
      have positive := expected.width_pos
      have locals := holds.size_eq
      omega
    rw [← holds.size_eq] at within
    unfold load at loaded
    rw [if_neg (Nat.not_lt_of_le within), Array.getElem?_eq_getElem bound] at loaded
    dsimp only at loaded
    split at loaded <;> cases loaded
    rfl

theorem guarded_store {slot : UInt16} (inside : checked → slot.toNat + width t ≤ size)
    (stores : d.stores slot.toNat) (value : d.value t) :
    Guarded checked d (store slot t) fun _ => True := by
  rintro ⟨locals, stack, room⟩ holds
  unfold store
  dsimp only
  split
  · rename_i outside
    refine .inr ⟨_, _, rfl, fun established => ?_⟩
    have within := inside established
    rw [← holds.size_eq] at within
    exact absurd outside (Nat.not_lt_of_le within)
  · exact .inl ⟨(), _, rfl, ⟨d.written holds.locals stores value, holds.stack⟩, trivial⟩

theorem guarded_access {a : LocalAccess} {slot : UInt16}
    (inside : checked → slot.toNat + a.kind.slots ≤ size)
    (stores : a.isStore = true → d.stores slot.toNat) :
    Guarded checked d (access a slot) fun _ => True := by
  obtain ⟨kind, isStore, named⟩ := a
  refine guarded_ite (fun store => ?_) fun _ => ?_
  · cases kind with
    | reference =>
      refine guarded_bind guarded_popAnyReference fun t popped =>
        guarded_store (fun known => ?_) (stores store) popped.1
      rw [VType.width_of_isReference popped.2]
      exact inside known
    | _ =>
      refine guarded_bind (guarded_popExpecting _) fun t popped =>
        guarded_store (fun known => ?_) (stores store) popped.1
      rw [VType.width_of_isAssignable_ofKind ValueKind.noConfusion popped.2]
      exact inside known
  · have wide : width (VType.ofKind kind) = kind.slots := by cases kind <;> rfl
    refine guarded_bind (guarded_load (VType.finished_ofKind kind).usable ?_) fun t value =>
      guarded_push value
    rwa [wide]

theorem guarded_retype {old : VType} (n : String) (retypes : d.retypes old) :
    Guarded checked d (modify (retype old (.object n))) fun _ => True := by
  intro f holds
  refine .inl ⟨(), retype old (.object n) f, rfl, ⟨?_, fun t member => ?_⟩, trivial⟩
  · exact d.retyped n holds.locals retypes
  · rw [stack_retype] at member
    obtain ⟨u, stands, rfl⟩ := List.mem_map.mp member
    split
    · exact d.finished (VType.finished_object n)
    · exact holds.stack u stands

end Frame

end JvmClass
