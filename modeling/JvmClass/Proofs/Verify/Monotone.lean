import JvmClass.Proofs.Verify.Following

/-! What instructions do goes down from a frame to the frames below it.  Two things can come
between: an array of primitives that the frame above has as an object, and a receiver that has not
been constructed where the frame above has forgotten about it. -/

namespace JvmClass

open JvmClass.Frame
open Width (width)

variable {α : Type} {P : String → Prop} {E : FlowFault → Prop} {size : Nat} {maxStack : UInt16}
  {f g : Frame} {t u : VType}

namespace Frame

theorem follows_pushReturn (r : Option FieldType) :
    Follows P E (pushReturn r) (pushReturn r) Eq := by
  cases r with
  | none => exact follows_pure rfl
  | some t => exact follows_push (.same _)

theorem follows_loadElement (k : ArrayKind) :
    Follows P E (loadElement k) (loadElement k) Eq := by
  refine follows_seq (follows_discard (follows_popExpecting fun n s same => by cases same)) ?_
  refine follows_bind follows_popReference fun t u value => ?_
  cases found : k.load? u with
  | none => exact follows_throw _ _
  | some v =>
    obtain ⟨w, found', element⟩ := value.load? found
    rw [found']
    exact follows_push element

theorem follows_storeElement (k : ArrayKind) :
    Follows P E (storeElement k) (storeElement k) Eq := by
  have others : Follows P E (do
      discard (popExpecting .int)
      let array ← popReference
      if (k.load? array).isNone then throw .notArray) (do
      discard (popExpecting .int)
      let array ← popReference
      if (k.load? array).isNone then throw .notArray) Eq := by
    refine follows_seq (follows_discard (follows_popExpecting fun n s same => by cases same)) ?_
    refine follows_bind follows_popReference fun t u value => ?_
    cases found : k.load? u with
    | none => exact follows_throw _ _
    | some v =>
      obtain ⟨w, found', _⟩ := value.load? found
      rw [found']
      exact follows_pure rfl
  cases k with
  | reference => exact follows_seq (follows_discard follows_popReference) others
  | _ =>
    refine follows_seq (follows_discard (follows_popExpecting fun n s same => ?_)) others
    cases same

theorem follows_dup : Follows P E dup dup Eq := by
  refine follows_bind (follows_popWidth 1) fun a a' first => ?_
  exact follows_pushAll (.cons first (.cons first .nil))

theorem follows_dupX1 : Follows P E dupX1 dupX1 Eq := by
  refine follows_bind (follows_popWidth 1) fun a a' first => ?_
  refine follows_bind (follows_popWidth 1) fun b b' second => ?_
  exact follows_pushAll (.cons first (.cons second (.cons first .nil)))

theorem follows_dupX2 : Follows P E dupX2 dupX2 Eq := by
  refine follows_bind (follows_popWidth 1) fun a a' first => ?_
  refine follows_bind follows_pop fun b b' second => ?_
  rw [second.width_eq]
  refine follows_ite Iff.rfl (fun _ => ?_) fun _ => ?_
  · exact follows_pushAll (.cons first (.cons second (.cons first .nil)))
  · refine follows_bind (follows_popWidth 1) fun c c' third => ?_
    exact follows_pushAll (.cons first (.cons third (.cons second (.cons first .nil))))

theorem follows_popTwo : Follows P E popTwo popTwo Eq := by
  refine follows_bind follows_pop fun a a' first => ?_
  rw [first.width_eq]
  refine follows_ite Iff.rfl (fun _ => ?_) fun _ => follows_pure rfl
  exact follows_discard (follows_popWidth 1)

theorem follows_dupTwo : Follows P E dupTwo dupTwo Eq := by
  refine follows_bind follows_pop fun a a' first => ?_
  rw [first.width_eq]
  refine follows_ite Iff.rfl (fun _ => ?_) fun _ => ?_
  · exact follows_pushAll (.cons first (.cons first .nil))
  · refine follows_bind (follows_popWidth 1) fun b b' second => ?_
    exact follows_pushAll (.cons second (.cons first (.cons second (.cons first .nil))))

theorem follows_dupTwoX1 : Follows P E dupTwoX1 dupTwoX1 Eq := by
  refine follows_bind follows_pop fun a a' first => ?_
  refine follows_bind (follows_popWidth 1) fun b b' second => ?_
  rw [first.width_eq]
  refine follows_ite Iff.rfl (fun _ => ?_) fun _ => ?_
  · exact follows_pushAll (.cons first (.cons second (.cons first .nil)))
  · refine follows_bind (follows_popWidth 1) fun c c' third => ?_
    exact follows_pushAll
      (.cons second (.cons first (.cons third (.cons second (.cons first .nil)))))

theorem follows_dupTwoX2 : Follows P E dupTwoX2 dupTwoX2 Eq := by
  refine follows_bind follows_pop fun a a' first => ?_
  rw [first.width_eq]
  refine follows_ite Iff.rfl (fun _ => ?_) fun _ => ?_
  · refine follows_bind follows_pop fun b b' second => ?_
    rw [second.width_eq]
    refine follows_ite Iff.rfl (fun _ => ?_) fun _ => ?_
    · exact follows_pushAll (.cons first (.cons second (.cons first .nil)))
    · refine follows_bind (follows_popWidth 1) fun c c' third => ?_
      exact follows_pushAll (.cons first (.cons third (.cons second (.cons first .nil))))
  · refine follows_bind (follows_popWidth 1) fun b b' second => ?_
    refine follows_bind follows_pop fun c c' third => ?_
    rw [third.width_eq]
    refine follows_ite Iff.rfl (fun _ => ?_) fun _ => ?_
    · exact follows_pushAll
        (.cons second (.cons first (.cons third (.cons second (.cons first .nil)))))
    · refine follows_bind (follows_popWidth 1) fun d d' fourth => ?_
      exact follows_pushAll
        (.cons second (.cons first (.cons fourth (.cons third (.cons second (.cons first .nil))))))

theorem follows_swap : Follows P E swap swap Eq := by
  refine follows_bind (follows_popWidth 1) fun a a' first => ?_
  refine follows_bind (follows_popWidth 1) fun b b' second => ?_
  exact follows_pushAll (.cons first (.cons second .nil))

theorem follows_access (a : LocalAccess) (slot : UInt16) :
    Follows (fun _ => True) E (access a slot) (access a slot) Eq := by
  have usable : VType.ofKind a.kind ≠ .top := by
    cases a.kind <;> exact VType.noConfusion
  refine follows_ite Iff.rfl (fun _ => ?_) fun _ => ?_
  · cases a.kind with
    | reference =>
      exact follows_bind follows_popAnyReference fun t u value => follows_store slot value
    | _ =>
      refine follows_bind (follows_popExpecting fun n s same => ?_) fun t u value =>
        follows_store slot value
      cases same
  · exact follows_bind (follows_load slot usable) fun t u value => follows_push value

theorem follows_popLosing (expected : VType) :
    Follows P (Lost P) (popExpecting expected) (popExpecting expected) (VType.Under P) :=
  follows_popExpecting fun n s _ misfit kept => ⟨n, s, rfl, misfit, kept⟩

theorem follows_popArguments (ts : List FieldType) :
    Follows P (Lost P) (popArguments ts) (popArguments ts) Eq :=
  follows_forM ts.reverse fun _ _ => follows_discard (follows_popLosing _)

theorem under_retype {old : VType} {n : String} (fresh : old.isUninitialized = true)
    (below : VType.Under P t u) :
    VType.Under P (if t = old then .object n else t) (if u = old then .object n else u) := by
  cases below with
  | same => exact .same _
  | null m =>
    have other : VType.null ≠ old := by
      rintro rfl
      cases fresh
    have other' : VType.object m ≠ old := by
      rintro rfl
      cases fresh
    rw [if_neg other, if_neg other']
    exact .null m
  | rooted m kept =>
    have other : ∀ m, VType.object m ≠ old := by
      rintro m rfl
      cases fresh
    rw [if_neg (other _), if_neg (other _)]
    exact .rooted m kept

theorem covered_retype {old : VType} {n : String} (fresh : old.isUninitialized = true)
    (covered : VType.Covered t u) :
    VType.Covered (if t = old then .object n else t) (if u = old then .object n else u) := by
  cases covered with
  | unusable =>
    have other : VType.top ≠ old := by
      rintro rfl
      cases fresh
    rw [if_neg other]
    exact .unusable _
  | under below => exact .under (under_retype fresh below)

theorem follows_retype {old : VType} {n : String} (fresh : old.isUninitialized = true) :
    Follows P E (modify (retype old (.object n))) (modify (retype old (.object n))) Eq := by
  intro size maxStack f g _ g' below done
  cases done
  refine .inl ⟨(), retype old (.object n) f, rfl, rfl, ?_⟩
  obtain ⟨left, right, slots, values⟩ := below
  refine ⟨⟨?_, left.stack⟩, ⟨?_, right.stack⟩, ?_, ?_⟩
  · exact (Array.size_map ..).trans left.locals
  · exact (Array.size_map ..).trans right.locals
  · intro i t u here there
    simp only [retype, Array.getElem?_map, Option.map_eq_some_iff] at here there
    obtain ⟨t', here, rfl⟩ := here
    obtain ⟨u', there, rfl⟩ := there
    exact covered_retype fresh (slots i t' u' here there)
  · rw [stack_retype, stack_retype, List.forall₂_map_left_iff, List.forall₂_map_right_iff]
    exact values.imp fun _ _ => under_retype fresh

end Frame

namespace MethodContext

theorem follows_found {x : Except PoolFault α} :
    Follows P E (MethodContext.found x) (MethodContext.found x) Eq :=
  follows_liftExcept _

theorem follows_namedClass (name : String) :
    Follows P E (namedClass name) (namedClass name) Eq :=
  follows_liftExcept _

theorem follows_construct (c : MethodContext) (owner : String) :
    Follows P E (c.construct owner) (c.construct owner) Eq := by
  refine follows_bind follows_pop fun t u value => ?_
  cases u with
  | uninitializedThis =>
    obtain rfl := value.eq_of_ne_object fun n => VType.noConfusion
    exact follows_retype rfl
  | uninitialized offset =>
    obtain rfl := value.eq_of_ne_object fun n => VType.noConfusion
    refine follows_bind (follows_namedClass owner) fun made made' same => ?_
    obtain rfl := same
    exact follows_retype rfl
  | _ => exact follows_throw_bind _ _ _

theorem ite_bnot {b : Bool} (x y : α) : (if !b then x else y) = if b then y else x := by
  cases b <;> rfl

theorem follows_eq {low high : Step α} {next : α → Step Unit} (first : Follows P E low high Eq)
    (second : ∀ a, Follows P E (next a) (next a) Eq) :
    Follows P E (low >>= next) (high >>= next) Eq := by
  refine follows_bind first fun a b same => ?_
  obtain rfl := same
  exact second a

theorem follows_classType (c : MethodContext) (i : UInt16) :
    Follows P E (c.classType i) (c.classType i) Eq := by
  refine follows_bind follows_found fun name name' same => ?_
  obtain rfl := same
  refine follows_bind (follows_namedClass name) fun r r' same => ?_
  obtain rfl := same
  exact follows_pure rfl

theorem follows_fieldType (text : String) :
    Follows P E (fieldType text) (fieldType text) Eq := by
  unfold fieldType
  split
  · exact follows_pure rfl
  · exact follows_throw _ _

theorem follows_methodType (text : String) :
    Follows P E (methodType text) (methodType text) Eq := by
  unfold methodType
  split
  · exact follows_pure rfl
  · exact follows_throw _ _

theorem follows_loadedType (c : MethodContext) (k : Constant) :
    Follows P E (c.loadedType k) (c.loadedType k) Eq := by
  unfold loadedType
  split
  case h_9 pair =>
    refine follows_bind follows_found fun names names' same => ?_
    obtain rfl := same
    exact follows_fieldType _
  case h_10 => exact follows_throw _ _
  all_goals exact follows_pure rfl

theorem follows_loadConstant (c : MethodContext) (op : Opcode) (i : UInt16) :
    Follows P E (c.loadConstant op i) (c.loadConstant op i) Eq := by
  refine follows_eq follows_found fun k => ?_
  refine follows_eq (follows_loadedType c k) fun t => ?_
  exact follows_ite Iff.rfl (fun _ => follows_push (.same t)) fun _ => follows_throw _ _

theorem follows_popOwner (c : MethodContext) (owner : String) :
    Follows P E (c.popOwner owner) (c.popOwner owner) Eq := by
  refine follows_bind follows_pop fun t u value => ?_
  have receiver : t = .uninitializedThis ↔ u = .uninitializedThis := by
    constructor
    · rintro rfl
      cases value
      rfl
    · rintro rfl
      exact value.eq_of_ne_object fun n => VType.noConfusion
  rw [value.isReference_eq, value.isUninitialized_eq]
  refine follows_ite (and_congr_left' receiver) (fun _ => follows_pure rfl) fun _ => ?_
  refine follows_ite Iff.rfl (fun _ => follows_throw _ _) fun _ => ?_
  exact follows_ite Iff.rfl (fun _ => follows_throw _ _) fun _ => follows_pure rfl

theorem follows_accessField (c : MethodContext) (op : Opcode) (i : UInt16) :
    Follows P (Lost P) (c.accessField op i) (c.accessField op i) Eq := by
  refine follows_eq follows_found fun m => ?_
  refine follows_eq (follows_fieldType _) fun t => ?_
  split
  · exact follows_push (.same t)
  · exact follows_discard (follows_popLosing t)
  · exact follows_seq (follows_discard follows_popReference) (follows_push (.same t))
  · exact follows_seq (follows_discard (follows_popLosing t)) (follows_popOwner c _)

theorem follows_invoke (c : MethodContext) (op : Opcode) (i : UInt16) :
    Follows P (Lost P) (c.invoke op i) (c.invoke op i) Eq := by
  refine follows_eq follows_found fun m => ?_
  refine follows_eq (follows_methodType _) fun type => ?_
  refine follows_seq (follows_popArguments _) ?_
  have returned := follows_pushReturn (P := P) (E := Lost P) type.returns
  refine follows_ite Iff.rfl (fun _ => ?_) fun _ => ?_
  · exact follows_seq (follows_construct c _) returned
  · refine follows_ite Iff.rfl (fun _ => ?_) fun _ => returned
    exact follows_seq (follows_discard follows_popReference) returned

theorem follows_invokeDynamic (c : MethodContext) (i : UInt16) :
    Follows P (Lost P) (c.invokeDynamic i) (c.invokeDynamic i) Eq := by
  refine follows_eq follows_found fun k => ?_
  split
  · refine follows_eq follows_found fun names => ?_
    refine follows_eq (follows_methodType _) fun type => ?_
    exact follows_seq (follows_popArguments _) (follows_pushReturn _)
  · exact follows_throw _ _

theorem follows_newObjectArray (c : MethodContext) (i : UInt16) :
    Follows P E (c.newObjectArray i) (c.newObjectArray i) Eq := by
  refine follows_seq (follows_discard (follows_popExpecting fun n s same => by cases same)) ?_
  refine follows_eq follows_found fun name => ?_
  refine follows_eq (follows_namedClass name) fun component => ?_
  exact follows_push (.same _)

theorem follows_returnValue (c : MethodContext) (k : ValueKind) :
    Follows P (Lost P) (c.returnValue k) (c.returnValue k) Eq := by
  unfold returnValue
  cases c.type.returns with
  | none => exact follows_throw _ _
  | some t =>
    refine follows_ite Iff.rfl (fun _ => follows_throw _ _) fun _ => ?_
    refine follows_ite Iff.rfl (fun _ => ?_) fun _ => follows_discard (follows_popLosing _)
    refine follows_bind follows_popReference fun found found' value => ?_
    rw [ite_bnot, ite_bnot]
    exact follows_expecting value (fun n s _ misfit kept => ⟨n, s, rfl, misfit, kept⟩)
      (follows_pure rfl)

theorem follows_plain (c : MethodContext) {op : Opcode} (other : op ≠ .voidReturn) :
    Follows P (Lost P) (c.plain op) (c.plain op) Eq := by
  unfold plain
  split
  case h_1 => exact follows_push (.same _)
  case h_2 => exact follows_discard (follows_popWidth 1)
  case h_3 => exact follows_popTwo
  case h_4 => exact follows_dup
  case h_5 => exact follows_dupX1
  case h_6 => exact follows_dupX2
  case h_7 => exact follows_dupTwo
  case h_8 => exact follows_dupTwoX1
  case h_9 => exact follows_dupTwoX2
  case h_10 => exact follows_swap
  case h_11 => exact absurd rfl other
  case h_12 => exact follows_discard follows_popReference
  case h_13 =>
    refine follows_bind follows_popReference fun t u value => ?_
    cases found : u.component? with
    | none => exact follows_throw_bind _ _ _
    | some v =>
      have array : t.component?.isSome = true :=
        value.isSome_component? (Option.isSome_iff_exists.mpr ⟨v, found⟩)
      obtain ⟨w, found'⟩ := Option.isSome_iff_exists.mp array
      rw [found']
      exact follows_push (.same _)
  case h_14 =>
    split
    · exact follows_loadElement _
    · exact follows_storeElement _
    · exact follows_returnValue c _
    · exact follows_throw _ _

theorem follows_constant (c : MethodContext) (offset : Nat) (op : Opcode) (i : UInt16) :
    Follows P (Lost P) (c.constant offset op i) (c.constant offset op i) Eq := by
  unfold constant
  split
  case h_1 | h_2 | h_3 => exact follows_loadConstant c _ i
  case h_4 | h_5 | h_6 | h_7 => exact follows_accessField c _ i
  case h_8 | h_9 | h_10 => exact follows_invoke c _ i
  case h_11 =>
    exact follows_seq (follows_discard (follows_classType c i)) (follows_push (.same _))
  case h_12 => exact follows_newObjectArray c i
  case h_13 =>
    refine follows_seq (follows_discard follows_popReference) ?_
    exact follows_eq (follows_classType c i) fun t => follows_push (.same t)
  case h_14 => exact follows_throw _ _

theorem follows_special {τ : Type} (c : MethodContext) (offset : Nat) {i : Instruction τ}
    (other : i ≠ .plain .voidReturn) :
    Follows P (Lost P) (c.special offset i) (c.special offset i) Eq := by
  unfold special
  split
  case h_1 op => exact follows_plain c fun same => other (congrArg _ same)
  case h_2 slot _ => exact follows_discard (follows_load slot VType.noConfusion)
  case h_3 op index => exact follows_constant c offset op index
  case h_4 method _ => exact follows_invoke c _ method
  case h_5 index => exact follows_invokeDynamic c index
  case h_6 element =>
    refine follows_seq (follows_discard (follows_popExpecting fun n s same => by cases same)) ?_
    exact follows_push (.same _)
  case h_7 index dimensions =>
    refine follows_seq (follows_popKinds _) ?_
    exact follows_eq (follows_classType c index) fun t => follows_push (.same t)
  all_goals exact follows_throw _ _

theorem follows_unfixed {τ : Type} (c : MethodContext) (offset : Nat) {i : Instruction τ}
    (other : i ≠ .plain .voidReturn) (fixed : i.opcode.localAccess? = none) :
    Follows P (Lost P) (c.effect offset i) (c.effect offset i) Eq := by
  unfold effect
  rw [fixed]
  split
  case h_1 | h_2 => contradiction
  case h_3 pops pushes _ _ =>
    have same : List.Forall₂ (VType.Under P) (pushes.map VType.ofKind) (pushes.map VType.ofKind) :=
      List.forall₂_same.mpr fun t _ => .same t
    exact follows_seq (follows_popKinds pops) (follows_pushAll same)
  case h_4 => exact follows_special c offset other

end MethodContext

namespace Frame

def Loses (f g : Frame) (s : String) : Prop :=
  (VType.object s, VType.object Name.object) ∈ f.stack.zip g.stack

theorem Under.loses (below : Under (fun _ => True) size maxStack f g) :
    Under (Loses f g) size maxStack f g := by
  refine { below with stack := ?_ }
  rw [List.forall₂_iff_zip]
  refine ⟨below.stack.length_eq, fun {t u} member => ?_⟩
  cases (List.forall₂_iff_zip.mp below.stack).2 member with
  | same => exact .same _
  | null n => exact .null n
  | rooted n => exact .rooted n fun _ => member

end Frame

namespace MethodContext

variable {τ : Type} {c : MethodContext} {offset : Nat} {i : Instruction τ} {g' : Frame}

theorem after_eq_ok_iff {step : Step Unit} : after step f = .ok g ↔ step f = .ok () g := by
  unfold after
  cases step f <;> simp

theorem after_of_error {step : Step Unit} {e : FlowFault} (failed : step f = .error e g) :
    after step f = .error e := by
  rw [after, failed]

theorem returnVoid_eq_ok_iff : c.returnVoid f = .ok () g ↔
    c.type.returns.isSome = false ∧ (c.isConstructor && f.hasUninitializedThis) = false ∧
      g = f := by
  have check : c.returnVoid f = if c.type.returns.isSome then .error .badReturn f
      else if c.isConstructor && f.hasUninitializedThis then .error .uninitializedObject f
      else .ok () f := by
    unfold returnVoid
    cases c.type.returns.isSome with
    | true => rfl
    | false =>
      change (if c.isConstructor && f.hasUninitializedThis then throw .uninitializedObject
        else pure () : Step Unit) f = _
      cases c.isConstructor && f.hasUninitializedThis <;> rfl
  rw [check]
  cases c.type.returns.isSome <;> cases c.isConstructor && f.hasUninitializedThis <;>
    simp [eq_comm]

theorem effect_voidReturn : c.effect offset (.plain (τ := τ) .voidReturn) = c.returnVoid := by
  have unnamed : Opcode.voidReturn.localAccess? = none := by decide +kernel
  have unfixed : Opcode.voidReturn.fixedEffect? = none := by decide +kernel
  unfold effect
  simp only [Instruction.opcode, unnamed, unfixed]
  rfl

theorem follows_accessing {a : LocalAccess} (found : i.opcode.localAccess? = some a) :
    Follows (fun _ => True) E (c.effect offset i) (c.effect offset i) Eq := by
  unfold effect
  rw [found]
  split
  case h_1 a slot _ _ _ => exact follows_access _ _
  case h_2 => exact follows_throw _ _
  case h_3 | h_4 => contradiction

/-- What an instruction does to a frame it also does to the frames below, with two exceptions. -/
theorem effect_below (below : Under (fun _ => True) size maxStack f g)
    (done : after (c.effect offset i) g = .ok g') :
    (∃ f', after (c.effect offset i) f = .ok f' ∧ Under (fun _ => True) size maxStack f' g') ∨
    (∃ n s, after (c.effect offset i) f = .error (.incompatible (.object n) (.object s)) ∧
      VType.Misfit n s ∧ Loses f g s) ∨
    (i = .plain .voidReturn ∧ c.isConstructor = true ∧ f.hasUninitializedThis = true) := by
  rw [after_eq_ok_iff] at done
  by_cases returning : i = .plain .voidReturn
  · subst returning
    rw [effect_voidReturn] at done ⊢
    obtain ⟨nothing, _, rfl⟩ := returnVoid_eq_ok_iff.mp done
    by_cases early : (c.isConstructor && f.hasUninitializedThis) = true
    · exact .inr (.inr ⟨rfl, Bool.and_eq_true_iff.mp early⟩)
    · have ended := returnVoid_eq_ok_iff.mpr ⟨nothing, Bool.eq_false_iff.mpr early, rfl⟩
      exact .inl ⟨f, after_eq_ok_iff.mpr ended, below⟩
  · cases accessing : i.opcode.localAccess? with
    | some a =>
      obtain ⟨_, f', here, _, below'⟩ | ⟨_, _, _, none⟩ :=
        follows_accessing (E := fun _ => False) accessing below done
      · exact .inl ⟨f', after_eq_ok_iff.mpr here, below'⟩
      · exact none.elim
    | none =>
      obtain ⟨_, f', here, _, below'⟩ | ⟨e, f', failed, n, s, rfl, misfit, lost⟩ :=
        follows_unfixed c offset returning accessing below.loses done
      · exact .inl ⟨f', after_eq_ok_iff.mpr here, below'.mono fun _ _ => True.intro⟩
      · exact .inr (.inl ⟨n, s, after_of_error failed, misfit, lost⟩)

theorem effect_monotone (below : Under (fun _ => True) size maxStack f g)
    (done : after (c.effect offset i) f = .ok f') (done' : after (c.effect offset i) g = .ok g') :
    Under (fun _ => True) size maxStack f' g' := by
  obtain ⟨_, same, below'⟩ | ⟨_, _, failed, _⟩ | ⟨rfl, constructor, early⟩ := effect_below below done'
  · cases done.symm.trans same
    exact below'
  · cases done.symm.trans failed
  · rw [after_eq_ok_iff, effect_voidReturn, returnVoid_eq_ok_iff, constructor, early] at done
    cases done.2.1

theorem withCaught_below (below : Under (fun _ => True) size maxStack f g)
    (caught : g.withCaught t = .ok g') :
    ∃ f', f.withCaught t = .ok f' ∧ Under (fun _ => True) size maxStack f' g' := by
  have cleared : Under (fun _ => True) size maxStack (f.withStack [])
      (g.withStack []) :=
    ⟨⟨below.left.locals, below.left.stack⟩, ⟨below.right.locals, below.right.stack⟩,
      below.locals, .nil⟩
  obtain ⟨_, f', here, _, below'⟩ | ⟨_, _, _, none⟩ :=
    follows_push (E := fun _ => False) (.same t) cleared (after_eq_ok_iff.mp caught)
  · exact ⟨f', after_eq_ok_iff.mpr here, below'⟩
  · exact none.elim

theorem shaped_withCaught (shaped : Shaped size maxStack f) (caught : f.withCaught t = .ok g) :
    Shaped size maxStack g := by
  obtain ⟨f', caught', below⟩ := withCaught_below (.refl shaped) caught
  exact below.right

theorem shaped_effect (shaped : Shaped size maxStack f)
    (done : after (c.effect offset i) f = .ok g) : Shaped size maxStack g :=
  (effect_monotone (.refl shaped) done done).right

theorem follows_storeParameters (ts : List FieldType) (slot : UInt16) :
    Follows P E (storeParameters ts slot) (storeParameters ts slot) Eq := by
  induction ts generalizing slot with
  | nil => exact follows_pure rfl
  | cons t ts ih => exact follows_seq (follows_store slot (.same _)) (ih _)

theorem shaped_entryFrame {maxLocals : UInt16} {isStatic : Bool}
    (found : c.entryFrame maxLocals maxStack isStatic = .ok f) :
    Shaped maxLocals.toNat maxStack f := by
  have start : Shaped maxLocals.toNat maxStack (.empty maxLocals maxStack) :=
    ⟨Array.size_replicate, rfl⟩
  have fill : Follows (fun _ => True) (fun _ => False)
      (if isStatic then storeParameters c.type.parameters 0
        else store 0 c.receiverType >>= fun _ => storeParameters c.type.parameters 1)
      (if isStatic then storeParameters c.type.parameters 0
        else store 0 c.receiverType >>= fun _ => storeParameters c.type.parameters 1) Eq :=
    follows_ite Iff.rfl (fun _ => follows_storeParameters _ _) fun _ =>
      follows_seq (follows_store 0 (.same _)) (follows_storeParameters _ _)
  obtain ⟨_, _, _, _, below⟩ | ⟨_, _, _, none⟩ := fill (.refl start) (after_eq_ok_iff.mp found)
  · exact below.right
  · exact none.elim

end MethodContext

end JvmClass
