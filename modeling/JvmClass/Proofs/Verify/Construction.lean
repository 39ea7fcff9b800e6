import JvmClass.Proofs.Verify.Monotone
import JvmClass.Proofs.Verify.Suited

/-! Calls of constructors.  The call finds the unfinished object below its arguments and finishes
it: all copies of it get the type of an object.  Which type this is depends on the call alone, and
not on the instruction that made the object. -/

namespace JvmClass

namespace Frame

open Width (width)

variable {f g : Frame} {t expected : VType}

theorem popExpecting_eq_ok (done : popExpecting expected f = .ok t g) :
    f = g.withStack (t :: g.stack) := by
  obtain ⟨u, h, popped, done⟩ := run_bind_eq_ok done
  split at done
  · cases done
    exact pop_eq_ok_iff.mp popped
  · cases done

theorem popArguments_eq_ok {ts : List FieldType} (done : popArguments ts f = .ok () g) :
    ∃ arguments, f = g.withStack (arguments ++ g.stack) ∧ arguments.length = ts.length := by
  unfold popArguments at done
  have same : ts.reverse.length = ts.length := List.length_reverse
  rw [← same]
  generalize ts.reverse = ts at done
  induction ts generalizing f with
  | nil =>
    cases done
    exact ⟨[], g.withStack_stack.symm, rfl⟩
  | cons t ts ih =>
    obtain ⟨_, h, first, done⟩ := run_bind_eq_ok done
    obtain ⟨u, _, popped, same⟩ := run_bind_eq_ok first
    cases same
    obtain ⟨arguments, rfl, length⟩ := ih done
    have whole := popExpecting_eq_ok popped
    rw [withStack_withStack, stack_withStack] at whole
    refine ⟨u :: arguments, whole, ?_⟩
    rw [List.length_cons, length, List.length_cons]

end Frame

namespace MethodContext

open JvmClass.Frame

variable {c : MethodContext} {f g : Frame} {i : Instruction Handle} {offset : Nat} {m : MemberRef}
  {type : MethodType}

structure Constructs (c : MethodContext) (i : Instruction Handle) (m : MemberRef)
    (type : MethodType) : Prop where
  reference : ∃ index, i = .constant .invokespecial index ∧ c.pool.getMemberRef index = .ok m
  named : m.name = Name.constructorName
  parsed : MethodType.parse m.descriptor = .ok type

/-- The class of which an unfinished object becomes an object when its constructor is called. -/
inductive Finishes (c : MethodContext) (m : MemberRef) : VType → String → Prop where
  | receiver : Finishes c m .uninitializedThis c.thisClass
  | made (offset : Nat) {r : RefType} (read : RefType.ofClassName m.owner = .ok r) :
      Finishes c m (.uninitialized offset) r.className

/-- A call of a constructor that succeeds: what stands below the arguments, and the frame in which
the result is pushed. -/
structure Call (c : MethodContext) (m : MemberRef) (type : MethodType) (f g : Frame) (t : VType)
    (n : String) : Prop where
  finishes : c.Finishes m t n
  stack : ∃ arguments rest, f.stack = arguments ++ t :: rest ∧
    arguments.length = type.parameters.length ∧
      pushReturn type.returns (retype t (.object n) (f.withStack rest)) = .ok () g

theorem Call.receiver {t : VType} {n : String} (call : c.Call m type f g t n) :
    f.stack[type.parameters.length]? = some t := by
  obtain ⟨arguments, rest, stack, length, _⟩ := call.stack
  rw [stack, ← length]
  simp

theorem construct_eq_ok {owner : String} (done : c.construct owner f = .ok () g) :
    ∃ t rest n, f.stack = t :: rest ∧ g = retype t (.object n) (f.withStack rest) ∧
      ∀ m : MemberRef, m.owner = owner → c.Finishes m t n := by
  obtain ⟨t, h, popped, retyped⟩ := run_bind_eq_ok done
  obtain rfl := pop_eq_ok_iff.mp popped
  simp only [stack_withStack, withStack_withStack]
  cases t with
  | uninitializedThis =>
    cases retyped
    exact ⟨_, h.stack, c.thisClass, rfl, by rw [withStack_stack], fun m _ => .receiver⟩
  | uninitialized o =>
    obtain ⟨r, _, named, retyped⟩ := run_bind_eq_ok retyped
    obtain ⟨read, rfl⟩ := liftExcept_eq_ok_iff.mp named
    cases retyped
    refine ⟨_, h.stack, r.className, rfl, by rw [withStack_stack], fun m same => .made o ?_⟩
    rw [same]
    exact mapError_eq_ok_iff.mp read
  | _ => cases retyped

theorem effect_invokespecial {index : UInt16} :
    c.effect offset (.constant (τ := Handle) .invokespecial index) =
      c.invoke .invokespecial index := by
  have unnamed : Opcode.invokespecial.localAccess? = none := by decide +kernel
  have unfixed : Opcode.invokespecial.fixedEffect? = none := by decide +kernel
  unfold effect
  simp only [Instruction.opcode, unnamed, unfixed]
  rfl

theorem methodType_eq_ok_iff {text : String} :
    methodType text f = .ok type g ↔ MethodType.parse text = .ok type ∧ f = g := by
  unfold methodType
  cases MethodType.parse text with
  | error e => exact iff_of_false nofun fun both => nomatch both.1
  | ok t =>
    constructor
    · intro same
      cases same
      exact ⟨rfl, rfl⟩
    · rintro ⟨same, rfl⟩
      cases same
      rfl

theorem exists_call {index : UInt16} (found : c.pool.getMemberRef index = .ok m)
    (named : m.name = Name.constructorName)
    (done : after (c.effect offset (.constant (τ := Handle) .invokespecial index)) f = .ok g) :
    ∃ type t n, c.Constructs (.constant .invokespecial index) m type ∧ c.Call m type f g t n := by
  rw [after_eq_ok_iff, effect_invokespecial] at done
  obtain ⟨m', _, here, parsing⟩ := run_bind_eq_ok done
  obtain ⟨found', rfl⟩ := liftExcept_eq_ok_iff.mp here
  cases found.symm.trans (mapError_eq_ok_iff.mp found')
  obtain ⟨type, _, parsed, calling⟩ := run_bind_eq_ok parsing
  obtain ⟨read, rfl⟩ := methodType_eq_ok_iff.mp parsed
  obtain ⟨_, h, popped, constructing⟩ := run_bind_eq_ok calling
  obtain ⟨arguments, rfl, length⟩ := popArguments_eq_ok popped
  rw [if_pos ⟨rfl, named⟩] at constructing
  obtain ⟨_, _, constructed, pushed⟩ := run_bind_eq_ok constructing
  obtain ⟨t, rest, n, stack, rfl, finishes⟩ := construct_eq_ok constructed
  refine ⟨type, t, n, ⟨⟨index, rfl, found⟩, named, read⟩, finishes m rfl, arguments, rest, ?_,
    length, ?_⟩
  · rw [stack_withStack, stack]
  · rw [withStack_withStack]
    exact pushed

theorem Constructs.exists_call (constructs : c.Constructs i m type)
    (done : after (c.effect offset i) f = .ok g) : ∃ t n, c.Call m type f g t n := by
  obtain ⟨index, rfl, found⟩ := constructs.reference
  obtain ⟨type', t, n, constructs', call⟩ := MethodContext.exists_call found constructs.named done
  cases constructs.parsed.symm.trans constructs'.parsed
  exact ⟨t, n, call⟩

end MethodContext

end JvmClass
