import JvmClass.Proofs.Descriptors
import JvmClass.Proofs.Slotted
import JvmClass.Proofs.Verify.Layout
import JvmClass.Proofs.Verify.Allocation

/-! The types in frames.  In a class that keeps its rules and a method whose code keeps those for code,
every object in a frame is of a class or an array that can be read, and every unfinished object has the
offset of a new instruction.  An array that is made of another one has one dimension more, so this rests
on the rule that its class constant has dimensions left.  Together with the layout, this is what all
frames of an analysis are like. -/

namespace JvmClass

open Width (width)

namespace VType

/-- The class of an object can be read, and an unfinished object has an offset from a set. -/
def Legal (S : Nat → Prop) : VType → Prop
  | object n => ∃ r, RefType.ofClassName n = .ok r
  | uninitialized o => S o
  | _ => True

variable {S : Nat → Prop} {a b t : VType}

theorem legal_className {r : RefType} (wellFormed : r.WellFormed) :
    (object r.className).Legal S := ⟨r, RefType.ofClassName_className wellFormed⟩

theorem legal_ofFieldType {f : FieldType} (wellFormed : f.WellFormed) : (ofFieldType f).Legal S := by
  cases f with
  | base b => cases b <;> trivial
  | ref r => exact legal_className wellFormed

theorem legal_root : (object Name.object).Legal S := ⟨.object Name.object, by decide +kernel⟩

theorem legal_ofKind (k : ValueKind) : (ofKind k).Legal S := by
  cases k with
  | reference => exact legal_root
  | _ => trivial

theorem legal_component? (found : a.component? = some t) : t.Legal S := by
  unfold component? at found
  split at found
  · cases found
    trivial
  · split at found
    · rename_i read
      cases found
      exact legal_ofFieldType (RefType.wellFormed_of_ofClassName read).component
    · cases found
  · cases found

theorem legal_load? {k : ArrayKind} (found : k.load? a = some t) : t.Legal S := by
  by_cases reference : k = .reference
  · subst reference
    exact legal_component? (Option.filter_eq_some_iff.mp found).1
  · rw [load?_value reference found]
    cases k with
    | reference => exact legal_root
    | _ => trivial

theorem Legal.merge (legal : a.Legal S) (legal' : b.Legal S) : (a.merge b).Legal S := by
  unfold VType.merge
  split
  · exact legal
  · split
    · exact legal'
    · exact legal
    · exact legal_root
    · trivial

end VType

namespace Frame

variable {S : Nat → Prop} {f g h m : Frame} {t : VType} {d : Trade} {change : Change}

structure Legal (S : Nat → Prop) (f : Frame) : Prop where
  locals : ∀ t ∈ f.locals, t.Legal S
  stack : ∀ t ∈ f.stack, t.Legal S

def Change.Legal (S : Nat → Prop) : Change → Prop
  | .none => True
  | .write _ t => t.Legal S
  | .retype _ n => (VType.object n).Legal S

theorem Change.Legal.apply (changes : change.Legal S) (legal : f.Legal S) :
    (change.apply f).Legal S := by
  have retyped {old : VType} {n : String} (named : (VType.object n).Legal S) {t : VType}
      (legal : t.Legal S) : (if t = old then .object n else t : VType).Legal S := by
    split
    · exact named
    · exact legal
  cases change with
  | none => exact legal
  | write slot t =>
    refine ⟨fun u member => ?_, legal.stack⟩
    obtain member | rfl | rfl := mem_written member
    · exact legal.locals u member
    · exact changes
    · trivial
  | retype old n =>
    refine ⟨fun u member => ?_, fun u member => ?_⟩
    · obtain ⟨t, listed, rfl⟩ := Array.mem_map.mp member
      exact retyped changes (legal.locals t listed)
    · rw [Change.apply, stack_retype] at member
      obtain ⟨t, listed, rfl⟩ := List.mem_map.mp member
      exact retyped changes (legal.stack t listed)

theorem getElem?_slots (f : Frame) (k : Nat) : f.slots.entries[k]? =
    f.stack.reverse[k]?.map fun t => (total width (f.stack.reverse.take k), t) := by
  have laid : f.slots = .ofList 0 f.stack.reverse := by
    rw [stack, List.reverse_reverse]
    exact f.isStack
  rw [laid, Slotted.getElem?_ofList]
  simp only [Slotted.slotOf, Nat.zero_add]

theorem next_slots (f : Frame) : f.slots.first = 0 ∧ f.slots.next = total width f.stack := by
  have first : f.slots.first = 0 := by
    rw [f.isStack]
    exact Slotted.first_putAll (.startingAt 0) _
  have used : f.slots.next - f.slots.first = total width f.stack := f.height_eq
  rw [first] at used
  exact ⟨first, used⟩

theorem legal_merge (legal : f.Legal S) (legal' : g.Legal S) (merged : f.merge g = .ok m) :
    m.Legal S := by
  obtain ⟨locals, stack⟩ := mem_merge merged
  refine ⟨fun t member => ?_, fun t member => ?_⟩
  · obtain ⟨a, left, b, right, rfl⟩ := locals t member
    exact (legal.locals a left).merge (legal'.locals b right)
  · obtain ⟨a, left, b, right, rfl⟩ := stack t member
    exact (legal.stack a left).merge (legal'.stack b right)

theorem legal_withCaught (legal : f.Legal S) (value : t.Legal S) (done : f.withCaught t = .ok g) :
    g.Legal S := by
  obtain ⟨_, rfl⟩ := push_eq_ok_iff.mp (MethodContext.after_eq_ok_iff.mp done)
  exact ⟨legal.locals, by simpa using value⟩

end Frame

namespace MethodContext

open JvmClass.Frame

variable {τ : Type} {c : MethodContext} {offset : Nat} {ls : Array VType} {i : Instruction τ}
  {d : Trade} {f g : Frame} {S : Nat → Prop} {k : Constant} {t : VType} {r : RefType}

theorem Names.wellFormed {index : UInt16} (names : c.Names index r) : r.WellFormed := by
  obtain ⟨_, _, read⟩ := names
  exact RefType.wellFormed_of_ofClassName read

theorem Loaded.legal (loaded : c.Loaded k t) : t.Legal S := by
  cases loaded with
  | dynamic _ parsed => exact VType.legal_ofFieldType (FieldType.wellFormed_of_parse parsed)
  | string => exact ⟨.object Name.stringObject, by decide +kernel⟩
  | classInfo => exact ⟨.object Name.classObject, by decide +kernel⟩
  | methodHandle => exact ⟨.object Name.methodHandle, by decide +kernel⟩
  | methodType => exact ⟨.object Name.methodType, by decide +kernel⟩
  | _ => trivial

theorem legal_returned {type : MethodType} (wellFormed : type.WellFormed) :
    ∀ t ∈ returned type, t.Legal S := by
  intro t member
  unfold returned at member
  cases result : type.returns with
  | none => simp [result] at member
  | some u =>
    simp only [result, Option.map_some, Option.toList_some, List.mem_singleton] at member
    subst member
    exact VType.legal_ofFieldType (wellFormed.returns u result)

/-- What an instruction needs for its types to be legal: the class of the method can be read, an array
to be made has dimensions left, and the offset of a new instruction is in the set. -/
structure Yields (c : MethodContext) (offset : Nat) (S : Nat → Prop) (i : Instruction τ) : Prop where
  thisClass : ∃ r, RefType.ofClassName c.thisClass = .ok r
  bounded : ∀ index r, i = .constant .anewarray index → c.Names index r →
    r.dimensions < maxDimensions
  made : ∀ index, i = .constant .new index → S offset

theorem Finishes.legal {m : MemberRef} {n : String} (finishes : c.Finishes m t n)
    (thisClass : ∃ r, RefType.ofClassName c.thisClass = .ok r) : (VType.object n).Legal S := by
  cases finishes with
  | receiver => exact thisClass
  | made _ read => exact VType.legal_className (RefType.wellFormed_of_ofClassName read)

theorem Rule.legal (rule : c.Rule offset ls i d) (yields : c.Yields offset S i)
    (locals : ∀ t ∈ ls, t.Legal S) (taken : ∀ t ∈ d.taken, t.Legal S) :
    d.change.Legal S ∧ ∀ t ∈ d.pushed, t.Legal S := by
  have nothing : ∀ t ∈ ([] : List VType), t.Legal S := by simp
  have single {t : VType} (legal : t.Legal S) : ∀ u ∈ [t], u.Legal S := by simpa using legal
  cases rule with
  | access _ _ accesses =>
    cases accesses with
    | load _ found => exact ⟨trivial, single (locals _ (Array.mem_of_getElem? found.2.1))⟩
    | store => exact ⟨taken _ List.mem_cons_self, nothing⟩
  | fixed =>
    refine ⟨trivial, fun t member => ?_⟩
    obtain ⟨k, _, rfl⟩ := List.mem_map.mp (List.mem_reverse.mp member)
    exact VType.legal_ofKind k
  | moves moves =>
    obtain ⟨unchanged, form, _, _, pushed⟩ := moves
    rw [unchanged, pushed]
    refine ⟨trivial, fun t member => ?_⟩
    obtain ⟨_, _, found⟩ := List.mem_filterMap.mp member
    exact taken t (List.mem_of_getElem? found)
  | loadElement _ _ _ element => exact ⟨trivial, single (VType.legal_load? element)⟩
  | loadConstant _ _ loaded => exact ⟨trivial, single loaded.legal⟩
  | field _ _ parsed trade =>
    have legal := VType.legal_ofFieldType (S := S) (FieldType.wellFormed_of_parse parsed)
    cases trade with
    | getstatic | getfield => exact ⟨trivial, single legal⟩
    | putstatic | putfield => exact ⟨trivial, nothing⟩
  | call _ _ parsed trade =>
    have results := legal_returned (S := S) (MethodType.wellFormed_of_parse parsed)
    cases trade with
    | construct _ _ finishes =>
      have finished : (VType.object _).Legal S := finishes.legal yields.thisClass
      exact ⟨finished, results⟩
    | virtual | static => exact ⟨trivial, results⟩
  | dynamicCall linked =>
    obtain ⟨_, _, _, _, _, _, parsed⟩ := linked
    exact ⟨trivial, legal_returned (MethodType.wellFormed_of_parse parsed)⟩
  | new => exact ⟨trivial, single (yields.made _ rfl)⟩
  | anewarray names =>
    have array := names.wellFormed.arrayOf (yields.bounded _ _ rfl names)
    exact ⟨trivial, single (VType.legal_className array)⟩
  | checkcast names | multiArray names =>
    exact ⟨trivial, single (VType.legal_className names.wellFormed)⟩
  | @newArray element =>
    have array : (RefType.array 1 (.base element)).WellFormed := ⟨Nat.le_refl 1, by decide, trivial⟩
    have legal : (VType.object (RefType.array 1 (.base element)).className).Legal S :=
      VType.legal_className array
    exact ⟨trivial, single legal⟩
  | null | arraylength => exact ⟨trivial, single trivial⟩
  | _ => exact ⟨trivial, nothing⟩

theorem legal_effect (legal : f.Legal S) (yields : c.Yields offset S i)
    (done : after (c.effect offset i) f = .ok g) : g.Legal S := by
  obtain ⟨d, rule, made⟩ := effect_eq_ok_iff.mp done
  obtain ⟨h, rfl, rfl, _⟩ := made
  have values := legal.stack
  rw [stack_pile] at values
  obtain ⟨taken, left⟩ := List.forall_mem_append.mp values
  obtain ⟨changes, pushed⟩ := rule.legal yields legal.locals taken
  have between : (d.change.apply h).Legal S := changes.apply ⟨legal.locals, left⟩
  refine ⟨between.locals, ?_⟩
  rw [stack_pile]
  exact List.forall_mem_append.mpr ⟨pushed, between.stack⟩

theorem legal_entryFrame {maxLocals maxStack : UInt16} {isStatic : Bool}
    (found : c.entryFrame maxLocals maxStack isStatic = .ok f) (parameters : c.type.WellFormed)
    (thisClass : ∃ r, RefType.ofClassName c.thisClass = .ok r) : f.Legal S := by
  refine entryFrame_induct (J := Frame.Legal S) (V := VType.Legal S) found ⟨?_, ?_⟩ ?_ ?_ ?_
  · intro t member
    obtain ⟨_, rfl⟩ := Array.mem_replicate.mp member
    trivial
  · exact fun _ member => absurd member List.not_mem_nil
  · rintro f g slot t legal value done
    obtain ⟨_, ⟨rfl, _⟩, made⟩ := ((trades_store slot t).iff f g).mp done
    obtain ⟨rfl, _⟩ := made_nil.mp made
    have changes : Change.Legal S (.write slot.toNat t) := value
    rw [pile_nil]
    exact changes.apply legal
  · unfold receiverType
    split
    · trivial
    · exact thisClass
  · exact fun t member => VType.legal_ofFieldType (parameters.parameters t member)

theorem Suits.yields {size : Nat} (suits : c.Suits size i)
    (thisClass : ∃ r, RefType.ofClassName c.thisClass = .ok r)
    (made : ∀ index, i = .constant .new index → S offset) : c.Yields offset S i where
  thisClass := thisClass
  made := made
  bounded index r same names := by
    subst same
    obtain ⟨k, pool, _, rule⟩ := suits.operands
    obtain ⟨r', operand, rule⟩ := bind_eq_ok (x := k.classOperand index) rule
    obtain ⟨name, named, read⟩ := CodeContext.exists_of_classOperand operand
    obtain ⟨name', named', read'⟩ := names
    rw [pool] at named
    cases named.symm.trans named'
    cases read.symm.trans read'
    cases r with
    | object n => exact Nat.zero_lt_succ 254
    | array d e =>
      dsimp only at rule
      split at rule
      · cases rule
      · exact Nat.lt_of_not_ge ‹_›

end MethodContext

namespace Program

def NewAt (p : Program) (k o : Nat) : Prop :=
  ∃ index : UInt16, p.code[k]? = some (o, .constant .new index)

def MakesAt (p : Program) (o : Nat) : Prop := ∃ k, p.NewAt k o

end Program

/-- What every frame is like that is found for a program. -/
structure Frame.WellTyped (p : Program) (maxLocals maxStack : UInt16) (f : Frame) : Prop where
  size : f.locals.size = maxLocals.toNat
  behind : ∀ (i : Nat) t, f.locals[i]? = some t → width t = 2 →
    i + 1 < maxLocals.toNat ∧ f.locals[i + 1]? = some .top
  /-- From the bottom of the stack on, each value starts behind those below it. -/
  slots : ∀ k : Nat, f.slots.entries[k]? =
    f.stack.reverse[k]?.map fun t => (total width (f.stack.reverse.take k), t)
  next : f.slots.first = 0 ∧ f.slots.next = total width f.stack
  fits : total width f.stack ≤ maxStack.toNat
  usable : .top ∉ f.stack
  named : ∀ n, .object n ∈ f.locals ∨ .object n ∈ f.stack → ∃ r, RefType.ofClassName n = .ok r
  made : ∀ o, .uninitialized o ∈ f.locals ∨ .uninitialized o ∈ f.stack → p.MakesAt o

namespace Flow

open MethodContext

variable {c : MethodContext} {p : Program} {maxLocals maxStack : UInt16} {f g : Frame} {offset q : Nat}
  {i : Instruction Handle}

theorem yields_of_suited {size : Nat} (suited : Suited c size p)
    (thisClass : ∃ r, RefType.ofClassName c.thisClass = .ok r)
    (here : p.code[q]? = some (offset, i)) : c.Yields offset p.MakesAt i :=
  (suited q offset i here).yields thisClass fun index same => ⟨q, index, same ▸ here⟩

theorem keeps_legal {size : Nat} (suited : Suited c size p)
    (thisClass : ∃ r, RefType.ofClassName c.thisClass = .ok r)
    (values : ∀ h ∈ p.handlers, h.caught.Legal p.MakesAt) :
    Keeps c p fun _ => Frame.Legal p.MakesAt where
  merged _ _ _ _ legal legal' merged := Frame.legal_merge legal legal' merged
  caught _ _ _ _ _ h _ legal listed _ _ done := Frame.legal_withCaught legal (values h listed) done
  next _ _ _ _ _ _ here legal done _ :=
    legal_effect legal (yields_of_suited suited thisClass here) done

def Typed (p : Program) (maxLocals maxStack : UInt16) (f : Frame) : Prop :=
  f.Laid maxLocals.toNat maxStack ∧ f.Usable maxLocals.toNat ∧ f.Legal p.MakesAt

theorem Typed.wellTyped (typed : Typed p maxLocals maxStack f) :
    f.WellTyped p maxLocals maxStack := by
  obtain ⟨laid, usable, legal⟩ := typed
  refine ⟨laid.shaped.locals, fun i t here wide => ?_, f.getElem?_slots, f.next_slots, ?_,
    fun member => ?_, fun n member => ?_, fun o member => ?_⟩
  · have behind := laid.paired i t here wide
    refine ⟨?_, behind⟩
    rw [← laid.shaped.locals]
    exact (Array.getElem?_eq_some_iff.mp behind).1
  · rw [← f.height_eq]
    exact laid.fits
  · exact usable.stack _ member rfl
  · exact member.elim (legal.locals _) (legal.stack _)
  · exact member.elim (legal.locals _) (legal.stack _)

theorem Typed.effect {size : Nat} (suited : Suited c size p)
    (thisClass : ∃ r, RefType.ofClassName c.thisClass = .ok r)
    (here : p.code[q]? = some (offset, i)) (typed : Typed p maxLocals maxStack f)
    (done : Frame.after (c.effect offset i) f = .ok g) : Typed p maxLocals maxStack g :=
  ⟨laid_effect typed.1 done,
    (guarded_effect (c.admits_usable maxLocals.toNat offset i)).holds typed.2.1 (after_eq_ok_iff.mp done),
    legal_effect typed.2.2 (yields_of_suited suited thisClass here) done⟩

end Flow

namespace ClassFile

variable {c : ClassFile} {position : Nat} {label : String} {s : FlowSubject} {p : Program}
  {entry : Frame} {log : List Flow.Event} {stage : Flow.Stage} {flow : Flow}

theorem legal_of_programOf {S : Nat → Prop} (found : programOf label s = .ok p) :
    ∀ h ∈ p.handlers, h.caught.Legal S :=
  holds_caught found ⟨.object Name.throwable, by decide +kernel⟩ fun _ _ read =>
    VType.legal_className (RefType.wellFormed_of_ofClassName read)

/-- Every frame that is recorded in the analysis of a method, and every frame before and after an
instruction that is executed, is well typed, at any moment, if the class and the method keep the
earlier rules. -/
theorem wellTyped_of_moment (rules : c.checkRules = .ok ())
    (code : c.checkCode position = .ok (.ok ())) (starts : c.Starts position s p entry)
    (moment : Flow.Moment s.context p entry log stage flow) :
    (∀ q F, flow.frame? q = some F → F.WellTyped p s.code.maxLocals s.code.maxStack) ∧
    (∀ q F, .recorded q F ∈ log → F.WellTyped p s.code.maxLocals s.code.maxStack) ∧
    ∀ q f g, .executed q f g ∈ log → f.WellTyped p s.code.maxLocals s.code.maxStack ∧
      g.WellTyped p s.code.maxLocals s.code.maxStack := by
  obtain ⟨subject, program, entered⟩ := starts
  have suited := suited_of_passes rules code subject program
  obtain ⟨m, _, _, _, is⟩ := flowSubject?_eq_some_iff.mp subject
  have thisClass : ∃ r, RefType.ofClassName s.context.thisClass = .ok r :=
    ofClassName_of_getClassName (resolves_of_checkRules rules).pool is.thisClass
  have start : Flow.Typed p s.code.maxLocals s.code.maxStack entry :=
    ⟨MethodContext.laid_entryFrame entered, MethodContext.usable_entryFrame entered,
      MethodContext.legal_entryFrame entered (MethodType.wellFormed_of_parse is.parsed) thisClass⟩
  have keeps : Flow.Keeps s.context p fun _ => Flow.Typed p s.code.maxLocals s.code.maxStack :=
    Flow.keeps_laid.and ((Flow.keeps_usable (finished_of_programOf program)).and
      (Flow.keeps_legal suited thisClass (legal_of_programOf program)))
  obtain ⟨has, _, events⟩ := moment.throughout keeps start
  refine ⟨fun q F found => (has q F found).wellTyped,
    fun q F member => (events _ member).wellTyped, fun q f g member => ?_⟩
  obtain ⟨offset, i, here, before, done⟩ := events _ member
  exact ⟨before.wellTyped, (before.effect suited thisClass here done).wellTyped⟩

/-- An analysis with a long variable and an unfinished one, when it has come to its end. -/
theorem wellTyped_of_moment_minting : minting.checkRules = .ok () ∧
    minting.checkCode 0 = .ok (.ok ()) ∧ ∃ s p entry log stage flow,
      minting.Starts 0 s p entry ∧ Flow.Moment s.context p entry log stage flow ∧
      (∀ q F, flow.frame? q = some F → F.WellTyped p s.code.maxLocals s.code.maxStack) ∧
      (∀ q F, .recorded q F ∈ log → F.WellTyped p s.code.maxLocals s.code.maxStack) ∧
      ∀ q f g, .executed q f g ∈ log → f.WellTyped p s.code.maxLocals s.code.maxStack ∧
        g.WellTyped p s.code.maxLocals s.code.maxStack := by
  obtain ⟨s, _, _, replayed⟩ := replays_minting.replayed
  obtain ⟨p, entry, starts⟩ := exists_starts replayed.flows.subject replayed.accepted
  obtain ⟨log, stage, flow, moment, _⟩ := Flow.exists_end s.context p entry
  exact ⟨replays_minting.checkRules, replays_minting.checkCode, s, p, entry, log, stage, flow, starts,
    moment, wellTyped_of_moment replays_minting.checkRules replays_minting.checkCode starts moment⟩

end ClassFile

end JvmClass
