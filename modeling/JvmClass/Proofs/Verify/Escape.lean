import JvmClass.Proofs.Verify.Allocation
import JvmClass.Proofs.Verify.Rules

/-! Where unfinished objects may go.  An instruction may move one around on the stack, put it into a
local variable, or finish it by a call of its constructor, and a constructor may write a field of
its own class in its receiver; no other instruction takes one off the stack. -/

namespace JvmClass

open Width (width)

namespace VType

variable {t u : VType}

theorem initialized_of_isAssignable (finished : u.Finished) (fits : t.isAssignable u = true) :
    t.isUninitialized = false := by
  have := finished.usable
  have := finished.initialized
  cases t <;> cases u <;> simp_all [isAssignable, isUninitialized]

theorem initialized_of_fits {k : ValueKind} (fits : t.Fits k) : t.isUninitialized = false := by
  cases k with
  | reference => exact fits.2
  | _ => exact initialized_of_isAssignable (finished_ofKind _) fits

end VType

namespace MethodContext

open JvmClass.Frame

variable {τ : Type} {c : MethodContext} {offset : Nat} {ls : Array VType} {i : Instruction τ}
  {f g : Frame} {d : Trade} {t : VType} {ts : List VType} {k : Nat}

/-- The instruction takes the value at this depth off the stack: if nothing is there but what lies
above, it fails. -/
def Takes (c : MethodContext) (offset : Nat) (i : Instruction τ) (f : Frame) (k : Nat) : Prop :=
  k < f.stack.length ∧ ∀ g, after (c.effect offset i) (f.withStack (f.stack.take k)) ≠ .ok g

def movers : List Opcode :=
  [.pop, .popTwo, .dup, .dupX1, .dupX2, .dupTwo, .dupTwoX1, .dupTwoX2, .swap]

def storers : List String := ["astore", "astore_0", "astore_1", "astore_2", "astore_3"]

/-- What may happen to an unfinished object that an instruction takes off the stack at some depth. -/
inductive Releases (c : MethodContext) : Instruction τ → Nat → VType → Prop where
  | stored {i : Instruction τ} {t : VType} (stores : i.opcode.mnemonic ∈ storers) : Releases c i 0 t
  | moved {op : Opcode} (moves : op ∈ movers) (k : Nat) (t : VType) : Releases c (.plain op) k t
  | constructed {index : UInt16} {m : MemberRef} {type : MethodType} (t : VType)
      (found : c.pool.getMemberRef index = .ok m) (named : m.name = Name.constructorName)
      (parsed : MethodType.parse m.descriptor = .ok type) :
      Releases c (.constant .invokespecial index) type.parameters.length t
  | owned {index : UInt16} {m : MemberRef} (found : c.pool.getMemberRef index = .ok m)
      (own : m.owner = c.thisClass) : Releases c (.constant .putfield index) 1 .uninitializedThis

theorem apply_take (change : Change) (f : Frame) (k : Nat) :
    change.apply (f.withStack (f.stack.take k)) =
      (change.apply f).withStack ((change.apply f).stack.take k) := by
  cases change with
  | none => rfl
  | write slot t => exact ext_stack rfl rfl rfl
  | retype old n =>
    refine ext_stack rfl ?_ rfl
    simp only [Change.apply, stack_retype, stack_withStack, List.map_take]

theorem lt_of_takes (rule : c.Rule offset f.locals i d) (made : d.Made f g)
    (takes : c.Takes offset i f k) : k < d.taken.length := by
  by_contra beyond
  obtain ⟨h, rfl, rfl, room⟩ := made
  obtain ⟨rest, rfl⟩ := Nat.exists_eq_add_of_le (Nat.le_of_not_lt beyond)
  have less : (pile d.taken h).withStack ((pile d.taken h).stack.take (d.taken.length + rest)) =
      pile d.taken (h.withStack (h.stack.take rest)) := by
    simp [pile, List.take_length_add_append]
  refine takes.2 (pile d.pushed (d.change.apply (h.withStack (h.stack.take rest)))) ?_
  rw [less]
  refine effect_eq_ok_iff.mpr ⟨d, rule, _, rfl, rfl, fun some => ?_⟩
  have whole := room some
  have shorter : ((d.change.apply h).withStack ((d.change.apply h).stack.take rest)).height ≤
      (d.change.apply h).height := by
    rw [height_eq, height_eq, stack_withStack]
    have parts := congrArg (total width) (List.take_append_drop rest (d.change.apply h).stack)
    rw [total_append] at parts
    exact Nat.le_of_add_right_le (Nat.le_of_eq parts)
  rw [apply_take]
  simp only [height_pile, maxStack_pile] at whole ⊢
  exact Nat.le_trans (Nat.add_le_add_left shorter _) whole

theorem exists_rule (done : after (c.effect offset i) f = .ok g) :
    ∃ d, c.Rule offset f.locals i d ∧ d.Made f g ∧ ∀ k, c.Takes offset i f k ↔ k < d.taken.length := by
  obtain ⟨R, trades, ruled⟩ : c.Ruled offset i (c.effect offset i) := ruled_effect
  obtain ⟨d, related, made⟩ := (trades.iff f g).mp (after_eq_ok_iff.mp done)
  refine ⟨d, ruled _ d related, made, fun k => ⟨lt_of_takes (ruled _ d related) made, ?_⟩⟩
  intro taken
  have there : d.taken.length ≤ f.stack.length := by
    obtain ⟨h, rfl, _⟩ := made
    simp
  refine ⟨Nat.lt_of_lt_of_le taken there, fun g' done' => ?_⟩
  exact trades.ne_ok_of_lt related made taken g' (after_eq_ok_iff.mp done')

theorem initialized_of_supplies {parameters : List FieldType} (fits : Supplies parameters ts)
    (member : t ∈ ts) : t.isUninitialized = false := by
  obtain ⟨p, _, fit⟩ := exists_right_of_forall₂ fits member
  exact VType.initialized_of_isAssignable (VType.finished_ofFieldType p) fit

theorem finished_int : VType.int.Finished := ⟨VType.noConfusion, rfl⟩

theorem initialized_of_stores {a : ArrayKind} (fits : Stores a t) : t.isUninitialized = false := by
  cases a with
  | reference => exact fits.2
  | _ => exact VType.initialized_of_isAssignable ⟨VType.noConfusion, rfl⟩ fits

theorem mnemonic_of_storesReference {op : Opcode} {named? : Option UInt16}
    (stores : op.localAccess? = some ⟨.reference, true, named?⟩) : op.mnemonic ∈ storers := by
  have all : ∀ op : Opcode, ∀ a ∈ op.localAccess?, a.kind = .reference ∧ a.isStore = true →
      op.mnemonic ∈ storers := by
    decide +kernel
  exact all op _ stores ⟨rfl, rfl⟩

theorem mem_movers {op : Opcode} (moves : Moves op d) : op ∈ movers := by
  obtain ⟨_, form, listed, _⟩ := moves
  unfold forms at listed
  split at listed <;> first | decide | cases listed

theorem eq_of_call? {index : UInt16} (calls : i.call? = some (.invokespecial, index)) :
    i = .constant .invokespecial index := by
  cases i with
  | constant op index' =>
    simp only [Instruction.call?, Option.ite_none_right_eq_some] at calls
    cases calls.2
    rfl
  | interfaceCall => cases calls
  | _ => cases calls

theorem releases_of_access {a : LocalAccess} {slot : UInt16} {ls : Array VType}
    (named : i.opcode.localAccess? = some a) (accesses : Accesses a slot ls d)
    (here : d.taken[k]? = some t) (unfinished : t.isUninitialized = true) : c.Releases i k t := by
  cases accesses with
  | load => cases here
  | store stores holds =>
    obtain ⟨kind, isStore, named?⟩ := a
    obtain rfl := List.mem_singleton.mp (List.mem_of_getElem? here)
    obtain rfl : k = 0 := by simpa using (List.getElem?_eq_some_iff.mp here).1
    cases kind with
    | reference =>
      obtain rfl : isStore = true := stores
      exact .stored (mnemonic_of_storesReference named)
    | _ =>
      have finished := VType.initialized_of_isAssignable (VType.finished_ofKind _) holds
      cases unfinished.symm.trans finished

theorem releases_of_field {op : Opcode} {index : UInt16} {m : MemberRef} {type : FieldType}
    (found : c.pool.getMemberRef index = .ok m)
    (trade : c.FieldTrade m.owner (.ofFieldType type) op d) (here : d.taken[k]? = some t)
    (unfinished : t.isUninitialized = true) : c.Releases (.constant op index : Instruction τ) k t := by
  have value {v : VType} (fits : v.isAssignable (.ofFieldType type) = true) :
      v.isUninitialized = false :=
    VType.initialized_of_isAssignable (VType.finished_ofFieldType type) fits
  cases trade with
  | getstatic => cases here
  | putstatic fits =>
    obtain rfl := List.mem_singleton.mp (List.mem_of_getElem? here)
    cases unfinished.symm.trans (value fits)
  | getfield initialized =>
    obtain rfl := List.mem_singleton.mp (List.mem_of_getElem? here)
    cases unfinished.symm.trans initialized.2
  | putfield fits owns =>
    match k, here with
    | 0, same =>
      cases same
      cases unfinished.symm.trans (value fits)
    | 1, same =>
      cases same
      obtain ⟨rfl, own⟩ | initialized := owns
      · exact .owned found own
      · cases unfinished.symm.trans initialized.2

theorem releases_of_call {op : Opcode} {index : UInt16} {m : MemberRef} {type : MethodType}
    (calls : i.call? = some (op, index)) (found : c.pool.getMemberRef index = .ok m)
    (parsed : MethodType.parse m.descriptor = .ok type) (trade : c.CallTrade op m type d)
    (here : d.taken[k]? = some t) (unfinished : t.isUninitialized = true) : c.Releases i k t := by
  have argument {ts : List VType} (fits : Supplies type.parameters ts) : t ∉ ts := by
    intro member
    cases unfinished.symm.trans (initialized_of_supplies fits member)
  cases trade with
  | @construct ts receiver _ constructor fits =>
    obtain ⟨rfl, named⟩ := constructor
    rw [eq_of_call? calls]
    have length : ts.length = type.parameters.length :=
      (List.Forall₂.length_eq fits).trans List.length_reverse
    obtain inside | beyond := Nat.lt_or_ge k ts.length
    · rw [List.getElem?_append_left inside] at here
      exact absurd (List.mem_of_getElem? here) (argument fits)
    · obtain rfl : k = type.parameters.length := by
        have bound := (List.getElem?_eq_some_iff.mp here).1
        simp only [List.length_append, List.length_singleton] at bound
        omega
      exact .constructed t found named parsed
  | virtual _ _ fits initialized =>
    obtain member | member := List.mem_append.mp (List.mem_of_getElem? here)
    · exact absurd member (argument fits)
    · obtain rfl := List.mem_singleton.mp member
      cases unfinished.symm.trans initialized.2
  | static _ fits => exact absurd (List.mem_of_getElem? here) (argument fits)

theorem releases_of_rule (rule : c.Rule offset ls i d) (here : d.taken[k]? = some t)
    (unfinished : t.isUninitialized = true) : c.Releases i k t := by
  have finished {P : Prop} (initialized : t.isUninitialized = false) : P :=
    absurd unfinished (by rw [initialized]; exact Bool.false_ne_true)
  have member : t ∈ d.taken := List.mem_of_getElem? here
  cases rule with
  | access named _ accesses => exact releases_of_access named accesses here unfinished
  | fixed _ fits =>
    obtain ⟨_, _, fit⟩ := exists_right_of_forall₂ fits member
    exact finished (VType.initialized_of_fits fit)
  | moves moves => exact .moved (mem_movers moves) k t
  | null | voidReturn | increment | loadConstant | new => cases member
  | athrow initialized | arraylength initialized | checkcast _ initialized =>
    obtain rfl := List.mem_singleton.mp member
    exact finished initialized.2
  | loadElement _ counts initialized =>
    obtain rfl | rfl : t = _ ∨ t = _ := by simpa using member
    · exact finished (VType.initialized_of_isAssignable finished_int counts)
    · exact finished initialized.2
  | storeElement _ fits counts initialized =>
    obtain rfl | rfl | rfl : t = _ ∨ t = _ ∨ t = _ := by simpa using member
    · exact finished (initialized_of_stores fits)
    · exact finished (VType.initialized_of_isAssignable finished_int counts)
    · exact finished initialized.2
  | returnValue _ _ _ fits =>
    obtain rfl := List.mem_singleton.mp member
    exact finished (VType.initialized_of_isAssignable (VType.finished_ofFieldType _) fits)
  | anewarray _ counts | newArray counts =>
    obtain rfl := List.mem_singleton.mp member
    exact finished (VType.initialized_of_isAssignable finished_int counts)
  | multiArray _ fits =>
    obtain ⟨_, _, fit⟩ := exists_right_of_forall₂ fits member
    exact finished (VType.initialized_of_fits fit)
  | dynamicCall _ fits => exact finished (initialized_of_supplies fits member)
  | field _ found _ trade => exact releases_of_field found trade here unfinished
  | call calls found parsed trade => exact releases_of_call calls found parsed trade here unfinished

/-- No unfinished object gets away: where an instruction succeeds, every one that it takes off the
stack is stored in a local variable, moved around or dropped, the receiver of its constructor, or
the receiver whose field of the class itself is written. -/
theorem releases_of_takes (done : after (c.effect offset i) f = .ok g)
    (takes : c.Takes offset i f k) (here : f.stack[k]? = some t)
    (unfinished : t.isUninitialized = true) : c.Releases i k t := by
  obtain ⟨d, rule, made, takes_iff⟩ := exists_rule done
  obtain ⟨h, rfl, _⟩ := made
  rw [stack_pile, List.getElem?_append_left ((takes_iff k).mp takes)] at here
  exact releases_of_rule rule here unfinished

end MethodContext

namespace ClassFile

open JvmClass.Frame MethodContext

theorem releases_of_takes_disguised :
    after (disguisedContext.effect 4 (.constant (τ := Handle) .invokespecial 8))
      (disguisedFrame [.uninitialized 0, .uninitialized 0]) = .ok (disguisedFrame [.object "[I"]) ∧
    disguisedContext.Takes 4 (.constant (τ := Handle) .invokespecial 8)
      (disguisedFrame [.uninitialized 0, .uninitialized 0]) 0 ∧
    disguisedContext.Releases (.constant (τ := Handle) .invokespecial 8) 0 (.uninitialized 0) := by
  have done : after (disguisedContext.effect 4 (.constant (τ := Handle) .invokespecial 8))
      (disguisedFrame [.uninitialized 0, .uninitialized 0]) = .ok (disguisedFrame [.object "[I"]) := by
    decide +kernel
  have takes : disguisedContext.Takes 4 (.constant (τ := Handle) .invokespecial 8)
      (disguisedFrame [.uninitialized 0, .uninitialized 0]) 0 := by
    have fails : after (disguisedContext.effect 4 (.constant (τ := Handle) .invokespecial 8))
        (disguisedFrame []) = .error .emptyStack := by
      decide +kernel
    exact ⟨Nat.succ_pos 1, fun g done => by cases fails.symm.trans done⟩
  exact ⟨done, takes, releases_of_takes done takes rfl rfl⟩

end ClassFile

end JvmClass
