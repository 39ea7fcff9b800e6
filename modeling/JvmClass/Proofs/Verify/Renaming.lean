import JvmClass.Proofs.Verify.Rules
import Mathlib.Logic.Function.Basic

/-! Unfinished objects under other numbers.  What an instruction does does not depend on the numbers
that unfinished objects have, only on which of them are the same; so it does the same when all of them
get other numbers, and a new object gets the number in the place of the offset. -/

namespace JvmClass

open Width (width)

namespace VType

def renumber (ρ : Nat → Nat) : VType → VType
  | uninitialized o => uninitialized (ρ o)
  | t => t

variable {P : String → Prop} {ρ σ : Nat → Nat} {a b t u expected : VType} {k : ValueKind}

theorem renumber_of_initialized (initialized : t.isUninitialized = false) : t.renumber ρ = t := by
  cases t <;> first | rfl | cases initialized

theorem Initialized.renumber_eq (initialized : t.Initialized) : t.renumber ρ = t :=
  renumber_of_initialized initialized.2

theorem Initialized.renumber (initialized : t.Initialized) : (t.renumber ρ).Initialized := by
  rwa [initialized.renumber_eq]

theorem Finished.renumber_eq (finished : t.Finished) : t.renumber ρ = t :=
  renumber_of_initialized finished.initialized

@[simp] theorem width_renumber (t : VType) : width (t.renumber ρ) = width t := by
  cases t <;> rfl

@[simp] theorem isReference_renumber (t : VType) : (t.renumber ρ).isReference = t.isReference := by
  cases t <;> rfl

theorem renumber_eq_uninitializedThis_iff :
    t.renumber ρ = uninitializedThis ↔ t = uninitializedThis := by
  cases t <;> simp [renumber]

theorem renumber_injective (injective : Function.Injective ρ) :
    Function.Injective (renumber ρ) := by
  intro t u same
  cases t <;> cases u <;> simp_all [renumber, injective.eq_iff]

theorem isAssignable_renumber (finished : expected.isUninitialized = false) :
    (t.renumber ρ).isAssignable expected = t.isAssignable expected := by
  cases t with
  | uninitialized o => cases expected <;> first | rfl | cases finished
  | _ => rfl

theorem isAssignable_renumber_ofFieldType (f : FieldType) :
    (t.renumber ρ).isAssignable (.ofFieldType f) = t.isAssignable (.ofFieldType f) :=
  isAssignable_renumber (finished_ofFieldType f).initialized

theorem Fits.renumber (fits : t.Fits k) : (t.renumber ρ).Fits k := by
  cases k with
  | reference =>
    have initialized : t.Initialized := fits
    exact initialized.renumber
  | _ => exact (isAssignable_renumber (finished_ofKind _).initialized).trans fits

theorem Under.renumber (below : Under P a b) : Under P (a.renumber ρ) (b.renumber ρ) := by
  cases below with
  | same => exact .same _
  | null n => exact .null n
  | rooted n kept => exact .rooted n kept

theorem Covered.renumber (covered : Covered a b) : Covered (a.renumber ρ) (b.renumber ρ) := by
  cases covered with
  | unusable => exact .unusable _
  | under below => exact .under below.renumber

end VType

namespace Frame

variable {P : String → Prop} {size : Nat} {maxStack : UInt16} {ρ σ : Nat → Nat} {f g : Frame}
  {ls : Array VType} {ts : List VType} {t expected : VType} {slot : UInt16} {d : Trade}

def renumber (ρ : Nat → Nat) (f : Frame) : Frame :=
  .ofStack (f.locals.map (VType.renumber ρ)) (f.stack.map (VType.renumber ρ)) f.maxStack

@[simp] theorem stack_renumber (f : Frame) :
    (f.renumber ρ).stack = f.stack.map (VType.renumber ρ) := stack_ofStack ..

def Change.renumber (ρ : Nat → Nat) : Change → Change
  | .none => .none
  | .write slot t => .write slot (t.renumber ρ)
  | .retype old n => .retype (old.renumber ρ) n

def Trade.renumber (ρ : Nat → Nat) (d : Trade) : Trade :=
  ⟨d.taken.map (VType.renumber ρ), d.change.renumber ρ, d.pushed.map (VType.renumber ρ)⟩

theorem height_renumber (f : Frame) : (f.renumber ρ).height = f.height := by
  rw [height_eq, height_eq, stack_renumber]
  induction f.stack with
  | nil => rfl
  | cons t ts ih => rw [List.map_cons, total_cons, total_cons, VType.width_renumber, ih]

theorem renumber_pile (ts : List VType) (f : Frame) :
    (pile ts f).renumber ρ = pile (ts.map (VType.renumber ρ)) (f.renumber ρ) := by
  simp only [pile, Frame.renumber, withStack, stack_ofStack, List.map_append]
  rfl

theorem breakWide_renumber (ls : Array VType) (i : Nat) :
    breakWide (ls.map (VType.renumber ρ)) i = (breakWide ls i).map (VType.renumber ρ) := by
  cases i with
  | zero => rfl
  | succ i =>
    simp only [breakWide, Array.getElem?_map]
    cases ls[i]? with
    | none => rfl
    | some t =>
      simp only [Option.map_some, VType.width_renumber]
      split
      · rw [Array.map_setIfInBounds]
        rfl
      · rfl

theorem written_renumber (ls : Array VType) (i : Nat) (t : VType) :
    written (ls.map (VType.renumber ρ)) i (t.renumber ρ) =
      (written ls i t).map (VType.renumber ρ) := by
  unfold written
  rw [breakWide_renumber, VType.width_renumber]
  dsimp only
  split
  · rw [Array.map_setIfInBounds, Array.map_setIfInBounds]
    rfl
  · rw [Array.map_setIfInBounds]

theorem Change.apply_renumber (injective : Function.Injective ρ) (change : Change) (f : Frame) :
    (change.renumber ρ).apply (f.renumber ρ) = (change.apply f).renumber ρ := by
  cases change with
  | none => rfl
  | write slot t =>
    exact ext_stack (written_renumber f.locals slot t) rfl rfl
  | retype old n =>
    have swapped (t : VType) : (if t.renumber ρ = old.renumber ρ then VType.object n
        else t.renumber ρ) = (if t = old then .object n else t : VType).renumber ρ := by
      by_cases same : t = old
      · simp [same, VType.renumber]
      · rw [if_neg same, if_neg fun same' => same (VType.renumber_injective injective same')]
    refine ext_stack ?_ ?_ rfl
    · simp [Change.renumber, Change.apply, Frame.renumber, Frame.retype, Function.comp_def, swapped]
    · simp [Change.renumber, Change.apply, Function.comp_def, swapped]

theorem Trade.Made.renumber (injective : Function.Injective ρ) (made : d.Made f g) :
    (d.renumber ρ).Made (f.renumber ρ) (g.renumber ρ) := by
  obtain ⟨h, rfl, rfl, room⟩ := made
  refine ⟨h.renumber ρ, renumber_pile .., ?_, fun some => ?_⟩
  · rw [renumber_pile, Trade.renumber, Change.apply_renumber injective]
  · rw [height_renumber]
    exact room fun none => some (by simp [Trade.renumber, none])

theorem Under.renumber (below : Under P size maxStack f g) :
    Under P size maxStack (f.renumber ρ) (g.renumber ρ) := by
  obtain ⟨left, right, locals, stack⟩ := below
  refine ⟨⟨by simpa [Frame.renumber] using left.locals, left.stack⟩,
    ⟨by simpa [Frame.renumber] using right.locals, right.stack⟩, fun i t u here there => ?_, ?_⟩
  · rw [Frame.renumber, locals_ofStack, Array.getElem?_map] at here there
    obtain ⟨t, found, rfl⟩ := Option.map_eq_some_iff.mp here
    obtain ⟨u, found', rfl⟩ := Option.map_eq_some_iff.mp there
    exact (locals i t u found found').renumber
  · rw [stack_renumber, stack_renumber]
    exact List.forall₂_map_left_iff.mpr (List.forall₂_map_right_iff.mpr
      (stack.imp fun t u below => below.renumber))

theorem withCaught_renumber (finished : t.Finished) (done : f.withCaught t = .ok g) :
    (f.renumber ρ).withCaught t = .ok (g.renumber ρ) := by
  obtain ⟨room, rfl⟩ := push_eq_ok_iff.mp (MethodContext.after_eq_ok_iff.mp done)
  refine MethodContext.after_eq_ok_iff.mpr (push_eq_ok_iff.mpr ⟨room, ?_⟩)
  refine ext_stack rfl ?_ rfl
  simp [finished.renumber_eq]

def Mentions (f : Frame) (o : Nat) : Prop :=
  .uninitialized o ∈ f.locals ∨ .uninitialized o ∈ f.stack

/-- Only the numbers of the objects that are there matter. -/
theorem renumber_congr (same : ∀ o, f.Mentions o → ρ o = σ o) : f.renumber ρ = f.renumber σ := by
  have each (t : VType) (there : ∀ o, t = .uninitialized o → f.Mentions o) :
      t.renumber ρ = t.renumber σ := by
    cases t with
    | uninitialized o => exact congrArg VType.uninitialized (same o (there o rfl))
    | _ => rfl
  unfold Frame.renumber
  congr 1
  · refine Array.map_congr_left fun t member => each t ?_
    rintro o rfl
    exact .inl member
  · refine List.map_congr_left fun t member => each t ?_
    rintro o rfl
    exact .inr member

theorem renumber_eq_self (bare : ∀ o, ¬ f.Mentions o) : f.renumber ρ = f := by
  have same : VType.renumber id = id := funext fun t => by cases t <;> rfl
  have alone : f.renumber ρ = f.renumber id :=
    renumber_congr fun o mentions => absurd mentions (bare o)
  rw [alone, Frame.renumber, same, Array.map_id, List.map_id]
  exact f.withStack_stack

theorem Loads.renumber (found : Loads ls slot expected t)
    (finished : expected.isUninitialized = false) :
    Loads (ls.map (VType.renumber ρ)) slot expected (t.renumber ρ) := by
  obtain ⟨inside, here, loads⟩ := found
  refine ⟨by simpa using inside, by simp [here], ?_⟩
  have same : isLoadable (t.renumber ρ) expected = isLoadable t expected := by
    unfold isLoadable
    split
    · exact VType.isReference_renumber t
    · exact VType.isAssignable_renumber finished
  exact same.trans loads

theorem Holds.renumber {k : ValueKind} (holds : Holds k t) : Holds k (t.renumber ρ) := by
  cases k with
  | reference => exact (VType.isReference_renumber t).trans holds
  | _ => exact (VType.isAssignable_renumber (VType.finished_ofKind _).initialized).trans holds

theorem Accesses.renumber {a : LocalAccess} (accesses : Accesses a slot ls d) :
    Accesses a slot (ls.map (VType.renumber ρ)) (d.renumber ρ) := by
  cases accesses with
  | load loads found => exact .load loads (found.renumber (VType.finished_ofKind _).initialized)
  | store stores holds inside => exact .store stores holds.renumber (by simpa using inside)

theorem Moves.renumber {op : Opcode} (moves : Moves op d) : Moves op (d.renumber ρ) := by
  obtain ⟨unchanged, form, listed, widths, pushed⟩ := moves
  refine ⟨by rw [Trade.renumber, unchanged]; rfl, form, listed, ?_, ?_⟩
  · simpa [Trade.renumber, Function.comp_def] using widths
  · rw [Trade.renumber, pushed, List.map_filterMap]
    simp

theorem Supplies.renumber {parameters : List FieldType} (fits : Supplies parameters ts) :
    Supplies parameters (ts.map (VType.renumber ρ)) := by
  refine List.forall₂_map_left_iff.mpr (fits.imp fun t p fits => ?_)
  exact (VType.isAssignable_renumber_ofFieldType p).trans fits

theorem Stores.renumber {k : ArrayKind} (fits : Stores k t) : Stores k (t.renumber ρ) := by
  cases k with
  | reference =>
    have initialized : t.Initialized := fits
    exact initialized.renumber
  | _ => exact (VType.isAssignable_renumber rfl).trans fits

end Frame

namespace MethodContext

open JvmClass.Frame

variable {τ : Type} {c : MethodContext} {offset offset' : Nat} {ls : Array VType} {i : Instruction τ}
  {d : Trade} {f g : Frame} {ρ : Nat → Nat} {t : VType} {op : Opcode} {m : MemberRef}

theorem Owns.renumber {owner : String} (owns : c.Owns owner t) : c.Owns owner (t.renumber ρ) := by
  obtain ⟨rfl, same⟩ | initialized := owns
  · exact .inl ⟨rfl, same⟩
  · exact .inr initialized.renumber

theorem Finishes.renumber {n : String} (finishes : c.Finishes m t n) :
    c.Finishes m (t.renumber ρ) n := by
  cases finishes with
  | receiver => exact .receiver
  | made o read => exact .made (ρ o) read

theorem Loaded.finished {k : Constant} (loaded : c.Loaded k t) : t.Finished := by
  cases loaded with
  | dynamic => exact VType.finished_ofFieldType _
  | _ => exact ⟨VType.noConfusion, rfl⟩

theorem returned_renumber (type : MethodType) :
    (returned type).map (VType.renumber ρ) = returned type := by
  unfold returned
  cases type.returns with
  | none => rfl
  | some t =>
    simp only [Option.map_some, Option.toList_some, List.map_cons, List.map_nil]
    rw [(VType.finished_ofFieldType t).renumber_eq]

theorem FieldTrade.renumber {owner : String} {type : FieldType}
    (trade : c.FieldTrade owner (.ofFieldType type) op d) :
    c.FieldTrade owner (.ofFieldType type) op (d.renumber ρ) := by
  have same : (VType.ofFieldType type).renumber ρ = .ofFieldType type :=
    (VType.finished_ofFieldType type).renumber_eq
  cases trade with
  | getstatic => simpa only [Trade.renumber, List.map_cons, List.map_nil, same] using .getstatic
  | putstatic fits => exact .putstatic ((VType.isAssignable_renumber_ofFieldType type).trans fits)
  | getfield initialized =>
    simpa only [Trade.renumber, Change.renumber, List.map_cons, List.map_nil, same] using
      .getfield initialized.renumber
  | putfield fits owns =>
    exact .putfield ((VType.isAssignable_renumber_ofFieldType type).trans fits) owns.renumber

theorem CallTrade.renumber {type : MethodType} (trade : c.CallTrade op m type d) :
    c.CallTrade op m type (d.renumber ρ) := by
  cases trade with
  | construct constructor fits finishes =>
    simpa only [Trade.renumber, List.map_append, List.map_cons, List.map_nil, returned_renumber] using
      .construct constructor fits.renumber finishes.renumber
  | virtual other dynamic fits initialized =>
    simpa only [Trade.renumber, List.map_append, List.map_cons, List.map_nil, returned_renumber] using
      .virtual other dynamic fits.renumber initialized.renumber
  | static static fits =>
    simpa only [Trade.renumber, returned_renumber] using .static static fits.renumber

theorem Rule.renumber (rule : c.Rule offset ls i d) :
    c.Rule (ρ offset) (ls.map (VType.renumber ρ)) i (d.renumber ρ) := by
  have int {t : VType} (counts : t.isAssignable .int = true) :
      (t.renumber ρ).isAssignable .int = true := (VType.isAssignable_renumber rfl).trans counts
  cases rule with
  | access named found accesses => exact .access named found accesses.renumber
  | @fixed _ pops pushes ts effect fits =>
    have pushed : ((pushes.map VType.ofKind).reverse).map (VType.renumber ρ) =
        (pushes.map .ofKind).reverse := by
      rw [← List.map_reverse, List.map_map]
      exact List.map_congr_left fun k _ => (VType.finished_ofKind k).renumber_eq
    have fits' : List.Forall₂ VType.Fits (ts.map (VType.renumber ρ)) pops.reverse :=
      List.forall₂_map_left_iff.mpr (fits.imp fun _ _ => VType.Fits.renumber)
    simpa only [Trade.renumber, Change.renumber, pushed] using Rule.fixed effect fits'
  | moves moves => exact .moves moves.renumber
  | null => exact .null
  | voidReturn nothing finished =>
    refine .voidReturn nothing ?_
    have same : (ls.map (VType.renumber ρ)).contains .uninitializedThis =
        ls.contains .uninitializedThis := by
      rw [Bool.eq_iff_iff]
      simp [VType.renumber_eq_uninitializedThis_iff]
    rwa [same]
  | athrow initialized => exact .athrow initialized.renumber
  | arraylength initialized components =>
    exact .arraylength initialized.renumber (by rwa [initialized.renumber_eq])
  | loadElement loads counts initialized element =>
    refine .loadElement loads (int counts) initialized.renumber ?_
    rw [initialized.renumber_eq, element, (VType.finished_load? element).renumber_eq]
  | storeElement stores fits counts initialized element =>
    exact .storeElement stores fits.renumber (int counts) initialized.renumber
      (by rwa [initialized.renumber_eq])
  | returnValue kind result suits fits initialized =>
    exact .returnValue kind result suits ((VType.isAssignable_renumber_ofFieldType _).trans fits)
      fun reference => (initialized reference).renumber
  | increment found => exact .increment (found.renumber rfl)
  | loadConstant loads found loaded wide =>
    have same : VType.renumber ρ _ = _ := loaded.finished.renumber_eq
    simpa only [Trade.renumber, Change.renumber, List.map_cons, List.map_nil, same] using
      Rule.loadConstant loads found loaded wide
  | field accesses found parsed trade => exact .field accesses found parsed trade.renumber
  | call calls found parsed trade => exact .call calls found parsed trade.renumber
  | dynamicCall linked fits =>
    simpa only [Trade.renumber, Change.renumber, returned_renumber] using
      Rule.dynamicCall linked fits.renumber
  | new names => exact .new names
  | anewarray names counts => exact .anewarray names (int counts)
  | checkcast names initialized => exact .checkcast names initialized.renumber
  | newArray counts => exact .newArray (int counts)
  | multiArray names fits =>
    exact .multiArray names
      (List.forall₂_map_left_iff.mpr (fits.imp fun _ _ => VType.Fits.renumber))

/-- Only a new instruction depends on where it stands. -/
theorem Rule.elsewhere (rule : c.Rule offset ls i d) (other : ∀ index, i ≠ .constant .new index) :
    c.Rule offset' ls i d := by
  cases rule with
  | access named found accesses => exact .access named found accesses
  | fixed effect fits => exact .fixed effect fits
  | moves moves => exact .moves moves
  | null => exact .null
  | voidReturn nothing finished => exact .voidReturn nothing finished
  | athrow initialized => exact .athrow initialized
  | arraylength initialized components => exact .arraylength initialized components
  | loadElement loads counts initialized element =>
    exact .loadElement loads counts initialized element
  | storeElement stores fits counts initialized element =>
    exact .storeElement stores fits counts initialized element
  | returnValue kind result suits fits initialized =>
    exact .returnValue kind result suits fits initialized
  | increment found => exact .increment found
  | loadConstant loads found loaded wide => exact .loadConstant loads found loaded wide
  | field accesses found parsed trade => exact .field accesses found parsed trade
  | call calls found parsed trade => exact .call calls found parsed trade
  | dynamicCall linked fits => exact .dynamicCall linked fits
  | new names => exact absurd rfl (other _)
  | anewarray names counts => exact .anewarray names counts
  | checkcast names initialized => exact .checkcast names initialized
  | newArray counts => exact .newArray counts
  | multiArray names fits => exact .multiArray names fits

theorem effect_renumber (injective : Function.Injective ρ)
    (done : after (c.effect offset i) f = .ok g) :
    after (c.effect (ρ offset) i) (f.renumber ρ) = .ok (g.renumber ρ) := by
  obtain ⟨d, rule, made⟩ := effect_eq_ok_iff.mp done
  exact effect_eq_ok_iff.mpr ⟨d.renumber ρ, rule.renumber, made.renumber injective⟩

theorem effect_elsewhere (other : ∀ index, i ≠ .constant .new index)
    (done : after (c.effect offset i) f = .ok g) : after (c.effect offset' i) f = .ok g := by
  obtain ⟨d, rule, made⟩ := effect_eq_ok_iff.mp done
  exact effect_eq_ok_iff.mpr ⟨d, rule.elsewhere other, made⟩

end MethodContext

end JvmClass
