import JvmClass.Proofs.Verify.Moments
import JvmClass.Proofs.Verify.Rules

/-! How frames are laid out.  A wide local variable has the next one for its second half, and the
values on the stack stand one behind the other in as many slots as there are.  Whatever becomes of a
frame, its layout stays like that: a variable that loses its second half is given up, what puts values
on the stack looks for room first, and no other value takes the place of a wide one. -/

namespace JvmClass

open Width (width)

namespace Frame

variable {size i : Nat} {maxStack : UInt16} {ls us : Array VType} {f g h m : Frame} {t : VType}
  {change : Change} {d : Trade}

/-- Behind every wide value there is a local variable for its second half. -/
def Paired (ls : Array VType) : Prop :=
  ∀ (i : Nat) t, ls[i]? = some t → width t = 2 → ls[i + 1]? = some .top

theorem getElem?_breakWide (ls : Array VType) (i j : Nat) : (breakWide ls i)[j]? =
    if i = j + 1 then ls[j]?.map fun t => if width t = 2 then .top else t else ls[j]? := by
  cases i with
  | zero => simp [breakWide]
  | succ i =>
    unfold breakWide
    cases found : ls[i]? with
    | none => grind
    | some t => grind

theorem getElem?_written (inside : i + width t ≤ ls.size) (j : Nat) : (written ls i t)[j]? =
    if j = i then some t else if width t = 2 ∧ j = i + 1 then some .top
    else (breakWide ls i)[j]? := by
  have some := t.width_pos
  have size := size_breakWide ls i
  unfold written
  by_cases wide : width t = 2
  · simp only [wide, if_true]
    grind
  · simp only [wide, if_false]
    grind

theorem Paired.written (paired : Paired ls) (inside : i + width t ≤ ls.size) :
    Paired (written ls i t) := by
  intro j u here wide
  have behind := paired j
  have half : width VType.top ≠ 2 := by decide
  simp only [getElem?_written inside, getElem?_breakWide] at here ⊢
  grind

theorem Paired.zipWith (paired : Paired ls) (paired' : Paired us) :
    Paired (Array.zipWith VType.merge ls us) := by
  intro i t here wide
  rw [Array.getElem?_zipWith] at here
  cases left : ls[i]? with
  | none => simp [left] at here
  | some u =>
    cases right : us[i]? with
    | none => simp [left, right] at here
    | some v =>
      simp only [left, right, Option.some.injEq] at here
      -- What merges into a wide type is that type on both sides.
      have wide' : width u = 2 ∧ width v = 2 := by
        have first : VType.Covered u t := here ▸ VType.covered_merge_left u v
        have second : VType.Covered v t := here ▸ VType.covered_merge_right u v
        rw [first.eq_of_wide wide, second.eq_of_wide wide]
        exact ⟨wide, wide⟩
      rw [Array.getElem?_zipWith, paired i u left wide'.1, paired' i v right wide'.2]
      rfl

theorem Paired.retype (paired : Paired ls) {old : VType} (n : String)
    (unfinished : old.isUninitialized = true) :
    Paired (ls.map fun t => if t = old then .object n else t) := by
  intro i t here wide
  rw [Array.getElem?_map] at here ⊢
  obtain ⟨u, there, rfl⟩ := Option.map_eq_some_iff.mp here
  by_cases same : u = old
  · rw [if_pos same] at wide
    cases wide
  · rw [if_neg same] at wide
    rw [paired i u there wide, Option.map_some, if_neg]
    rintro rfl
    cases unfinished

def Change.Sound (ls : Array VType) : Change → Prop
  | .none => True
  | .write slot t => slot + width t ≤ ls.size
  | .retype old _ => old.isUninitialized = true

theorem Change.Sound.paired (sound : change.Sound f.locals) (paired : Paired f.locals) :
    Paired (change.apply f).locals := by
  cases change with
  | none => exact paired
  | write slot t => exact paired.written sound
  | retype old n => exact paired.retype n sound

theorem total_width_retype {old : VType} (n : String) (unfinished : old.isUninitialized = true)
    (ts : List VType) :
    total width (ts.map fun t => if t = old then .object n else t) = total width ts := by
  have narrow (t : VType) : width (if t = old then .object n else t) = width t := by
    split
    · rename_i same
      subst same
      cases t <;> first | rfl | cases unfinished
    · rfl
  induction ts with
  | nil => rfl
  | cons t ts ih => rw [List.map_cons, total_cons, total_cons, narrow, ih]

theorem Change.Sound.height_eq (sound : change.Sound f.locals) :
    (change.apply f).height = f.height := by
  cases change with
  | none | write slot t => rfl
  | retype old n =>
    rw [f.height_eq, Frame.height_eq, Change.apply, stack_retype]
    exact total_width_retype n sound f.stack

@[simp] theorem Change.maxStack_apply (change : Change) (f : Frame) :
    (change.apply f).maxStack = f.maxStack := by
  cases change <;> rfl

theorem Trade.Made.paired (made : d.Made f g) (sound : d.change.Sound f.locals)
    (paired : Paired f.locals) : Paired g.locals := by
  obtain ⟨h, rfl, rfl, _⟩ := made
  exact sound.paired (f := h) paired

theorem Trade.Made.height_le (made : d.Made f g) (sound : d.change.Sound f.locals)
    (fits : f.height ≤ f.maxStack.toNat) : g.height ≤ g.maxStack.toNat := by
  obtain ⟨taken, change, pushed⟩ := d
  obtain ⟨h, rfl, rfl, room⟩ := made
  have same : (change.apply h).height = h.height := Change.Sound.height_eq (f := h) sound
  cases pushed with
  | nil =>
    rw [height_pile, maxStack_pile] at fits
    rw [pile_nil, same, Change.maxStack_apply]
    exact Nat.le_trans (Nat.le_add_left ..) fits
  | cons t ts => exact room (List.cons_ne_nil t ts)

/-- A frame with a certain number of local variables and slots of the stack, all in their places. -/
structure Laid (size : Nat) (maxStack : UInt16) (f : Frame) : Prop where
  shaped : f.Shaped size maxStack
  paired : Paired f.locals
  fits : f.height ≤ maxStack.toNat

theorem laid_merge (laid : f.Laid size maxStack) (laid' : g.Laid size maxStack)
    (merged : f.merge g = .ok m) : m.Laid size maxStack := by
  have below := (under_merge laid.shaped laid'.shaped merged).1
  refine ⟨below.right, ?_, below.height_eq ▸ laid.fits⟩
  obtain rfl := merge_eq merged
  exact laid.paired.zipWith laid'.paired

theorem laid_withCaught (laid : f.Laid size maxStack) (done : f.withCaught t = .ok g) :
    g.Laid size maxStack := by
  have shaped := MethodContext.shaped_withCaught laid.shaped done
  obtain ⟨room, rfl⟩ := push_eq_ok_iff.mp (MethodContext.after_eq_ok_iff.mp done)
  refine ⟨shaped, laid.paired, ?_⟩
  have alone : (f.withStack []).height = 0 := by rw [height_eq, stack_withStack, total_nil]
  rw [alone, maxStack_withStack, laid.shaped.stack] at room
  simpa [height_eq] using room

end Frame

namespace MethodContext

open JvmClass.Frame

variable {τ : Type} {c : MethodContext} {offset size : Nat} {ls : Array VType} {i : Instruction τ}
  {d : Trade} {f g : Frame} {maxLocals maxStack : UInt16} {isStatic : Bool}

theorem Rule.sound (rule : c.Rule offset ls i d) : d.change.Sound ls := by
  cases rule with
  | access _ _ accesses =>
    cases accesses with
    | load => trivial
    | store _ _ inside => exact inside
  | moves moves =>
    rw [moves.1]
    trivial
  | field _ _ _ trade => cases trade <;> trivial
  | call _ _ _ trade =>
    cases trade with
    | construct _ _ finishes => cases finishes <;> rfl
    | virtual | static => trivial
  | _ => trivial

theorem laid_effect {i : Instruction Handle} (laid : f.Laid size maxStack)
    (done : after (c.effect offset i) f = .ok g) : g.Laid size maxStack := by
  obtain ⟨d, rule, made⟩ := effect_eq_ok_iff.mp done
  have shaped := shaped_effect laid.shaped done
  refine ⟨shaped, made.paired rule.sound laid.paired, ?_⟩
  rw [← shaped.stack]
  exact made.height_le rule.sound (laid.shaped.stack ▸ laid.fits)

/-- What stores keep is kept until a method starts. -/
theorem entryFrame_induct {J : Frame → Prop} {V : VType → Prop}
    (found : c.entryFrame maxLocals maxStack isStatic = .ok f) (start : J (.empty maxLocals maxStack))
    (stores : ∀ {f g : Frame} {slot t}, J f → V t → store slot t f = .ok () g → J g)
    (receiver : V c.receiverType) (parameters : ∀ t ∈ c.type.parameters, V (.ofFieldType t)) :
    J f := by
  have parameter {ts : List FieldType} (values : ∀ t ∈ ts, V (.ofFieldType t)) (slot : UInt16)
      {f g : Frame} (holds : J f) (done : storeParameters ts slot f = .ok () g) : J g := by
    induction ts generalizing slot f with
    | nil =>
      cases done
      exact holds
    | cons t ts ih =>
      obtain ⟨h, first, others⟩ := then_eq_ok_iff.mp done
      obtain ⟨value, values⟩ := List.forall_mem_cons.mp values
      exact ih values _ (stores holds value first) others
  have done := after_eq_ok_iff.mp found
  split at done
  · exact parameter parameters 0 start done
  · obtain ⟨h, first, others⟩ := then_eq_ok_iff.mp done
    exact parameter parameters 1 (stores start receiver first) others

theorem laid_entryFrame (found : c.entryFrame maxLocals maxStack isStatic = .ok f) :
    f.Laid maxLocals.toNat maxStack := by
  have shaped := shaped_entryFrame found
  have kept : Paired f.locals ∧ f.stack = [] := by
    refine entryFrame_induct (J := fun f => Paired f.locals ∧ f.stack = []) (V := fun _ => True) found
      ⟨?_, rfl⟩ ?_ trivial fun _ _ => trivial
    · intro i t here wide
      obtain ⟨_, rfl⟩ := Array.mem_replicate.mp (Array.mem_of_getElem? here)
      cases wide
    · rintro f g slot t ⟨paired, stack⟩ - done
      obtain ⟨_, ⟨rfl, inside⟩, made⟩ := ((trades_store slot t).iff f g).mp done
      obtain ⟨rfl, _⟩ := made_nil.mp made
      rw [pile_nil]
      exact ⟨paired.written inside, stack⟩
  refine ⟨shaped, kept.1, ?_⟩
  rw [height_eq, kept.2]
  exact Nat.zero_le _

end MethodContext

namespace Flow

theorem keeps_laid {c : MethodContext} {p : Program} {size : Nat} {maxStack : UInt16} :
    Keeps c p fun _ => Frame.Laid size maxStack where
  merged _ _ _ _ laid laid' merged := Frame.laid_merge laid laid' merged
  caught _ _ _ _ _ _ _ laid _ _ _ done := Frame.laid_withCaught laid done
  next _ _ _ _ _ _ _ laid done _ := MethodContext.laid_effect laid done

end Flow

end JvmClass
