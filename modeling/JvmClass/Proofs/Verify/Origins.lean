import JvmClass.Proofs.Verify.Renaming
import JvmClass.Proofs.Verify.WellTyped

/-! Which executions unfinished objects come from.  When a new instruction is reached for the first time,
there is no object of it anywhere, and merging only loses objects; so the frame at a new instruction
never has an object of this instruction in it, and what it makes does not come together with what it
made before.  To say so, we follow a way through the program on frames in which unfinished objects have
the numbers of the executions that made them: whatever the analysis takes for an object of a new
instruction was made there when the way passed it for the last time. -/

namespace JvmClass

def Instruction.isNew {τ : Type} : Instruction τ → Bool
  | .constant op _ => op == .new
  | _ => false

theorem Instruction.isNew_iff {τ : Type} {i : Instruction τ} :
    i.isNew = true ↔ ∃ index, i = .constant .new index := by
  cases i <;> simp [isNew]

namespace Program

variable {p : Program} {passed : List Nat} {o o' n q : Nat}

instance (p : Program) (k o : Nat) : Decidable (p.NewAt k o) :=
  decidable_of_iff (p.code[k]?.any fun x => x.1 == o && x.2.isNew) <| by
    simp only [Option.any_eq_true, Bool.and_eq_true, beq_iff_eq, Instruction.isNew_iff]
    constructor
    · rintro ⟨⟨_, _⟩, here, rfl, index, rfl⟩
      exact ⟨index, here⟩
    · rintro ⟨index, here⟩
      exact ⟨_, here, rfl, index, rfl⟩

theorem NewAt.unique (makes : p.NewAt q o) (makes' : p.NewAt q o') : o = o' := by
  obtain ⟨_, here⟩ := makes
  obtain ⟨_, here'⟩ := makes'
  cases here.symm.trans here'
  rfl

/-- The number of the last execution of the new instruction at an offset, among the executions of
instructions at the positions that have been passed, the last one first. -/
def lastMade? (p : Program) (o : Nat) : List Nat → Option Nat
  | [] => none
  | q :: passed => if p.NewAt q o then some passed.length else p.lastMade? o passed

theorem lastMade?_lt (made : p.lastMade? o passed = some n) : n < passed.length := by
  induction passed with
  | nil => cases made
  | cons q passed ih =>
    unfold lastMade? at made
    split at made
    · cases made
      exact Nat.lt_succ_self _
    · exact Nat.lt_succ_of_lt (ih made)

theorem lastMade?_inj (made : p.lastMade? o passed = some n) (made' : p.lastMade? o' passed = some n) :
    o = o' := by
  induction passed with
  | nil => cases made
  | cons q passed ih =>
    unfold lastMade? at made made'
    split at made <;> split at made'
    · rename_i here here'
      exact here.unique here'
    · cases made
      exact absurd (lastMade?_lt made') (Nat.lt_irrefl _)
    · cases made'
      exact absurd (lastMade?_lt made) (Nat.lt_irrefl _)
    · exact ih made made'

/-- The number that an object of an offset has on a way, or one that none has if there is no such
object. -/
def numberOf (p : Program) (passed : List Nat) (o : Nat) : Nat :=
  (p.lastMade? o passed).getD (passed.length + o)

theorem numberOf_injective (p : Program) (passed : List Nat) :
    Function.Injective (p.numberOf passed) := by
  intro o o' same
  unfold numberOf at same
  cases made : p.lastMade? o passed with
  | none =>
    cases made' : p.lastMade? o' passed with
    | none =>
      rw [made, made'] at same
      exact Nat.add_left_cancel same
    | some n =>
      rw [made, made'] at same
      have := lastMade?_lt made'
      simp only [Option.getD_none, Option.getD_some] at same
      omega
  | some n =>
    cases made' : p.lastMade? o' passed with
    | none =>
      rw [made, made'] at same
      have := lastMade?_lt made
      simp only [Option.getD_none, Option.getD_some] at same
      omega
    | some n' =>
      rw [made, made'] at same
      cases same
      exact lastMade?_inj made made'

theorem numberOf_of_newAt (makes : p.NewAt q o) : p.numberOf (q :: passed) o = passed.length := by
  rw [numberOf, lastMade?, if_pos makes, Option.getD_some]

theorem numberOf_cons (made : p.numberOf passed o < passed.length) (other : ¬ p.NewAt q o) :
    p.numberOf (q :: passed) o = p.numberOf passed o := by
  unfold numberOf at made ⊢
  rw [lastMade?, if_neg other]
  cases found : p.lastMade? o passed with
  | none =>
    rw [found, Option.getD_none] at made
    omega
  | some n => rfl

theorem lastMade?_of_numberOf (made : p.numberOf passed o < passed.length) :
    p.lastMade? o passed = some (p.numberOf passed o) := by
  unfold numberOf at made ⊢
  cases found : p.lastMade? o passed with
  | none =>
    rw [found, Option.getD_none] at made
    omega
  | some n => rfl

end Program

namespace Flow

variable {c : MethodContext} {p : Program} {entry f g F G : Frame} {log : List Event} {stage : Stage}
  {s t : Flow} {q r k o size offset : Nat} {i : Instruction Handle} {maxStack : UInt16}
  {passed : List Nat}

/-- No frame at a position has an object of an offset in it, and while there is no frame at the
position, no frame has. -/
structure Avoids (size k o : Nat) (s : Flow) : Prop where
  here : ∀ F, s.frame? k = some F → F.Sourced size (· ≠ o)
  before : s.frame? k = none → s.Has fun _ F => F.Sourced size (· ≠ o)

def Stage.Avoids (size k o : Nat) : Stage → Prop
  | .between => True
  | .before q _ _ f _ => q ≠ k ∧ f.Sourced size (· ≠ o)
  | .after _ g _ => g.Sourced size (· ≠ o)

theorem avoids_record (avoids : s.Avoids size k o) (inside : r < s.frames.size)
    (without : r = k ∨ s.frame? k = none → F.Sourced size (· ≠ o)) :
    (s.record r F).Avoids size k o := by
  refine ⟨fun G found => ?_, fun nothing => ?_⟩
  · rw [frame?_record s F inside] at found
    split at found
    · rename_i same
      cases found
      exact without (.inl same)
    · exact avoids.here G found
  · rw [frame?_record s F inside] at nothing
    split at nothing
    · cases nothing
    · exact has_record (avoids.before nothing) (without (.inr nothing)) inside

theorem Arrives.avoids (avoids : s.Avoids size k o) (sized : g.locals.size = size)
    (without : s.frame? k = none → g.Sourced size (· ≠ o)) (arrives : Arrives r g s t) :
    t.Avoids size k o := by
  cases arrives with
  | absorbed => exact avoids
  | first inside nothing =>
    refine avoids_record avoids inside ?_
    rintro (rfl | nothing)
    · exact without nothing
    · exact without nothing
  | merged inside found merges =>
    refine avoids_record avoids inside ?_
    rintro (rfl | nothing)
    · exact Frame.sourced_merge (avoids.here _ found) sized merges
    · exact Frame.sourced_merge (avoids.before nothing _ _ found) sized merges

theorem Arrives.nothing (arrives : Arrives r g s t) (nothing : t.frame? k = none) :
    s.frame? k = none := by
  cases arrives with
  | absorbed => exact nothing
  | first inside | merged inside =>
    rw [frame?_record s _ inside] at nothing
    split at nothing
    · cases nothing
    · exact nothing

theorem frame?_of_mem_news (member : .recorded q F ∈ news r s t) : r = q ∧ t.frame? r = some F := by
  unfold news at member
  split at member
  · cases member
  · obtain ⟨f, found, same⟩ := List.mem_map.mp (Option.toList_map .. ▸ member)
    cases same
    exact ⟨rfl, Option.mem_toList.mp found⟩

theorem avoids_empty (n : Nat) : (empty n).Avoids size k o where
  here F found := by
    rw [frame?_empty] at found
    cases found
  before _ := has_empty n

/-- The frame at a new instruction never has an object of this instruction in it. -/
theorem Moment.avoids (increasing : Search.Increasing (·.1) p.code)
    (values : ∀ h ∈ p.handlers, h.caught.Finished) (usable : entry.Usable size)
    (without : entry.Sourced size (· ≠ o)) (makes : p.NewAt k o)
    (moment : Moment c p entry log stage s) :
    s.Avoids size k o ∧ (s.frame? k = none → stage.Avoids size k o) ∧
      ∀ F, .recorded k F ∈ log → F.Sourced size (· ≠ o) := by
  have arrive {log : List Event} {s t : Flow} {r : Nat} {g : Frame} (avoids : s.Avoids size k o)
      (past : ∀ F, .recorded k F ∈ log → F.Sourced size (· ≠ o)) (sized : g.locals.size = size)
      (without : s.frame? k = none → g.Sourced size (· ≠ o)) (into : s.flowInto r g = .ok t) :
      t.Avoids size k o ∧ ∀ F, .recorded k F ∈ news r s t ++ log → F.Sourced size (· ≠ o) := by
    have avoids' := (arrives_of_flowInto into).avoids avoids sized without
    refine ⟨avoids', fun F member => ?_⟩
    obtain new | old := List.mem_append.mp member
    · obtain ⟨rfl, found⟩ := frame?_of_mem_news new
      exact avoids'.here F found
    · exact past F old
  have keeps : Keeps c p fun _ => Frame.Usable size := keeps_usable values
  obtain ⟨index, made⟩ := makes
  induction moment with
  | start entered =>
    obtain ⟨avoids, past⟩ := @arrive [] _ _ _ _ (avoids_empty _) (fun _ member => nomatch member)
      usable.size_eq (fun _ => without) entered
    rw [List.append_nil] at past
    exact ⟨avoids, fun _ => trivial, past⟩
  | take _ _ found ih =>
    obtain ⟨avoids, _, past⟩ := ih
    refine ⟨⟨avoids.here, avoids.before⟩, fun nothing => ⟨?_, avoids.before nothing _ _ found⟩,
      fun F member => past F (by simpa using member)⟩
    rintro rfl
    cases nothing.symm.trans found
  | pass _ _ ih =>
    obtain ⟨avoids, _, past⟩ := ih
    exact ⟨⟨avoids.here, avoids.before⟩, fun _ => trivial,
      fun F member => past F (by simpa using member)⟩
  | skip _ _ ih => exact ih
  | «catch» earlier inside caught into ih =>
    obtain ⟨avoids, visiting, past⟩ := ih
    obtain ⟨_, ⟨_, before, listed⟩, _⟩ := earlier.throughout keeps usable
    have finished := values _ (listed _ List.mem_cons_self)
    have starts := Frame.holds_withCaught before finished.usable caught
    obtain ⟨avoids', past'⟩ := arrive avoids past starts.size_eq
      (fun nothing => Frame.holds_withCaught (visiting nothing).2 finished.sourced caught) into
    exact ⟨avoids', fun nothing => visiting ((arrives_of_flowInto into).nothing nothing), past'⟩
  | execute earlier done ih =>
    obtain ⟨avoids, visiting, past⟩ := ih
    obtain ⟨_, ⟨here, before, _⟩, _⟩ := earlier.throughout keeps usable
    refine ⟨avoids, fun nothing => ?_, fun F member => past F (by simpa using member)⟩
    obtain ⟨other, sourced⟩ := visiting nothing
    refine (MethodContext.guarded_effect (MethodContext.admits_sourced fun _ => ?_)).holds sourced
      (MethodContext.after_eq_ok_iff.mp done)
    rintro rfl
    exact other (ClassFile.eq_of_offset increasing here made)
  | lead earlier _ into ih =>
    obtain ⟨avoids, visiting, past⟩ := ih
    obtain ⟨_, on, _⟩ := earlier.throughout keeps usable
    obtain ⟨avoids', past'⟩ := arrive avoids past (on _ List.mem_cons_self).size_eq visiting into
    exact ⟨avoids', fun nothing => visiting ((arrives_of_flowInto into).nothing nothing), past'⟩
  | leave _ ih => exact ⟨ih.1, fun _ => trivial, ih.2.2⟩

/-- A way through a program, from the frame at the entry to a position.  Every unfinished object on it
has the number of the execution that made it in the place of an offset.  An instruction that ends with
an exception has not been executed. -/
inductive Numbered (c : MethodContext) (p : Program) (entry : Frame) : List Nat → Nat → Frame → Prop
    where
  | start (inside : 0 < p.code.size) : Numbered c p entry [] 0 entry
  | next {passed : List Nat} {q r offset : Nat} {i : Instruction Handle} {f g : Frame}
      (earlier : Numbered c p entry passed q f) (here : p.code[q]? = some (offset, i))
      (done : Frame.after (c.effect passed.length i) f = .ok g) (leads : some r ∈ p.successors q i) :
      Numbered c p entry (q :: passed) r g
  | caught {passed : List Nat} {q offset : Nat} {i : Instruction Handle} {f g : Frame} {h : Handler}
      (earlier : Numbered c p entry passed q f) (here : p.code[q]? = some (offset, i))
      (listed : h ∈ p.handlers) (starts : h.start ≤ offset) (stops : offset < h.stop)
      (done : f.withCaught h.caught = .ok g) : Numbered c p entry passed h.position g

/-- Such a way that the analysis has followed with frames that it has recorded: each of them has what
becomes of the one before in it. -/
inductive Followed (c : MethodContext) (p : Program) (entry : Frame) (log : List Event) :
    List Nat → Nat → Frame → Frame → Prop where
  | start {F : Frame} (recorded : .recorded 0 F ∈ log) (takes : F.merge entry = .ok F) :
      Followed c p entry log [] 0 entry F
  | next {passed : List Nat} {q r offset : Nat} {i : Instruction Handle} {f g F G F' : Frame}
      (earlier : Followed c p entry log passed q f F) (here : p.code[q]? = some (offset, i))
      (done : Frame.after (c.effect passed.length i) f = .ok g) (leads : some r ∈ p.successors q i)
      (flows : Frame.after (c.effect offset i) F = .ok G) (recorded : .recorded r F' ∈ log)
      (takes : F'.merge G = .ok F') : Followed c p entry log (q :: passed) r g F'
  | caught {passed : List Nat} {q offset : Nat} {i : Instruction Handle} {f g F G F' : Frame}
      {h : Handler} (earlier : Followed c p entry log passed q f F)
      (here : p.code[q]? = some (offset, i)) (listed : h ∈ p.handlers) (starts : h.start ≤ offset)
      (stops : offset < h.stop) (done : f.withCaught h.caught = .ok g)
      (flows : F.withCaught h.caught = .ok G) (recorded : .recorded h.position F' ∈ log)
      (takes : F'.merge G = .ok F') : Followed c p entry log passed h.position g F'

/-- A frame on a way may be taken for one of the analysis in which the objects have the numbers of the
way. -/
structure Stems (p : Program) (size : Nat) (maxStack : UInt16) (passed : List Nat) (f F : Frame) :
    Prop where
  sourced : f.Sourced size (· < passed.length)
  below : f.Under (fun _ => True) size maxStack (F.renumber (p.numberOf passed))

theorem Stems.places (stems : Stems p size maxStack passed f F) :
    (∀ j : Nat, F.locals[j]? = some (.uninitialized o) →
      f.locals[j]? = some (.uninitialized (p.numberOf passed o))) ∧
    ∀ j : Nat, F.stack[j]? = some (.uninitialized o) →
      f.stack[j]? = some (.uninitialized (p.numberOf passed o)) := by
  obtain ⟨left, right, locals, stack⟩ := stems.below
  constructor
  · intro j here
    have there : (F.renumber (p.numberOf passed)).locals[j]? =
        some (.uninitialized (p.numberOf passed o)) := by
      rw [Frame.renumber, Frame.locals_ofStack, Array.getElem?_map, here]
      rfl
    have inside : j < f.locals.size := by
      have bound := (Array.getElem?_eq_some_iff.mp there).1
      rwa [right.locals, ← left.locals] at bound
    have found := Array.getElem?_eq_getElem inside
    have below := (locals j _ _ found there).under_of_ne VType.noConfusion
    rw [found, below.eq_of_ne_object fun _ => VType.noConfusion]
  · intro j here
    have there : (F.renumber (p.numberOf passed)).stack[j]? =
        some (.uninitialized (p.numberOf passed o)) := by
      rw [Frame.stack_renumber, List.getElem?_map, here]
      rfl
    obtain ⟨t, found, below⟩ := getElem?_of_forall₂ stack.flip there
    rw [found, VType.Under.eq_of_ne_object below fun _ => VType.noConfusion]

theorem Stems.numberOf_lt (stems : Stems p size maxStack passed f F) (mentions : F.Mentions o) :
    p.numberOf passed o < passed.length := by
  obtain member | member := mentions
  · obtain ⟨j, here⟩ := Array.mem_iff_getElem?.mp member
    exact stems.sourced.locals.2 _ (Array.mem_of_getElem? (stems.places.1 j here)) _ rfl
  · obtain ⟨j, here⟩ := List.mem_iff_getElem?.mp member
    exact stems.sourced.stack _ (List.mem_of_getElem? (stems.places.2 j here)) _ rfl

theorem Stems.takes (stems : Stems p size maxStack passed f G) (shaped : F.Shaped size maxStack)
    (shaped' : G.Shaped size maxStack) (takes : F.merge G = .ok F) :
    Stems p size maxStack passed f F :=
  ⟨stems.sourced, stems.below.trans (Frame.under_merge shaped shaped' takes).2.renumber⟩

theorem Stems.next (stems : Stems p size maxStack passed f F)
    (here : p.code[q]? = some (offset, i)) (without : ∀ o, p.NewAt q o → ¬ F.Mentions o)
    (done : Frame.after (c.effect passed.length i) f = .ok g)
    (flows : Frame.after (c.effect offset i) F = .ok G) :
    Stems p size maxStack (q :: passed) g G := by
  have injective := p.numberOf_injective (q :: passed)
  have sourced : f.Sourced size (· < (q :: passed).length) :=
    stems.sourced.mono fun _ => Nat.lt_succ_of_lt
  have numbered : c.Admits (.sourced size (· < (q :: passed).length)) passed.length i :=
    MethodContext.admits_sourced fun _ => Nat.lt_succ_self _
  refine ⟨(MethodContext.guarded_effect numbered).holds sourced
    (MethodContext.after_eq_ok_iff.mp done), ?_⟩
  -- The objects that are there keep their numbers, since none of them is of a new instruction here.
  have same : F.renumber (p.numberOf passed) = F.renumber (p.numberOf (q :: passed)) :=
    Frame.renumber_congr fun o mentions => (Program.numberOf_cons (stems.numberOf_lt mentions)
      fun makes => without o makes mentions).symm
  have flows' : Frame.after (c.effect passed.length i) (F.renumber (p.numberOf (q :: passed))) =
      .ok (G.renumber (p.numberOf (q :: passed))) := by
    have renumbered := MethodContext.effect_renumber injective flows
    by_cases new : i.isNew = true
    · obtain ⟨index, rfl⟩ := Instruction.isNew_iff.mp new
      have number : p.numberOf (q :: passed) offset = passed.length :=
        Program.numberOf_of_newAt ⟨index, here⟩
      rw [number] at renumbered
      exact renumbered
    · exact MethodContext.effect_elsewhere
        (fun index same => new (Instruction.isNew_iff.mpr ⟨index, same⟩)) renumbered
  have below := stems.below
  rw [same] at below
  exact MethodContext.effect_monotone below done flows'

theorem Stems.caught {h : VType} (stems : Stems p size maxStack passed f F) (finished : h.Finished)
    (done : f.withCaught h = .ok g) (flows : F.withCaught h = .ok G) :
    Stems p size maxStack passed g G := by
  obtain ⟨g', done', below⟩ := MethodContext.withCaught_below stems.below
    (Frame.withCaught_renumber finished flows)
  cases done.symm.trans done'
  exact ⟨Frame.holds_withCaught stems.sourced finished.sourced done, below⟩

theorem of_mentions {S : Nat → Prop} (sourced : f.Sourced size S)
    (mentions : f.Mentions o) : S o :=
  mentions.elim (fun member => sourced.locals.2 _ member o rfl)
    fun member => sourced.stack _ member o rfl

theorem Followed.stems (shaped : entry.Shaped size maxStack)
    (bare : entry.Sourced size fun _ => False) (values : ∀ h ∈ p.handlers, h.caught.Finished)
    (shapes : ∀ q F, .recorded q F ∈ log → F.Shaped size maxStack)
    (without : ∀ k o F, p.NewAt k o → .recorded k F ∈ log → ¬ F.Mentions o)
    (followed : Followed c p entry log passed q f F) :
    .recorded q F ∈ log ∧ Stems p size maxStack passed f F := by
  induction followed with
  | @start F recorded takes =>
    have below : (entry.renumber (p.numberOf [])).Under (fun _ => True) size maxStack
        (F.renumber (p.numberOf [])) :=
      (Frame.under_merge (shapes 0 F recorded) shaped takes).2.renumber
    rw [Frame.renumber_eq_self fun o mentions => of_mentions bare mentions] at below
    exact ⟨recorded, bare.mono fun _ => False.elim, below⟩
  | @next _ q r _ _ _ _ F G F' _ here done _ flows recorded takes ih =>
    obtain ⟨before, stems⟩ := ih
    have after := stems.next here (fun o makes => without q o F makes before) done flows
    have shaped' := MethodContext.shaped_effect (shapes q F before) flows
    exact ⟨recorded, after.takes (shapes r F' recorded) shaped' takes⟩
  | @caught _ q _ _ _ _ F G F' h _ _ listed _ _ done flows recorded takes ih =>
    obtain ⟨before, stems⟩ := ih
    have shaped' := MethodContext.shaped_withCaught (shapes q F before) flows
    exact ⟨recorded, (stems.caught (values h listed) done flows).takes
      (shapes h.position F' recorded) shaped' takes⟩

theorem Arrives.mem_news (arrives : Arrives r g s t) (found : t.frame? q = some F) :
    .recorded q F ∈ news r s t ∨ s.frame? q = some F := by
  by_cases same : r = q
  · subst same
    by_cases kept : t.frame? r = s.frame? r
    · exact .inr (kept ▸ found)
    · left
      rw [news, if_neg kept, found]
      exact List.mem_singleton_self _
  · exact .inr (arrives.frame?_eq same ▸ found)

theorem Moment.recorded (moment : Moment c p entry log stage s) :
    ∀ q F, s.frame? q = some F → .recorded q F ∈ log := by
  have arrive {log : List Event} {s t : Flow} {r : Nat} {g : Frame}
      (past : ∀ q F, s.frame? q = some F → .recorded q F ∈ log) (into : s.flowInto r g = .ok t) :
      ∀ q F, t.frame? q = some F → .recorded q F ∈ news r s t ++ log := by
    intro q F found
    obtain new | old := (arrives_of_flowInto into).mem_news found
    · exact List.mem_append_left _ new
    · exact List.mem_append_right _ (past q F old)
  induction moment with
  | start entered =>
    have past := @arrive [] _ _ _ _ (fun q F found => by rw [frame?_empty] at found; cases found)
      entered
    rwa [List.append_nil] at past
  | take _ _ _ ih | pass _ _ ih => exact fun q F found => List.mem_cons_of_mem _ (ih q F found)
  | skip _ _ ih | leave _ ih => exact ih
  | «catch» _ _ _ into ih => exact arrive ih into
  | execute _ _ ih => exact fun q F found => List.mem_cons_of_mem _ (ih q F found)
  | lead _ _ into ih => exact arrive ih into

theorem Solves.followed (solves : s.Solves c p entry)
    (past : ∀ q F, s.frame? q = some F → .recorded q F ∈ log) (way : Numbered c p entry passed q f) :
    ∃ F, s.frame? q = some F ∧ Followed c p entry log passed q f F := by
  induction way with
  | start inside =>
    obtain ⟨F, found, takes⟩ := solves.start inside
    exact ⟨F, found, .start (past _ F found) takes⟩
  | next _ here done leads ih =>
    obtain ⟨F, found, followed⟩ := ih
    obtain ⟨G, flows, later⟩ := solves.next _ _ _ F here found
    obtain ⟨r, F', same, _, found', takes⟩ := later _ leads
    cases same
    exact ⟨F', found', .next followed here done leads flows (past _ F' found') takes⟩
  | caught _ here listed starts stops done ih =>
    obtain ⟨F, found, followed⟩ := ih
    obtain ⟨G, F', flows, _, found', takes⟩ := solves.caught _ _ _ F here found _ listed starts stops
    exact ⟨F', found', .caught followed here listed starts stops done flows (past _ F' found') takes⟩

end Flow

namespace ClassFile

variable {c : ClassFile} {position : Nat} {s : FlowSubject} {p : Program} {entry : Frame}

/-- At no moment of the analysis of a method does the frame at a new instruction have an object of this
instruction in it.  On every way that the analysis has followed, whatever it takes for an object of a
new instruction was made by one and the same execution, the last one of this instruction; and when the
analysis has come to its end, it has followed every way. -/
theorem made_by_one_execution (starts : c.Starts position s p entry) :
    (∀ log stage flow, Flow.Moment s.context p entry log stage flow →
      (∀ k o F, p.NewAt k o → flow.frame? k = some F → ¬ F.Mentions o) ∧
      ∀ passed q f F, Flow.Followed s.context p entry log passed q f F → ∀ o, F.Mentions o →
        ∃ n, p.lastMade? o passed = some n ∧
          (∀ j : Nat, F.locals[j]? = some (.uninitialized o) →
            f.locals[j]? = some (.uninitialized n)) ∧
          ∀ j : Nat, F.stack[j]? = some (.uninitialized o) →
            f.stack[j]? = some (.uninitialized n)) ∧
    ∀ flow, Flow.solve s.context p entry = .ok flow →
      ∃ log, Flow.Moment s.context p entry log .between flow ∧
        ∀ passed q f, Flow.Numbered s.context p entry passed q f →
          ∃ F, flow.frame? q = some F ∧ Flow.Followed s.context p entry log passed q f F := by
  obtain ⟨subject, program, entered⟩ := starts
  have decoded := decode_of_flowSubject? subject
  have increasing := increasing_programOf decoded program
  have values := finished_of_programOf program
  have shaped := MethodContext.shaped_entryFrame entered
  have usable := MethodContext.usable_entryFrame entered
  have bare {S : Nat → Prop} : entry.Sourced s.code.maxLocals.toNat S :=
    MethodContext.sourced_entryFrame entered
  refine ⟨fun log stage flow moment => ?_, fun flow solved => ?_⟩
  · have avoids {k o : Nat} (makes : p.NewAt k o) :=
      moment.avoids increasing values usable bare makes
    refine ⟨fun k o F makes found mentions => ?_, fun passed q f F followed o mentions => ?_⟩
    · exact Flow.of_mentions ((avoids makes).1.here F found) mentions rfl
    · have shapes := (moment.throughout Flow.keeps_shaped shaped).log
      obtain ⟨_, stems⟩ := followed.stems shaped bare values (fun q F member => shapes _ member)
        fun k o F makes member mentions =>
          Flow.of_mentions ((avoids makes).2.2 F member) mentions rfl
      exact ⟨_, Program.lastMade?_of_numberOf (stems.numberOf_lt mentions), stems.places⟩
  · obtain ⟨log, stage, flow', moment, ends⟩ := Flow.exists_end s.context p entry
    rw [solved] at ends
    cases ends
    have solves := Flow.solves_solve shaped usable values
      (fun h listed => position_lt_of_mem_handlers decoded program listed) solved
    exact ⟨log, moment, fun passed q f way => solves.followed moment.recorded way⟩

/-- A loop leads back to the new instruction, with the unfinished object of the last turn in a local. -/
theorem made_by_one_execution_minting : ∃ s p entry, minting.Starts 0 s p entry ∧
    (∀ log stage flow, Flow.Moment s.context p entry log stage flow →
      (∀ k o F, p.NewAt k o → flow.frame? k = some F → ¬ F.Mentions o) ∧
      ∀ passed q f F, Flow.Followed s.context p entry log passed q f F → ∀ o, F.Mentions o →
        ∃ n, p.lastMade? o passed = some n ∧
          (∀ j : Nat, F.locals[j]? = some (.uninitialized o) →
            f.locals[j]? = some (.uninitialized n)) ∧
          ∀ j : Nat, F.stack[j]? = some (.uninitialized o) →
            f.stack[j]? = some (.uninitialized n)) ∧
    ∀ flow, Flow.solve s.context p entry = .ok flow →
      ∃ log, Flow.Moment s.context p entry log .between flow ∧
        ∀ passed q f, Flow.Numbered s.context p entry passed q f →
          ∃ F, flow.frame? q = some F ∧ Flow.Followed s.context p entry log passed q f F := by
  obtain ⟨s, _, _, replayed⟩ := replays_minting.replayed
  obtain ⟨p, entry, starts⟩ := exists_starts replayed.flows.subject replayed.accepted
  exact ⟨s, p, entry, starts, made_by_one_execution starts⟩

end ClassFile

end JvmClass
