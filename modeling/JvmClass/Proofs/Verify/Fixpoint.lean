import JvmClass.Proofs.Verify.Monotone
import JvmClass.Verify.Flow

/-! The frames that are left when there is nothing to visit any more.  Recorded frames only go up,
and whatever has been visited since its frame last changed stands under what is recorded where it
leads to. -/

namespace JvmClass.Flow

variable {c : MethodContext} {p : Program} {size : Nat} {maxStack : UInt16} {s t u : Flow}
  {f g : Frame} {position offset : Nat} {i : Instruction Handle}

def Shaped (size : Nat) (maxStack : UInt16) (s : Flow) : Prop :=
  ∀ q F, s.frame? q = some F → F.Shaped size maxStack

def Receives (size : Nat) (maxStack : UInt16) (s : Flow) (position : Nat) (f : Frame) : Prop :=
  ∃ F, s.frame? position = some F ∧ f.Under (fun _ => True) size maxStack F

/-- Nothing that is recorded goes down, and every change is queued. -/
structure Grows (size : Nat) (maxStack : UInt16) (s t : Flow) : Prop where
  frames : t.frames.size = s.frames.size
  queue : t.queued.size = s.queued.size
  shaped : t.Shaped size maxStack
  kept : ∀ q F, s.frame? q = some F → t.Receives size maxStack q F
  news : ∀ q F, t.frame? q = some F → s.frame? q = some F ∨ t.queued[q]? = some true
  queued : ∀ q : Nat, s.queued[q]? = some true → t.queued[q]? = some true
  left : (∀ q : Nat, s.queued[q]? = some true → q ∈ s.left) →
    ∀ q : Nat, t.queued[q]? = some true → q ∈ t.left

theorem Grows.refl (shaped : s.Shaped size maxStack) : Grows size maxStack s s where
  frames := rfl
  queue := rfl
  shaped := shaped
  kept q F found := ⟨F, found, .refl (shaped q F found)⟩
  news _ _ found := .inl found
  queued _ here := here
  left listed := listed

theorem Receives.grow (receives : s.Receives size maxStack position f)
    (grows : Grows size maxStack s t) : t.Receives size maxStack position f := by
  obtain ⟨F, found, below⟩ := receives
  obtain ⟨G, found', below'⟩ := grows.kept position F found
  exact ⟨G, found', below.trans below'⟩

theorem Grows.trans (first : Grows size maxStack s t) (second : Grows size maxStack t u) :
    Grows size maxStack s u where
  frames := second.frames.trans first.frames
  queue := second.queue.trans first.queue
  shaped := second.shaped
  kept q F found := (first.kept q F found).grow second
  news q F found := by
    obtain found | queued := second.news q F found
    · exact (first.news q F found).imp_right (second.queued q)
    · exact .inr queued
  queued q here := second.queued q (first.queued q here)
  left listed := second.left (first.left listed)

theorem frame?_record (s : Flow) (f : Frame) (inside : position < s.frames.size) (q : Nat) :
    (s.record position f).frame? q = if position = q then some f else s.frame? q := by
  unfold frame?
  rw [frames_record, Array.getElem?_setIfInBounds, if_pos inside]
  split <;> rfl

theorem queued_record (s : Flow) (f : Frame) : (s.record position f).queued =
    if s.queued[position]? = some true then s.queued else s.queued.setIfInBounds position true := by
  cases s
  simp only [record]
  split <;> rfl

theorem left_record (s : Flow) (f : Frame) : (s.record position f).left =
    if s.queued[position]? = some true then s.left else position :: s.left := by
  cases s
  simp only [record]
  split <;> rfl

theorem size_queued_record (s : Flow) (f : Frame) :
    (s.record position f).queued.size = s.queued.size := by
  rw [queued_record]
  split
  · rfl
  · exact Array.size_setIfInBounds

theorem isQueued_record (s : Flow) (f : Frame) (inside : position < s.queued.size) (q : Nat) :
    (s.record position f).queued[q]? = some true ↔ q = position ∨ s.queued[q]? = some true := by
  rw [queued_record]
  by_cases already : s.queued[position]? = some true
  · rw [if_pos already]
    refine (or_iff_right_of_imp ?_).symm
    rintro rfl
    exact already
  · rw [if_neg already, Array.getElem?_setIfInBounds]
    by_cases same : position = q
    · rw [if_pos same, if_pos inside]
      exact iff_of_true rfl (.inl same.symm)
    · rw [if_neg same]
      exact (or_iff_right (Ne.symm same)).symm

theorem mem_left_record (s : Flow) (f : Frame)
    (listed : ∀ q : Nat, s.queued[q]? = some true → q ∈ s.left) (inside : position < s.queued.size)
    {q : Nat} (queued : (s.record position f).queued[q]? = some true) :
    q ∈ (s.record position f).left := by
  rw [isQueued_record s f inside] at queued
  rw [left_record]
  by_cases already : s.queued[position]? = some true
  · rw [if_pos already]
    obtain rfl | queued := queued
    · exact listed q already
    · exact listed q queued
  · rw [if_neg already]
    obtain rfl | queued := queued
    · exact List.mem_cons_self
    · exact List.mem_cons_of_mem _ (listed q queued)

theorem grows_record (shaped : s.Shaped size maxStack) (shaped' : f.Shaped size maxStack)
    (inside : position < s.frames.size) (sizes : s.queued.size = s.frames.size)
    (above : ∀ F, s.frame? position = some F → F.Under (fun _ => True) size maxStack f) :
    Grows size maxStack s (s.record position f) := by
  have inside' : position < s.queued.size := sizes ▸ inside
  constructor
  case frames => rw [frames_record, Array.size_setIfInBounds]
  case queue => exact size_queued_record s f
  case shaped =>
    intro q F found
    rw [frame?_record s f inside] at found
    split at found
    · cases found
      exact shaped'
    · exact shaped q F found
  case kept =>
    intro q F found
    by_cases same : position = q
    · subst same
      exact ⟨f, by rw [frame?_record s f inside, if_pos rfl], above F found⟩
    · exact ⟨F, by rw [frame?_record s f inside, if_neg same, found], .refl (shaped q F found)⟩
  case news =>
    intro q F found
    rw [frame?_record s f inside] at found
    rw [isQueued_record s f inside']
    split at found
    · rename_i same
      exact .inr (.inl same.symm)
    · exact .inl found
  case queued =>
    intro q queued
    exact (isQueued_record s f inside' q).mpr (.inr queued)
  case left =>
    intro listed q queued
    exact mem_left_record s f listed inside' queued

theorem receives_record {m : Frame} (shaped : s.Shaped size maxStack)
    (sizes : s.queued.size = s.frames.size) (inside : position < s.frames.size)
    (above : ∀ F, s.frame? position = some F → F.Under (fun _ => True) size maxStack m)
    (below : f.Under (fun _ => True) size maxStack m) :
    Grows size maxStack s (s.record position m) ∧
      (position < s.frames.size → (s.record position m).Receives size maxStack position f) := by
  refine ⟨grows_record shaped below.right inside sizes above, fun _ => ⟨m, ?_, below⟩⟩
  rw [frame?_record s m inside, if_pos rfl]

theorem grows_flowInto (shaped : s.Shaped size maxStack) (shaped' : f.Shaped size maxStack)
    (sizes : s.queued.size = s.frames.size) (done : s.flowInto position f = .ok t) :
    Grows size maxStack s t ∧
      (position < s.frames.size → t.Receives size maxStack position f) := by
  unfold flowInto at done
  cases found : s.frames[position]? with
  | none =>
    rw [found] at done
    cases done
    have outside := Array.getElem?_eq_none_iff.mp found
    exact ⟨.refl shaped, fun inside => absurd inside (Nat.not_lt_of_le outside)⟩
  | some old? =>
    have inside := (Array.getElem?_eq_some_iff.mp found).1
    have recorded : s.frame? position = old? := by rw [frame?, found, Option.join_some]
    rw [found] at done
    cases old? with
    | none =>
      cases done
      have first : ∀ F, s.frame? position = some F → F.Under (fun _ => True) size maxStack f := by
        intro F here
        rw [recorded] at here
        cases here
      exact receives_record shaped sizes inside first (.refl shaped')
    | some old =>
      dsimp only at done
      cases merged : old.merge f with
      | error e =>
        rw [merged] at done
        cases done
      | ok m =>
        rw [merged] at done
        dsimp only at done
        obtain ⟨above, above'⟩ := Frame.under_merge (shaped position old recorded) shaped' merged
        by_cases same : m = old
        · rw [if_pos same] at done
          cases done
          subst same
          exact ⟨.refl shaped, fun _ => ⟨m, recorded, above'⟩⟩
        · rw [if_neg same] at done
          cases done
          have covers : ∀ F, s.frame? position = some F →
              F.Under (fun _ => True) size maxStack m := by
            intro F here
            obtain rfl := Option.some.inj (recorded.symm.trans here)
            exact above
          exact receives_record shaped sizes inside covers above'

theorem grows_flowIntoHandlers {hs : List Handler} (shaped : s.Shaped size maxStack)
    (shaped' : f.Shaped size maxStack) (sizes : s.queued.size = s.frames.size)
    (done : s.flowIntoHandlers offset f hs = .ok t) :
    Grows size maxStack s t ∧
      ∀ h ∈ hs, h.start ≤ offset → offset < h.stop → ∃ g, f.withCaught h.caught = .ok g ∧
        (h.position < s.frames.size → t.Receives size maxStack h.position g) := by
  induction hs generalizing s with
  | nil =>
    cases done
    exact ⟨.refl shaped, fun h member => absurd member List.not_mem_nil⟩
  | cons h hs ih =>
    unfold flowIntoHandlers at done
    by_cases covers : h.start ≤ offset ∧ offset < h.stop
    · rw [if_pos covers] at done
      obtain ⟨g, caught, done⟩ := bind_eq_ok done
      obtain ⟨u, first, done⟩ := bind_eq_ok done
      have shaped'' := MethodContext.shaped_withCaught shaped' caught
      obtain ⟨grows, receives⟩ := grows_flowInto shaped shaped'' sizes first
      have sizes' : u.queued.size = u.frames.size := by rw [grows.queue, grows.frames, sizes]
      obtain ⟨grows', others⟩ := ih grows.shaped sizes' done
      refine ⟨grows.trans grows', fun k member starts stops => ?_⟩
      obtain rfl | member := List.mem_cons.mp member
      · exact ⟨g, caught, fun inside => (receives inside).grow grows'⟩
      · obtain ⟨g, caught, receives⟩ := others k member starts stops
        exact ⟨g, caught, fun inside => receives (by rwa [grows.frames])⟩
    · rw [if_neg covers] at done
      obtain ⟨grows, others⟩ := ih shaped sizes done
      refine ⟨grows, fun k member starts stops => ?_⟩
      obtain rfl | member := List.mem_cons.mp member
      · exact absurd ⟨starts, stops⟩ covers
      · exact others k member starts stops

theorem grows_flowOn {rest : List (Option Nat)} (shaped : s.Shaped size maxStack)
    (shaped' : f.Shaped size maxStack) (sizes : s.queued.size = s.frames.size)
    (done : s.flowOn s.frames.size f rest = .ok t) :
    Grows size maxStack s t ∧
      ∀ next ∈ rest, ∃ q, next = some q ∧ q < s.frames.size ∧ t.Receives size maxStack q f := by
  generalize count : s.frames.size = n at done
  induction rest generalizing s with
  | nil =>
    cases done
    exact ⟨.refl shaped, fun next member => absurd member List.not_mem_nil⟩
  | cons next rest ih =>
    cases next with
    | none => cases done
    | some position =>
      unfold flowOn at done
      by_cases inside : position < n
      · rw [if_pos inside] at done
        obtain ⟨u, first, done⟩ := bind_eq_ok done
        obtain ⟨grows, receives⟩ := grows_flowInto shaped shaped' sizes first
        have sizes' : u.queued.size = u.frames.size := by rw [grows.queue, grows.frames, sizes]
        obtain ⟨grows', others⟩ := ih grows.shaped sizes' (grows.frames.trans count) done
        refine ⟨grows.trans grows', fun next member => ?_⟩
        obtain rfl | member := List.mem_cons.mp member
        · exact ⟨position, rfl, inside, (receives (count ▸ inside)).grow grows'⟩
        · exact others next member
      · rw [if_neg inside] at done
        cases done

/-- The instruction at a position does not fail on a frame, and what it makes of it stands under
what is recorded where it leads to. -/
structure Settled (c : MethodContext) (p : Program) (size : Nat) (maxStack : UInt16) (s : Flow)
    (position : Nat) (F : Frame) : Prop where
  caught : ∀ offset i, p.code[position]? = some (offset, i) → ∀ h ∈ p.handlers,
    h.start ≤ offset → offset < h.stop → ∃ g, F.withCaught h.caught = .ok g ∧
      (h.position < p.code.size → s.Receives size maxStack h.position g)
  next : ∀ offset i, p.code[position]? = some (offset, i) →
    ∃ g, Frame.after (c.effect offset i) F = .ok g ∧ ∀ next ∈ p.successors position i,
      ∃ q, next = some q ∧ q < p.code.size ∧ s.Receives size maxStack q g

theorem Settled.grow {F : Frame} (settled : Settled c p size maxStack s position F)
    (grows : Grows size maxStack s t) : Settled c p size maxStack t position F where
  caught offset i here h member starts stops := by
    obtain ⟨g, caught, receives⟩ := settled.caught offset i here h member starts stops
    exact ⟨g, caught, fun inside => (receives inside).grow grows⟩
  next offset i here := by
    obtain ⟨g, done, later⟩ := settled.next offset i here
    refine ⟨g, done, fun next member => ?_⟩
    obtain ⟨q, same, inside, receives⟩ := later next member
    exact ⟨q, same, inside, receives.grow grows⟩

theorem grows_visit (shaped : s.Shaped size maxStack) (sizes : s.queued.size = s.frames.size)
    (count : s.frames.size = p.code.size) (done : visit c p position s = .ok t) :
    Grows size maxStack s t ∧
      ∀ F, s.frame? position = some F → Settled c p size maxStack t position F := by
  unfold visit at done
  cases here : p.code[position]? with
  | none =>
    rw [here] at done
    cases done
    refine ⟨.refl shaped, fun F _ => ⟨fun offset i there => ?_, fun offset i there => ?_⟩⟩
    · rw [here] at there
      cases there
    · rw [here] at there
      cases there
  | some instruction =>
    obtain ⟨offset, i⟩ := instruction
    cases found : s.frame? position with
    | none =>
      rw [here, found] at done
      cases done
      exact ⟨.refl shaped, fun F none => by cases none⟩
    | some F =>
      rw [here, found] at done
      obtain ⟨u, first, done⟩ := bind_eq_ok done
      obtain ⟨g, effect, done⟩ := bind_eq_ok done
      have shaped' := shaped position F found
      obtain ⟨grows, handled⟩ := grows_flowIntoHandlers shaped shaped' sizes first
      have sizes' : u.queued.size = u.frames.size := by rw [grows.queue, grows.frames, sizes]
      rw [← count, ← grows.frames] at done
      have shaped'' := MethodContext.shaped_effect shaped' effect
      obtain ⟨grows', later⟩ := grows_flowOn grows.shaped shaped'' sizes' done
      refine ⟨grows.trans grows', fun G same => ?_⟩
      obtain rfl := Option.some.inj same
      refine ⟨fun offset' i' there h member starts stops => ?_, fun offset' i' there => ?_⟩
      · cases here.symm.trans there
        obtain ⟨g', caught, receives⟩ := handled h member starts stops
        exact ⟨g', caught, fun inside => (receives (count ▸ inside)).grow grows'⟩
      · cases here.symm.trans there
        refine ⟨g, effect, fun next member => ?_⟩
        obtain ⟨q, same, inside, receives⟩ := later next member
        exact ⟨q, same, by rwa [grows.frames, count] at inside, receives⟩

/-- What holds between visits: a position whose frame has not been visited is queued. -/
structure Invariant (c : MethodContext) (p : Program) (size : Nat) (maxStack : UInt16)
    (s : Flow) : Prop where
  frames : s.frames.size = p.code.size
  queue : s.queued.size = p.code.size
  shaped : s.Shaped size maxStack
  listed : ∀ q : Nat, s.queued[q]? = some true → q ∈ s.left
  settled : ∀ q F, s.frame? q = some F →
    s.queued[q]? = some true ∨ Settled c p size maxStack s q F

theorem invariant_visit {frames : Array (Option Frame)} {queued : Array Bool} {left : List Nat}
    (invariant : Invariant c p size maxStack ⟨frames, queued, position :: left⟩)
    (done : visit c p position ⟨frames, queued.setIfInBounds position false, left⟩ = .ok t) :
    Invariant c p size maxStack t ∧
      Grows size maxStack ⟨frames, queued.setIfInBounds position false, left⟩ t := by
  have shaped : Shaped size maxStack ⟨frames, queued.setIfInBounds position false, left⟩ :=
    invariant.shaped
  have sizes : (queued.setIfInBounds position false).size = frames.size :=
    (Array.size_setIfInBounds).trans (invariant.queue.trans invariant.frames.symm)
  obtain ⟨grows, visited⟩ := grows_visit shaped sizes invariant.frames done
  have others : ∀ q : Nat, q ≠ position →
      (queued.setIfInBounds position false)[q]? = queued[q]? :=
    fun q other => Array.getElem?_setIfInBounds_ne (Ne.symm other)
  refine ⟨⟨?_, ?_, grows.shaped, grows.left ?_, ?_⟩, grows⟩
  · exact grows.frames.trans invariant.frames
  · exact grows.queue.trans ((Array.size_setIfInBounds).trans invariant.queue)
  · intro q waits
    have other : q ≠ position := by
      rintro rfl
      rw [Array.getElem?_setIfInBounds, if_pos rfl] at waits
      split at waits <;> cases waits
    have member := invariant.listed q ((others q other).symm.trans waits)
    exact (List.mem_cons.mp member).resolve_left other
  · intro q F found
    obtain before | waits := grows.news q F found
    · by_cases same : q = position
      · subst same
        exact .inr (visited F before)
      · obtain waits | settled := invariant.settled q F before
        · exact .inl (grows.queued q ((others q same).trans waits))
        · have unchanged : Settled c p size maxStack
              ⟨frames, queued.setIfInBounds position false, left⟩ q F :=
            ⟨settled.caught, settled.next⟩
          exact .inr (unchanged.grow grows)
    · exact .inl waits

theorem settled_run (invariant : Invariant c p size maxStack s) (done : run c p s = .ok t) :
    (∀ q f, s.Receives size maxStack q f → t.Receives size maxStack q f) ∧
      ∀ q F, t.frame? q = some F → Settled c p size maxStack t q F := by
  induction s using run.induct c p with
  | case1 frames queued =>
    rw [run] at done
    cases done
    refine ⟨fun q f receives => receives, fun q F found => ?_⟩
    obtain waits | settled := invariant.settled q F found
    · exact absurd (invariant.listed q waits) List.not_mem_nil
    · exact settled
  | case2 frames queued position left e failed =>
    rw [run] at done
    split at done
    · cases done
    · rename_i visited
      rw [failed] at visited
      cases visited
  | case3 frames queued position left u visited ih =>
    rw [run] at done
    split at done
    · cases done
    · rename_i visited'
      obtain rfl := Except.ok.inj (visited.symm.trans visited')
      obtain ⟨invariant', grows⟩ := invariant_visit invariant visited
      obtain ⟨kept, settled⟩ := ih invariant' done
      have before : ∀ q f, Receives size maxStack ⟨frames, queued, position :: left⟩ q f →
          Receives size maxStack ⟨frames, queued.setIfInBounds position false, left⟩ q f :=
        fun q f receives => receives
      exact ⟨fun q f receives => kept q f ((before q f receives).grow grows), settled⟩

theorem frame?_empty (n q : Nat) : (empty n).frame? q = none := by
  unfold frame? empty
  rw [Array.getElem?_replicate]
  split <;> rfl

theorem invariant_empty : Invariant c p size maxStack (empty p.code.size) := by
  refine ⟨Array.size_replicate, Array.size_replicate, ?_, ?_, ?_⟩
  · intro q F found
    rw [frame?_empty] at found
    cases found
  · intro q waits
    simp only [empty, Array.getElem?_replicate] at waits
    split at waits <;> cases waits
  · intro q F found
    rw [frame?_empty] at found
    cases found

theorem invariant_flowInto (invariant : Invariant c p size maxStack s)
    (shaped : f.Shaped size maxStack) (done : s.flowInto position f = .ok t)
    (unvisited : ∀ q, s.frame? q = none) : Invariant c p size maxStack t := by
  have sizes : s.queued.size = s.frames.size := invariant.queue.trans invariant.frames.symm
  obtain ⟨grows, _⟩ := grows_flowInto invariant.shaped shaped sizes done
  refine ⟨grows.frames.trans invariant.frames, grows.queue.trans invariant.queue, grows.shaped,
    grows.left invariant.listed, fun q F found => ?_⟩
  obtain before | waits := grows.news q F found
  · rw [unvisited] at before
    cases before
  · exact .inl waits

theorem settled_solve (shaped : f.Shaped size maxStack) (solved : solve c p f = .ok t) :
    (0 < p.code.size → t.Receives size maxStack 0 f) ∧
      ∀ q F, t.frame? q = some F → Settled c p size maxStack t q F := by
  unfold solve at solved
  split at solved
  · cases solved
  · rename_i s started
    have start : Invariant c p size maxStack (empty p.code.size) := invariant_empty
    have invariant := invariant_flowInto start shaped started (frame?_empty _)
    have sizes := start.queue.trans start.frames.symm
    obtain ⟨_, receives⟩ := grows_flowInto start.shaped shaped sizes started
    obtain ⟨kept, settled⟩ := settled_run invariant solved
    refine ⟨fun inside => kept 0 f (receives ?_), settled⟩
    rwa [start.frames]

end JvmClass.Flow
