import JvmClass.Proofs.Verify.Layout
import Mathlib.Algebra.Order.BigOperators.Group.Finset
import Mathlib.Algebra.BigOperators.Group.Multiset.Basic
import Mathlib.Data.Multiset.Count

/-! How long an analysis takes.  A frame that is recorded at a position gives way only to one that has
fewer changes before it, and it starts with at most three for a local variable and two for a slot of the
stack, since no value on the stack becomes unusable.  A position is put on the list when a frame is
recorded there, and at no other time, so visits are as few as recordings are. -/

namespace JvmClass

open Width (width)

namespace Frame

variable {size : Nat} {maxStack : UInt16} {f g m : Frame} {ts : List VType}

/-- How many times a frame can still change by merging, if all values on the stack stay usable. -/
def changes (f : Frame) : Nat := f.room - (f.locals.size + 2 * f.stack.length)

theorem length_le_roomOf (ts : List VType) : ts.length ≤ roomOf ts := by
  induction ts with
  | nil => exact Nat.le_refl 0
  | cons t ts ih => rw [List.length_cons, roomOf_cons]; omega

theorem roomOf_le (ts : List VType) : roomOf ts ≤ 4 * ts.length := by
  have most (t : VType) : t.room ≤ 3 := by
    cases t with
    | object n => simp only [VType.room]; split <;> omega
    | _ => simp [VType.room]
  induction ts with
  | nil => exact Nat.le_refl 0
  | cons t ts ih =>
    have := most t
    rw [List.length_cons, roomOf_cons]
    omega

theorem two_mul_length_le_roomOf (usable : ∀ t ∈ ts, t ≠ .top) : 2 * ts.length ≤ roomOf ts := by
  have some {t : VType} (usable : t ≠ .top) : 1 ≤ t.room := by
    cases t with
    | top => exact absurd rfl usable
    | object n => simp only [VType.room]; split <;> omega
    | _ => simp [VType.room]
  induction ts with
  | nil => exact Nat.le_refl 0
  | cons t ts ih =>
    obtain ⟨here, others⟩ := List.forall_mem_cons.mp usable
    have := some here
    have := ih others
    rw [List.length_cons, roomOf_cons]
    omega

theorem length_le_height (f : Frame) : f.stack.length ≤ f.height := by
  rw [height_eq]
  induction f.stack with
  | nil => exact Nat.le_refl 0
  | cons t ts ih =>
    have := t.width_pos
    rw [List.length_cons, total_cons]
    omega

theorem changes_le (laid : f.Laid size maxStack) :
    f.changes ≤ 3 * size + 2 * maxStack.toNat := by
  have locals := roomOf_le f.locals.toList
  have stack := roomOf_le f.stack
  have height := f.length_le_height
  have fits := laid.fits
  rw [Array.length_toList, laid.shaped.locals] at locals
  rw [changes, room, laid.shaped.locals]
  omega

theorem le_room (usable : f.Usable size) : f.locals.size + 2 * f.stack.length ≤ f.room := by
  have locals := length_le_roomOf f.locals.toList
  rw [Array.length_toList] at locals
  exact Nat.add_le_add locals (two_mul_length_le_roomOf usable.stack)

theorem changes_lt (usable : f.Usable size) (usable' : g.Usable size) (merged : f.merge g = .ok m)
    (changed : m ≠ f) : m.changes < f.changes := by
  have less := room_merge_lt merged changed
  have usable'' := usable_merge usable usable' merged
  have length : m.stack.length = f.stack.length := by
    obtain rfl := merge_eq merged
    unfold merge at merged
    split at merged
    · rename_i heights
      simp [heights.1]
    · cases merged
  have least := le_room usable''
  rw [usable''.size_eq, length] at least
  rw [changes, changes, usable''.size_eq, usable.size_eq, length]
  omega

end Frame

namespace Flow

def Event.recorded? : Event → Option Nat
  | .recorded q _ => some q
  | _ => none

def Event.taken? : Event → Option Nat
  | .taken q => some q
  | _ => none

def recordings (log : List Event) : List Nat := log.filterMap Event.recorded?

def visits (log : List Event) : List Nat := log.filterMap Event.taken?

@[simp] theorem recordings_recorded (q : Nat) (f : Frame) (log : List Event) :
    recordings (.recorded q f :: log) = q :: recordings log := rfl

@[simp] theorem recordings_taken (q : Nat) (log : List Event) :
    recordings (.taken q :: log) = recordings log := rfl

@[simp] theorem visits_recorded (q : Nat) (f : Frame) (log : List Event) :
    visits (.recorded q f :: log) = visits log := rfl

@[simp] theorem visits_taken (q : Nat) (log : List Event) :
    visits (.taken q :: log) = q :: visits log := rfl

/-- A list with few copies of each of few numbers is short. -/
theorem length_le_of_count_le {n b : Nat} {qs : List Nat} (inside : ∀ q ∈ qs, q < n)
    (few : ∀ q, qs.count q ≤ b) : qs.length ≤ n * b := by
  have listed : (qs : Multiset Nat).toFinset ⊆ Finset.range n := fun q member =>
    Finset.mem_range.mpr (inside q (by simpa using member))
  calc qs.length = ∑ q ∈ (qs : Multiset Nat).toFinset, (qs : Multiset Nat).count q := by
        rw [Multiset.toFinset_sum_count_eq, Multiset.coe_card]
    _ ≤ (qs : Multiset Nat).toFinset.card * b := Finset.sum_le_card_nsmul _ _ _ fun q _ => by
        rw [Multiset.coe_count]
        exact few q
    _ ≤ n * b := by
        refine Nat.mul_le_mul_right b ?_
        simpa using Finset.card_le_card listed

variable {c : MethodContext} {p : Program} {entry f g : Frame} {log : List Event} {stage : Stage}
  {s t : Flow} {q r size bound : Nat} {maxStack : UInt16}

/-- A recorded frame has spent as many changes as frames have been recorded after the first at its
position, and positions are visited and still to be visited no more often than frames have been
recorded there. -/
structure Counted (bound : Nat) (log : List Event) (s : Flow) : Prop where
  spent : ∀ q f, s.frame? q = some f → (recordings log).count q + f.changes ≤ 1 + bound
  unrecorded : ∀ q, s.frame? q = none → (recordings log).count q = 0
  visits : ∀ q, (visits log).count q + s.left.count q ≤ (recordings log).count q

theorem Counted.record (counted : Counted bound log s) (inside : r < s.frames.size) {F : Frame}
    (spent : (recordings log).count r + F.changes ≤ bound) :
    Counted bound (.recorded r F :: log) (s.record r F) := by
  have more (q : Nat) : (recordings (.recorded r F :: log)).count q =
      (recordings log).count q + if r = q then 1 else 0 := by
    simp [List.count_cons]
  refine ⟨fun q f found => ?_, fun q nothing => ?_, fun q => ?_⟩
  · rw [frame?_record s F inside] at found
    rw [more]
    split at found
    · rename_i same
      cases found
      subst same
      rw [if_pos rfl]
      omega
    · rename_i other
      rw [if_neg other]
      exact counted.spent q f found
  · rw [frame?_record s F inside] at nothing
    rw [more]
    split at nothing
    · cases nothing
    · rename_i other
      rw [if_neg other]
      exact counted.unrecorded q nothing
  · have before := counted.visits q
    have left : (s.record r F).left.count q ≤ s.left.count q + if r = q then 1 else 0 := by
      rw [left_record]
      split
      · exact Nat.le_add_right ..
      · rw [List.count_cons]
        simp
    rw [more, visits_recorded]
    omega

theorem Arrives.counted (counted : Counted bound log s) (has : s.Has fun _ => Frame.Usable size)
    (usable : g.Usable size) (fits : g.changes ≤ bound) (arrives : Arrives r g s t) :
    Counted bound (news r s t ++ log) t := by
  cases arrives with
  | absorbed => simpa using counted
  | first inside nothing =>
    rw [news_record inside (by simp [nothing])]
    refine counted.record inside ?_
    rw [counted.unrecorded r nothing]
    omega
  | @merged old m inside found merges changed =>
    rw [news_record inside (by simpa [found] using Ne.symm changed)]
    refine counted.record inside ?_
    have less := Frame.changes_lt (has r old found) usable merges changed
    have spent := counted.spent r old found
    omega

theorem counted_empty (n : Nat) : Counted bound [] (empty n) where
  spent q f found := by
    rw [frame?_empty] at found
    cases found
  unrecorded _ _ := rfl
  visits _ := Nat.le_refl 0

theorem Counted.take {frames : Array (Option Frame)} {queued queued' : Array Bool}
    {left : List Nat} (counted : Counted bound log ⟨frames, queued, q :: left⟩) :
    Counted bound (.taken q :: log) ⟨frames, queued', left⟩ where
  spent := counted.spent
  unrecorded := counted.unrecorded
  visits r := by
    have before := counted.visits r
    simp only [recordings_taken, visits_taken, List.count_cons] at before ⊢
    omega

def Proper (size : Nat) (maxStack : UInt16) (_ : Nat) (f : Frame) : Prop :=
  f.Laid size maxStack ∧ f.Usable size

theorem keeps_proper (values : ∀ h ∈ p.handlers, h.caught.Finished) :
    Keeps c p (Proper size maxStack) := keeps_laid.and (keeps_usable values)

theorem Moment.counted (keeps : Keeps c p (Proper size maxStack)) (start : Proper size maxStack 0 entry)
    (moment : Moment c p entry log stage s) :
    Counted (3 * size + 2 * maxStack.toNat) log s := by
  have arrives {log : List Event} {s t : Flow} {r : Nat} {g : Frame}
      (counted : Counted (3 * size + 2 * maxStack.toNat) log s) (has : s.Has (Proper size maxStack))
      (proper : Proper size maxStack r g) (into : s.flowInto r g = .ok t) :
      Counted (3 * size + 2 * maxStack.toNat) (news r s t ++ log) t :=
    (arrives_of_flowInto into).counted counted (fun q F found => (has q F found).2) proper.2
      (Frame.changes_le proper.1)
  induction moment with
  | start entered => simpa using arrives (counted_empty _) (has_empty _) start entered
  | take _ _ _ ih | pass _ _ ih => exact ih.take
  | skip _ _ ih | leave _ ih => exact ih
  | «catch» earlier inside caught into ih =>
    obtain ⟨has, ⟨here, before, listed⟩, _⟩ := earlier.throughout keeps start
    have first := listed _ List.mem_cons_self
    exact arrives ih has (keeps.caught here before first inside.1 inside.2 caught) into
  | execute _ _ ih => exact ⟨ih.spent, ih.unrecorded, ih.visits⟩
  | lead earlier _ into ih =>
    obtain ⟨has, on, _⟩ := earlier.throughout keeps start
    exact arrives ih has (on _ List.mem_cons_self) into

theorem Counted.recordings_le (counted : Counted bound log s) (q : Nat) :
    (recordings log).count q ≤ 1 + bound := by
  cases found : s.frame? q with
  | none =>
    rw [counted.unrecorded q found]
    exact Nat.zero_le _
  | some f => exact Nat.le_of_add_right_le (counted.spent q f found)

theorem Counted.lt_of_mem_visits (counted : Counted bound log s) (member : q ∈ Flow.visits log) :
    q < s.frames.size := by
  have some : 0 < (Flow.visits log).count q := List.count_pos_iff.mpr member
  have before := counted.visits q
  by_contra outside
  have nothing : s.frame? q = none := by
    rw [frame?, Array.getElem?_eq_none (Nat.le_of_not_lt outside)]
    rfl
  have none := counted.unrecorded q nothing
  omega

theorem Counted.visits_le (counted : Counted bound log s) :
    (Flow.visits log).length ≤ s.frames.size * (1 + bound) :=
  length_le_of_count_le (fun _ => counted.lt_of_mem_visits) fun q =>
    Nat.le_trans (Nat.le_of_add_right_le (counted.visits q)) (counted.recordings_le q)

end Flow

namespace ClassFile

variable {c : ClassFile} {position : Nat} {s : FlowSubject} {p : Program} {entry : Frame}

/-- The analysis of a method comes to an end.  Until then, at most so many frames have been recorded at
any position, and at most so many positions have been taken off the list. -/
theorem bounded_of_starts (starts : c.Starts position s p entry) :
    (∃ log stage flow, Flow.Moment s.context p entry log stage flow ∧
      Flow.Ends s.context p stage flow (Flow.solve s.context p entry)) ∧
    ∀ log stage flow, Flow.Moment s.context p entry log stage flow →
      (∀ q, (Flow.recordings log).count q ≤
        1 + 3 * s.code.maxLocals.toNat + 2 * s.code.maxStack.toNat) ∧
      (Flow.visits log).length ≤
        p.code.size * (1 + 3 * s.code.maxLocals.toNat + 2 * s.code.maxStack.toNat) := by
  refine ⟨Flow.exists_end _ _ _, fun log stage flow moment => ?_⟩
  have keeps : Flow.Keeps s.context p (Flow.Proper s.code.maxLocals.toNat s.code.maxStack) :=
    Flow.keeps_proper (finished_of_programOf starts.program)
  have counted := moment.counted keeps
    ⟨MethodContext.laid_entryFrame starts.entered, MethodContext.usable_entryFrame starts.entered⟩
  rw [Nat.add_assoc, ← moment.size_eq]
  exact ⟨counted.recordings_le, counted.visits_le⟩

theorem bounded_of_starts_merging : ∃ s p entry, merging.Starts 0 s p entry ∧
    (∃ log stage flow, Flow.Moment s.context p entry log stage flow ∧
      Flow.Ends s.context p stage flow (Flow.solve s.context p entry)) ∧
    ∀ log stage flow, Flow.Moment s.context p entry log stage flow →
      (∀ q, (Flow.recordings log).count q ≤
        1 + 3 * s.code.maxLocals.toNat + 2 * s.code.maxStack.toNat) ∧
      (Flow.visits log).length ≤
        p.code.size * (1 + 3 * s.code.maxLocals.toNat + 2 * s.code.maxStack.toNat) := by
  obtain ⟨_, _, _, replayed⟩ := replays_merging.replayed
  obtain ⟨p, entry, starts⟩ := exists_starts replayed.flows.subject replayed.accepted
  exact ⟨_, p, entry, starts, bounded_of_starts starts⟩

end ClassFile

end JvmClass
