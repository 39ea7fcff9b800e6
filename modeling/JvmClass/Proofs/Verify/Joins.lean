import JvmClass.Proofs.Verify.Order
import Mathlib.Data.List.Chain

/-! The laws of merging.  For types it is the join of the order in which they cover each other, and
no type can go up more than three times.  Frames do not always have a join, since no value of a stack
may become unusable, but whether several frames have one, and which, does not hang on the order in
which they are taken. -/

namespace JvmClass

open Width (width)

namespace VType

variable {a b c : VType}

theorem Covered.merge_eq (covered : Covered a b) : b.merge a = b := by
  cases covered with
  | unusable => cases a <;> rfl
  | under below =>
    cases below with
    | same => exact merge_self a
    | null => rfl
    | rooted n =>
      unfold VType.merge
      split <;> rfl

theorem Covered.antisymm (left : Covered a b) (right : Covered b a) : a = b := by
  rw [← right.merge_eq, merge_comm, left.merge_eq]

theorem merge_assoc (a b c : VType) : (a.merge b).merge c = a.merge (b.merge c) := by
  have left := covered_merge_left a (b.merge c)
  have right := covered_merge_right a (b.merge c)
  have left' := covered_merge_left (a.merge b) c
  have right' := covered_merge_right (a.merge b) c
  have middle := (covered_merge_left b c).trans right
  have middle' := (covered_merge_right a b).trans left'
  have last := (covered_merge_right b c).trans right
  have first := (covered_merge_left a b).trans left'
  exact ((left.merged middle).merged last).antisymm (first.merged (middle'.merged right'))

/-- The second type is another one that the first merges into. -/
def Rises (a b : VType) : Prop := a.merge b = b ∧ a ≠ b

instance (a b : VType) : Decidable (a.Rises b) := inferInstanceAs (Decidable (_ ∧ _))

theorem Rises.room_lt (rises : a.Rises b) : b.room < a.room := by
  obtain ⟨merged, other⟩ := rises
  have changed : a.merge b ≠ a := by
    rw [merged]
    exact other.symm
  simpa only [merged] using room_merge_lt changed

theorem room_le (a : VType) : a.room ≤ 3 := by
  unfold room
  split
  · omega
  · omega
  · split <;> omega
  · omega

theorem length_le_of_rising {ts : List VType} (rising : ts.IsChain Rises) : ts.length ≤ 4 := by
  have short (a : VType) (ts : List VType) (rising : (a :: ts).IsChain Rises) :
      ts.length ≤ a.room := by
    induction ts generalizing a with
    | nil => exact Nat.zero_le _
    | cons b ts ih =>
      obtain ⟨rises, others⟩ := List.isChain_cons_cons.mp rising
      have less := rises.room_lt
      have rest := ih b others
      rw [List.length_cons]
      omega
  cases ts with
  | nil => decide
  | cons a ts =>
    have steps := short a ts rising
    have room := room_le a
    rw [List.length_cons]
    omega

theorem Covered.isAssignable (covered : Covered a b) : a.isAssignable b = true := by
  cases covered with
  | unusable => cases a <;> rfl
  | under below =>
    cases below with
    | same => cases a <;> simp [VType.isAssignable]
    | null => rfl
    | rooted n => simp [VType.isAssignable]

/-- Values of both types can stand in the same place of a stack. -/
def Meets (a b : VType) : Prop := a.merge b ≠ top

theorem meets_comm : Meets a b ↔ Meets b a := by
  rw [Meets, Meets, merge_comm]

theorem meets_self : Meets a a ↔ a ≠ top := by
  rw [Meets, merge_self]

theorem top_merge (a : VType) : top.merge a = top := (Covered.unusable a).merge_eq

theorem Meets.ne_top (meets : Meets a b) : a ≠ top := by
  rintro rfl
  exact meets (top_merge b)

theorem Meets.width_eq (meets : Meets a b) : width a = width b := by
  have left := ((covered_merge_left a b).under_of_ne meets).width_eq
  have right := ((covered_merge_right a b).under_of_ne meets).width_eq
  exact left.trans right.symm

theorem meets_assoc : Meets a b ∧ Meets (a.merge b) c ↔ Meets b c ∧ Meets a (b.merge c) := by
  have same : Meets (a.merge b) c ↔ Meets a (b.merge c) := by
    rw [Meets, Meets, merge_assoc]
  constructor
  · rintro ⟨_, all⟩
    exact ⟨(meets_comm.mp (same.mp all)).ne_top, same.mp all⟩
  · rintro ⟨_, all⟩
    exact ⟨(same.mpr all).ne_top, same.mpr all⟩

end VType

namespace Frame

variable {f g h m : Frame} {ts us vs ms : List VType}

theorem mergeValue_eq_ok_iff {t u v : VType} :
    mergeValue t u = .ok v ↔ t.Meets u ∧ v = t.merge u := by
  unfold mergeValue VType.Meets
  split <;> simp_all [eq_comm]

theorem mergeStacks_eq_ok_iff (same : ts.length = us.length) : mergeStacks ts us = .ok ms ↔
    List.Forall₂ VType.Meets ts us ∧ ms = ts.zipWith VType.merge us := by
  induction ts generalizing us ms with
  | nil =>
    obtain rfl := List.length_eq_zero_iff.mp same.symm
    simp [mergeStacks, eq_comm]
  | cons t ts ih =>
    cases us with
    | nil => cases same
    | cons u us =>
      simp only [mergeStacks, bind_eq_ok_iff, ih (Nat.succ.inj same), mergeValue_eq_ok_iff]
      simp [pure, Except.pure]
      grind

theorem meets_stacks_assoc :
    List.Forall₂ VType.Meets ts us ∧ List.Forall₂ VType.Meets (ts.zipWith VType.merge us) vs ↔
    List.Forall₂ VType.Meets us vs ∧ List.Forall₂ VType.Meets ts (us.zipWith VType.merge vs) := by
  induction ts generalizing us vs with
  | nil => cases us <;> cases vs <;> simp
  | cons t ts ih =>
    cases us with
    | nil => cases vs <;> simp
    | cons u us =>
      cases vs with
      | nil => simp
      | cons v vs =>
        have first : t.Meets u ∧ (t.merge u).Meets v ↔ u.Meets v ∧ t.Meets (u.merge v) :=
          VType.meets_assoc
        have others := @ih us vs
        simp only [List.zipWith_cons_cons, List.forall₂_cons]
        grind

theorem zipWith_merge_assoc (ts us vs : List VType) :
    (ts.zipWith VType.merge us).zipWith VType.merge vs =
      ts.zipWith VType.merge (us.zipWith VType.merge vs) := by
  induction ts generalizing us vs with
  | nil => rfl
  | cons t ts ih =>
    cases us with
    | nil => rfl
    | cons u us =>
      cases vs with
      | nil => rfl
      | cons v vs => simp only [List.zipWith_cons_cons, ih, VType.merge_assoc]

def Meets (f g : Frame) : Prop := List.Forall₂ VType.Meets f.stack g.stack

/-- What two frames merge into if they do. -/
def join (f g : Frame) : Frame :=
  .ofStack (Array.zipWith VType.merge f.locals g.locals) (f.stack.zipWith VType.merge g.stack)
    f.maxStack

@[simp] theorem stack_join (f g : Frame) :
    (f.join g).stack = f.stack.zipWith VType.merge g.stack := stack_ofStack ..

theorem merge_eq_ok_iff : f.merge g = .ok m ↔ f.Meets g ∧ m = f.join g := by
  unfold merge
  split
  · rename_i heights
    simp only [bind_eq_ok_iff, mergeStacks_eq_ok_iff heights.1]
    simp [pure, Except.pure, Meets, join]
    grind
  · rename_i differ
    refine iff_of_false nofun fun ⟨meets, _⟩ => ?_
    have widths : List.Forall₂ (fun t u => width t = width u) f.stack g.stack :=
      meets.imp fun _ _ => VType.Meets.width_eq
    rw [f.height_eq, g.height_eq] at differ
    exact differ ⟨meets.length_eq, total_eq_total_of_forall₂ widths⟩

theorem Meets.symm (meets : f.Meets g) : g.Meets f :=
  .flip (meets.imp fun _ _ => VType.meets_comm.mp)

theorem meets_self_iff : f.Meets f ↔ ∀ t ∈ f.stack, t ≠ .top := by
  simp only [Meets, List.forall₂_same, VType.meets_self]

theorem meets_assoc : f.Meets g ∧ (f.join g).Meets h ↔ g.Meets h ∧ f.Meets (g.join h) := by
  simp only [Meets, stack_join]
  exact meets_stacks_assoc

theorem join_comm (f g : Frame) : f.join g = { g.join f with maxStack := f.maxStack } := by
  rw [join, join, Array.zipWith_comm, List.zipWith_comm]
  simp only [VType.merge_comm]
  rfl

theorem join_assoc (f g h : Frame) : (f.join g).join h = f.join (g.join h) := by
  refine ext_stack (Array.toList_inj.mp ?_) ?_ rfl
  · change ((Array.zipWith _ (Array.zipWith _ f.locals g.locals) h.locals).toList =
      (Array.zipWith _ f.locals (Array.zipWith _ g.locals h.locals)).toList)
    simp only [Array.toList_zipWith, zipWith_merge_assoc]
  · simp only [stack_join, zipWith_merge_assoc]

theorem join_self (f : Frame) : f.join f = f := by
  refine ext_stack ?_ ?_ rfl
  · change Array.zipWith _ f.locals f.locals = f.locals
    simp [VType.merge_self]
  · simp [VType.merge_self]

/-- Frames merge in either order, and what they merge into differs in the limit of the stack alone,
which is that of the frame on the left. -/
theorem merge_comm_iff : f.merge g = .ok m ↔
    m.maxStack = f.maxStack ∧ g.merge f = .ok { m with maxStack := g.maxStack } := by
  have either : f.Meets g ↔ g.Meets f := ⟨Meets.symm, Meets.symm⟩
  have same : m = { g.join f with maxStack := f.maxStack } ↔
      m.maxStack = f.maxStack ∧ { m with maxStack := g.maxStack } = g.join f := by
    constructor
    · rintro rfl
      exact ⟨rfl, rfl⟩
    · rintro ⟨limit, rest⟩
      rw [← rest, ← limit]
  rw [merge_eq_ok_iff, merge_eq_ok_iff, either, join_comm f g, same]
  exact and_left_comm

theorem merge_assoc_iff :
    (f.merge g >>= fun p => p.merge h) = .ok m ↔ (g.merge h >>= fun p => f.merge p) = .ok m := by
  simp only [bind_eq_ok_iff, merge_eq_ok_iff]
  have grouped := meets_assoc (f := f) (g := g) (h := h)
  have same := join_assoc f g h
  grind

theorem merge_self_iff : f.merge f = .ok f ↔ ∀ t ∈ f.stack, t ≠ .top := by
  rw [merge_eq_ok_iff, join_self, meets_self_iff]
  exact and_iff_left rfl

theorem Meets.merge_self (meets : f.Meets g) : g.merge g = .ok g := by
  rw [merge_self_iff]
  intro t member
  obtain ⟨u, _, fits⟩ := exists_left_of_forall₂ meets member
  exact (VType.meets_comm.mp fits).ne_top

theorem merge_absorbs_right (merged : f.merge g = .ok m) : m.merge g = .ok m := by
  have again : (g.merge g >>= fun p => f.merge p) = .ok m := by
    rw [(merge_eq_ok_iff.mp merged).1.merge_self]
    exact merged
  have grouped := merge_assoc_iff.mpr again
  rwa [merged] at grouped

theorem merge_absorbs_left (merged : f.merge g = .ok m) : m.merge f = .ok m := by
  have swapped := (merge_comm_iff.mp merged).2
  obtain ⟨meets, same⟩ := merge_eq_ok_iff.mp (merge_absorbs_right swapped)
  -- The two frames differ in the limit of the stack, of which neither side of the merge takes notice.
  exact merge_eq_ok_iff.mpr ⟨meets, congrArg (fun p => { p with maxStack := m.maxStack }) same⟩

/-- Merging is a join.  On types it is idempotent, commutative and associative, no more than four
types rise one above the other, and values of a type can be taken for what it merges into.  Frames
merge in either order and in either grouping, where both ways fail together; what they merge into has
both of them in it already, and a frame on whose stack everything is usable merges into itself.  The
limit of the stack is always that of the frame on the left, so the order counts for frames that have
different limits, and for no others. -/
theorem merge_joins (a b c : VType) {ts : List VType} (rising : ts.IsChain VType.Rises)
    (f g h : Frame) :
    (a.merge a = a ∧ a.merge b = b.merge a ∧ (a.merge b).merge c = a.merge (b.merge c) ∧
      ts.length ≤ 4 ∧ a.isAssignable (a.merge b) = true) ∧
    (∀ m, f.merge g = .ok m ↔
      m.maxStack = f.maxStack ∧ g.merge f = .ok { m with maxStack := g.maxStack }) ∧
    (f.maxStack = g.maxStack → ∀ m, f.merge g = .ok m ↔ g.merge f = .ok m) ∧
    (∀ m, (f.merge g >>= fun p => p.merge h) = .ok m ↔
      (g.merge h >>= fun p => f.merge p) = .ok m) ∧
    (∀ m, f.merge g = .ok m → m.merge f = .ok m ∧ m.merge g = .ok m) ∧
    ((∀ t ∈ f.stack, t ≠ .top) → f.merge f = .ok f) := by
  have assignable := (VType.covered_merge_left a b).isAssignable
  refine ⟨⟨VType.merge_self a, VType.merge_comm a b, VType.merge_assoc a b c,
    VType.length_le_of_rising rising, assignable⟩, fun m => merge_comm_iff, fun limits m => ?_,
    fun m => merge_assoc_iff, fun m merged => ?_, merge_self_iff.mpr⟩
  · have limit {p q : Frame} (merged : p.merge q = .ok m) : m.maxStack = p.maxStack :=
      (merge_comm_iff.mp merged).1
    constructor
    · intro merged
      have swapped := (merge_comm_iff.mp merged).2
      rwa [← limits, ← limit merged] at swapped
    · intro merged
      have swapped := (merge_comm_iff.mp merged).2
      rwa [limits, ← limit merged] at swapped
  · exact ⟨merge_absorbs_left merged, merge_absorbs_right merged⟩

/-- Where one path has a number and null, and another one has a fraction and an object. -/
theorem merge_joins_paths :
    let rising := [VType.null, .object "a/B", .object Name.object, .top]
    let f := ofStack #[.int, .object "a/B"] [.null] 2
    let g := ofStack #[.float, .object "a/C"] [.object "a/D"] 2
    let m := ofStack #[.top, .object Name.object] [.object "a/D"] 2
    rising.IsChain VType.Rises ∧ rising.length ≤ 4 ∧ f.merge g = .ok m ∧ g.merge f = .ok m ∧
      m.merge f = .ok m ∧ f.merge f = .ok f := by
  intro rising f g m
  have chain : rising.IsChain VType.Rises := by decide +kernel
  have merged : f.merge g = .ok m := by decide +kernel
  have usable : ∀ t ∈ f.stack, t ≠ .top := by decide +kernel
  obtain ⟨⟨_, _, _, short, _⟩, _, either, _, absorbs, self⟩ :=
    merge_joins .null .int .top chain f g f
  exact ⟨chain, short, merged, (either rfl _).mp merged, (absorbs _ merged).1, self usable⟩

/-- Frames with room for one value and with room for two do not merge into the same in both orders. -/
theorem merge_keeps_limit : ¬ ∀ f g : Frame, f.locals.size = g.locals.size →
    (∀ t ∈ f.stack, t ≠ .top) → (∀ t ∈ g.stack, t ≠ .top) →
      ∀ m, f.merge g = .ok m ↔ g.merge f = .ok m := by
  intro commutes
  have merged : merge (.empty 0 1) (.empty 0 2) = .ok (.empty 0 1) := by decide +kernel
  have other : merge (.empty 0 2) (.empty 0 1) ≠ .ok (.empty 0 1) := by decide +kernel
  have usable (limit : UInt16) : ∀ t ∈ (Frame.empty 0 limit).stack, t ≠ .top :=
    fun t member => absurd member List.not_mem_nil
  exact other ((commutes (.empty 0 1) (.empty 0 2) rfl (usable 1) (usable 2) _).mp merged)

end Frame

end JvmClass
