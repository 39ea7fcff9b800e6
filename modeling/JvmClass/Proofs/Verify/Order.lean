import JvmClass.Proofs.Results
import JvmClass.Verify.Effect

/-! The order of types and of frames in which merging goes up.  A frame on a path stands under the
frame that is recorded where the path has come to.  What merging forgets is that a reference is
null, which class or array it is, and everything about a local that becomes unusable.  Of the
arrays of primitives that are forgotten on the way, a predicate keeps track. -/

namespace JvmClass

open Width (width)

namespace VType

/-- Values of the first type may be taken for values of the second on a stack; the arrays of
primitives that are taken for objects are among those of the predicate. -/
inductive Under (P : String → Prop) : VType → VType → Prop where
  | same (a : VType) : Under P a a
  | null (n : String) : Under P null (object n)
  | rooted (n : String) (kept : isPrimitiveArray n → P n) :
      Under P (object n) (object Name.object)

/-- Locals of the first type may be taken for locals of the second, which may be unusable. -/
inductive Covered : VType → VType → Prop where
  | unusable (a : VType) : Covered a top
  | under {a b : VType} (below : Under (fun _ => True) a b) : Covered a b

variable {P Q : String → Prop} {a b c t : VType}

theorem Under.mono (below : Under P a b) (weaker : ∀ n, P n → Q n) : Under Q a b := by
  cases below with
  | same => exact .same a
  | null n => exact .null n
  | rooted n kept => exact .rooted n fun primitive => weaker n (kept primitive)

theorem Under.trivial (below : Under P a b) : Under (fun _ => True) a b :=
  below.mono fun _ _ => True.intro

theorem Covered.refl (a : VType) : Covered a a := .under (.same a)

theorem Under.trans (first : Under (fun _ => True) a b) (second : Under (fun _ => True) b c) :
    Under (fun _ => True) a c := by
  cases first with
  | same => exact second
  | null n =>
    cases second with
    | same => exact .null n
    | rooted => exact .null _
  | rooted n =>
    cases second with
    | same => exact .rooted n fun _ => True.intro
    | rooted => exact .rooted n fun _ => True.intro

theorem Covered.trans (first : Covered a b) (second : Covered b c) : Covered a c := by
  cases second with
  | unusable => exact .unusable a
  | under second =>
    cases first with
    | under first => exact .under (first.trans second)
    | unusable =>
      cases second
      exact .unusable a

theorem merge_comm (a b : VType) : a.merge b = b.merge a := by
  unfold merge
  by_cases same : a = b
  · rw [if_pos same, if_pos same.symm, same]
  · rw [if_neg same, if_neg (Ne.symm same)]
    cases a <;> cases b <;> rfl

theorem covered_merge_left (a b : VType) : Covered a (a.merge b) := by
  unfold merge
  split
  · exact .refl a
  · split
    · exact .under (.null _)
    · exact .refl _
    · exact .under (.rooted _ fun _ => True.intro)
    · exact .unusable a

theorem covered_merge_right (a b : VType) : Covered b (a.merge b) := by
  rw [merge_comm]
  exact covered_merge_left b a

theorem Under.merged (left : Under (fun _ => True) a c) (right : Under (fun _ => True) b c) :
    Under (fun _ => True) (a.merge b) c := by
  have rooted (n : String) : Under (fun _ => True) (object n) (object Name.object) :=
    .rooted n fun _ => True.intro
  cases left with
  | same =>
    cases right with
    | same =>
      rw [merge_self]
      exact .same _
    | null n => exact .same _
    | rooted n =>
      unfold VType.merge
      split <;> exact .same _
  | null n =>
    cases right with
    | same => exact .same _
    | null => exact .null n
    | rooted m => exact rooted m
  | rooted n =>
    cases right with
    | same =>
      unfold VType.merge
      split
      · exact rooted n
      · exact .same _
    | null => exact rooted n
    | rooted m =>
      unfold VType.merge
      split
      · exact rooted n
      · exact .same _

theorem Covered.merged (left : Covered a c) (right : Covered b c) : Covered (a.merge b) c := by
  cases left with
  | unusable => exact .unusable _
  | under left =>
    cases right with
    | unusable => exact .unusable _
    | under right => exact .under (left.merged right)

theorem Covered.under_of_ne (covered : Covered a b) (usable : b ≠ top) :
    Under (fun _ => True) a b := by
  cases covered with
  | unusable => exact absurd rfl usable
  | under below => exact below

theorem Under.width_eq (below : Under P a b) : width a = width b := by
  cases below <;> rfl

theorem width_pos (a : VType) : 0 < width a := by
  cases a <;> exact Nat.succ_pos _

theorem Under.isReference_eq (below : Under P a b) : a.isReference = b.isReference := by
  cases below <;> rfl

theorem Under.isUninitialized_eq (below : Under P a b) :
    a.isUninitialized = b.isUninitialized := by
  cases below <;> rfl

theorem Under.eq_of_ne_object (below : Under P a b) (other : ∀ n, b ≠ object n) : a = b := by
  cases below with
  | same => rfl
  | null n => exact absurd rfl (other n)
  | rooted n => exact absurd rfl (other Name.object)

theorem Covered.eq_top_of_wide (covered : Covered a b) (wide : width a = 2)
    (narrow : width b ≠ 2) : b = top := by
  cases covered with
  | unusable => rfl
  | under below => exact absurd (below.width_eq.symm.trans wide) narrow

theorem Covered.eq_of_wide (covered : Covered a b) (wide : width b = 2) : a = b := by
  cases covered with
  | unusable => exact absurd wide (by decide)
  | under below =>
    refine below.eq_of_ne_object ?_
    rintro n rfl
    have narrow : (1 : Nat) = 2 := wide
    cases narrow

/-- An array of primitives is found where a class is expected, and an object would have done. -/
def Misfit (n s : String) : Prop :=
  isPrimitiveArray s = true ∧ (object s).isAssignable (object n) = false ∧
    (object Name.object).isAssignable (object n) = true

theorem Under.isAssignable (below : Under P a b) (fits : b.isAssignable t = true) :
    a.isAssignable t = true ∨
      ∃ n s, t = object n ∧ a = object s ∧ Misfit n s ∧ P s := by
  cases below with
  | same => exact .inl fits
  | null n =>
    left
    cases t <;> first | rfl | cases fits
  | rooted s kept =>
    cases t with
    | object n =>
      by_cases assignable : (object s).isAssignable (object n) = true
      · exact .inl assignable
      · have unfit := Bool.eq_false_iff.mpr assignable
        have primitive : isPrimitiveArray s = true := by
          cases plain : isPrimitiveArray s with
          | true => rfl
          | false =>
            have root : isPrimitiveArray Name.object = false := by decide
            simp only [VType.isAssignable, plain, root] at fits unfit
            simp_all
        exact .inr ⟨n, s, rfl, rfl, ⟨primitive, unfit, fits⟩, kept primitive⟩
    | top => exact .inl rfl
    | _ => cases fits

theorem isReference_ofFieldType {f : FieldType} (reference : (ofFieldType f).isReference = true) :
    ∃ n, ofFieldType f = object n := by
  cases f with
  | base b => cases b <;> cases reference
  | ref r => exact ⟨r.className, rfl⟩

theorem component?_root : (object Name.object).component? = none := by decide +kernel

theorem isArrayOf_root (k : ArrayKind) : (object Name.object).isArrayOf k.element = false := by
  cases k <;> decide +kernel

theorem load?_root (k : ArrayKind) : k.load? (object Name.object) = none := by
  cases k with
  | reference => simp [ArrayKind.load?, component?_root]
  | byte => decide +kernel
  | _ => simp only [ArrayKind.load?, isArrayOf_root]; rfl

theorem load?_reference {n : String} (found : ArrayKind.reference.load? (object n) = some t) :
    ∃ m, t = object m := by
  obtain ⟨component, reference⟩ := Option.filter_eq_some_iff.mp found
  simp only [component?] at component
  split at component
  · obtain rfl := Option.some.inj component
    exact isReference_ofFieldType reference
  · cases component

theorem load?_value {k : ArrayKind} (other : k ≠ .reference) (found : k.load? b = some t) :
    t = k.valueType := by
  cases k with
  | reference => exact absurd rfl other
  | _ =>
    simp only [ArrayKind.load?, Option.ite_none_right_eq_some, Option.some.injEq] at found
    exact found.2.symm

theorem load?_null {k : ArrayKind} (other : k ≠ .reference) :
    k.load? null = some k.valueType := by
  cases k with
  | reference => exact absurd rfl other
  | _ => rfl

theorem Under.load? {k : ArrayKind} (below : Under P a b) (found : k.load? b = some t) :
    ∃ u, k.load? a = some u ∧ Under P u t := by
  cases below with
  | same => exact ⟨t, found, .same t⟩
  | rooted n =>
    rw [load?_root] at found
    cases found
  | null n =>
    by_cases other : k = .reference
    · subst other
      obtain ⟨m, rfl⟩ := load?_reference found
      exact ⟨.null, rfl, .null m⟩
    · obtain rfl := load?_value other found
      exact ⟨k.valueType, load?_null other, .same _⟩

theorem Under.isSome_component? (below : Under P a b) (array : b.component?.isSome = true) :
    a.component?.isSome = true := by
  cases below with
  | same => exact array
  | null => rfl
  | rooted =>
    rw [component?_root] at array
    cases array

end VType

namespace Frame

structure Shaped (size : Nat) (maxStack : UInt16) (f : Frame) : Prop where
  locals : f.locals.size = size
  stack : f.maxStack = maxStack

/-- Frames of one shape, the first of which may be taken for the second. -/
structure Under (P : String → Prop) (size : Nat) (maxStack : UInt16) (f g : Frame) : Prop where
  left : Shaped size maxStack f
  right : Shaped size maxStack g
  locals : ∀ (i : Nat) t u, f.locals[i]? = some t → g.locals[i]? = some u → VType.Covered t u
  stack : List.Forall₂ (VType.Under P) f.stack g.stack

variable {P Q : String → Prop} {size : Nat} {maxStack : UInt16} {f g h m : Frame}
  {ts us ms : List VType}

theorem Under.mono (below : Under P size maxStack f g) (weaker : ∀ n, P n → Q n) :
    Under Q size maxStack f g :=
  { below with stack := below.stack.imp fun _ _ here => here.mono weaker }

theorem Under.refl (shaped : Shaped size maxStack f) : Under P size maxStack f f where
  left := shaped
  right := shaped
  locals i t u here there := by
    obtain rfl := Option.some.inj (here.symm.trans there)
    exact .refl t
  stack := List.forall₂_same.mpr fun t _ => .same t

theorem Under.trans (first : Under (fun _ => True) size maxStack f g)
    (second : Under (fun _ => True) size maxStack g h) :
    Under (fun _ => True) size maxStack f h where
  left := first.left
  right := second.right
  locals i t v here there := by
    have inside : i < g.locals.size := by
      have bound := (Array.getElem?_eq_some_iff.mp here).1
      rwa [first.left.locals, ← first.right.locals] at bound
    have middle := Array.getElem?_eq_getElem inside
    exact (first.locals i t _ here middle).trans (second.locals i _ v middle there)
  stack := forall₂_join first.stack.flip second.stack fun _ _ _ _ left right =>
    VType.Under.trans left right

theorem total_width_eq (below : List.Forall₂ (VType.Under P) ts us) :
    total width ts = total width us :=
  total_eq_total_of_forall₂ (below.imp fun _ _ => VType.Under.width_eq)

theorem Under.height_eq (below : Under P size maxStack f g) : f.height = g.height := by
  rw [f.height_eq, g.height_eq]
  exact total_width_eq below.stack

theorem mergeValue_usable {t u v : VType} (merged : mergeValue t u = .ok v) : v ≠ .top := by
  unfold mergeValue at merged
  split at merged
  · cases merged
  · rename_i usable
    cases merged
    exact usable

theorem under_mergeStacks (length : ts.length = us.length) (merged : mergeStacks ts us = .ok ms) :
    List.Forall₂ (VType.Under fun _ => True) ts ms ∧
    List.Forall₂ (VType.Under fun _ => True) us ms := by
  induction ts generalizing us ms with
  | nil =>
    obtain rfl := List.length_eq_zero_iff.mp length.symm
    cases merged
    exact ⟨.nil, .nil⟩
  | cons t ts ih =>
    cases us with
    | nil => cases length
    | cons u us =>
      obtain ⟨rest, others, merged⟩ := bind_eq_ok merged
      obtain ⟨v, first, merged⟩ := bind_eq_ok merged
      cases merged
      have usable := mergeValue_usable first
      obtain rfl := mergeValue_eq first
      obtain ⟨left, right⟩ := ih (Nat.succ.inj length) others
      have low := (VType.covered_merge_left t u).under_of_ne usable
      have low' := (VType.covered_merge_right t u).under_of_ne usable
      exact ⟨.cons low left, .cons low' right⟩

theorem under_merge (shaped : Shaped size maxStack f) (shaped' : Shaped size maxStack g)
    (merged : f.merge g = .ok m) :
    Under (fun _ => True) size maxStack f m ∧ Under (fun _ => True) size maxStack g m := by
  have same := merge_eq merged
  unfold merge at merged
  split at merged
  · rename_i heights
    obtain ⟨stack, merges, _⟩ := bind_eq_ok merged
    have piled := under_mergeStacks heights.1 merges
    rw [← mergeStacks_eq merges] at same
    have values : m.stack = stack := by rw [same, stack_ofStack]
    rw [← values] at piled
    obtain ⟨left, right⟩ := piled
    have locals : m.locals = Array.zipWith VType.merge f.locals g.locals := by rw [same]; rfl
    have shape : Shaped size maxStack m := by
      refine ⟨?_, same ▸ shaped.stack⟩
      rw [locals, Array.size_zipWith, shaped.locals, shaped'.locals, Nat.min_self]
    have merges : ∀ (i : Nat) t u v, f.locals[i]? = some t → g.locals[i]? = some u →
        m.locals[i]? = some v → t.merge u = v := by
      intro i t u v here there both
      rw [locals, Array.getElem?_zipWith, here, there] at both
      exact Option.some.inj both
    have counterpart : ∀ {a b : Frame} (i : Nat) t, Shaped size maxStack a →
        Shaped size maxStack b → a.locals[i]? = some t → ∃ u, b.locals[i]? = some u := by
      intro a b i t here there found
      have bound := (Array.getElem?_eq_some_iff.mp found).1
      rw [here.locals, ← there.locals] at bound
      exact ⟨_, Array.getElem?_eq_getElem bound⟩
    refine ⟨⟨shaped, shape, ?_, left⟩, ⟨shaped', shape, ?_, right⟩⟩
    · intro i t v here both
      obtain ⟨u, there⟩ := counterpart i t shaped shaped' here
      rw [← merges i t u v here there both]
      exact VType.covered_merge_left t u
    · intro i u v there both
      obtain ⟨t, here⟩ := counterpart i u shaped' shaped there
      rw [← merges i t u v here there both]
      exact VType.covered_merge_right t u
  · cases merged

theorem Under.merged (left : Under (fun _ => True) size maxStack f h)
    (right : Under (fun _ => True) size maxStack g h) (merged : f.merge g = .ok m) :
    Under (fun _ => True) size maxStack m h := by
  obtain rfl := merge_eq merged
  refine ⟨⟨?_, left.left.stack⟩, left.right, fun i v w here there => ?_, ?_⟩
  · rw [locals_ofStack, Array.size_zipWith, left.left.locals, right.left.locals, Nat.min_self]
  · rw [locals_ofStack, Array.getElem?_zipWith] at here
    cases first : f.locals[i]? with
    | none => simp [first] at here
    | some t =>
      cases second : g.locals[i]? with
      | none => simp [first, second] at here
      | some u =>
        simp only [first, second] at here
        cases here
        exact (left.locals i t w first there).merged (right.locals i u w second there)
  · obtain ⟨_, _, _, lefts⟩ := left
    obtain ⟨_, _, _, rights⟩ := right
    rw [stack_ofStack]
    generalize f.stack = ts, g.stack = us, h.stack = ws at lefts rights
    induction lefts generalizing us with
    | nil =>
      cases rights
      exact .nil
    | cons first _ ih =>
      cases rights with
      | cons second others => exact .cons (first.merged second) (ih _ others)

end Frame

end JvmClass
