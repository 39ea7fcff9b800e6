import JvmClass.Proofs.Results
import JvmClass.Proofs.Verify.Order

/-! Steps on a frame follow steps on a frame above it.  Where the step above succeeds, the one
below succeeds as well and keeps the order, or it fails for one of the reasons that are allowed. -/

namespace JvmClass.Frame

open Width (width)

variable {α β : Type} {P : String → Prop} {E : FlowFault → Prop} {size : Nat} {maxStack : UInt16}
  {f g : Frame} {t u : VType} {R : α → α → Prop} {Q : β → β → Prop}

def Follows (P : String → Prop) (E : FlowFault → Prop) (low high : Step α) (R : α → α → Prop) :
    Prop :=
  ∀ ⦃size maxStack f g b g'⦄, Under P size maxStack f g → high g = .ok b g' →
    (∃ a f', low f = .ok a f' ∧ R a b ∧ Under P size maxStack f' g') ∨
      ∃ e f', low f = .error e f' ∧ E e

/-- An array of primitives was found where the frame above has an object. -/
def Lost (P : String → Prop) (e : FlowFault) : Prop :=
  ∃ n s, e = .incompatible (.object n) (.object s) ∧ VType.Misfit n s ∧ P s

theorem follows_pure {a b : α} (related : R a b) : Follows P E (pure a) (pure b) R := by
  intro size maxStack f g c g' below done
  cases done
  exact .inl ⟨a, f, rfl, related, below⟩

theorem follows_throw (low : Step α) (e : FlowFault) : Follows P E low (throw e) R := by
  intro size maxStack f g c g' below done
  cases done

theorem follows_throw_bind (low : Step β) (e : FlowFault) (next : α → Step β) :
    Follows P E low (throw e >>= next) Q := by
  intro size maxStack f g c g' below done
  cases done

theorem follows_bind {low high : Step α} {next next' : α → Step β}
    (first : Follows P E low high R) (second : ∀ a b, R a b → Follows P E (next a) (next' b) Q) :
    Follows P E (low >>= next) (high >>= next') Q := by
  intro size maxStack f g c h below done
  cases begun : high g with
  | error e g' =>
    rw [bind_of_error begun] at done
    cases done
  | ok b g' =>
    rw [bind_of_ok begun] at done
    obtain ⟨a, f', here, related, below'⟩ | ⟨e, f', here, allowed⟩ := first below begun
    · rw [bind_of_ok here]
      exact second a b related below' done
    · rw [bind_of_error here]
      exact .inr ⟨e, f', rfl, allowed⟩

theorem follows_seq {low high : Step α} {next next' : Step β} (first : Follows P E low high R)
    (second : Follows P E next next' Q) :
    Follows P E (low >>= fun _ => next) (high >>= fun _ => next') Q :=
  follows_bind first fun _ _ _ => second

theorem follows_discard {low high : Step α} (follows : Follows P E low high R) :
    Follows P E (discard low) (discard high) Eq := by
  change Follows P E (low >>= fun _ => pure ()) (high >>= fun _ => pure ()) Eq
  exact follows_seq follows (follows_pure rfl)

theorem follows_liftExcept (x : Except FlowFault α) :
    Follows P E (liftExcept x) (liftExcept x) Eq := by
  cases x with
  | ok a => exact follows_pure rfl
  | error e => exact follows_throw _ e

theorem follows_ite {p q : Prop} [Decidable p] [Decidable q] {low low' high high' : Step α}
    (same : p ↔ q) (first : p → Follows P E low high R) (second : ¬ p → Follows P E low' high' R) :
    Follows P E (if p then low else low') (if q then high else high') R := by
  by_cases holds : p
  · rw [if_pos holds, if_pos (same.mp holds)]
    exact first holds
  · rw [if_neg holds, if_neg (mt same.mpr holds)]
    exact second holds

theorem push_of_room (room : f.height + width t ≤ f.maxStack.toNat) :
    push t f = .ok () (f.withStack (t :: f.stack)) :=
  push_eq_ok_iff.mpr ⟨room, rfl⟩

theorem Under.pushed (below : Under P size maxStack f g) (value : VType.Under P t u) :
    Under P size maxStack (f.withStack (t :: f.stack)) (g.withStack (u :: g.stack)) where
  left := ⟨below.left.locals, below.left.stack⟩
  right := ⟨below.right.locals, below.right.stack⟩
  locals := below.locals
  stack := by
    rw [stack_withStack, stack_withStack]
    exact .cons value below.stack

theorem follows_push (value : VType.Under P t u) : Follows P E (push t) (push u) Eq := by
  intro size maxStack f g _ g' below done
  obtain ⟨room, rfl⟩ := push_eq_ok_iff.mp done
  rw [← below.height_eq, ← value.width_eq, below.right.stack, ← below.left.stack] at room
  exact .inl ⟨(), _, push_of_room room, rfl, below.pushed value⟩

theorem follows_pushAll {ts us : List VType} (values : List.Forall₂ (VType.Under P) ts us) :
    Follows P E (pushAll ts) (pushAll us) Eq := by
  induction values with
  | nil => exact follows_pure rfl
  | cons first _ ih => exact follows_seq (follows_push first) ih

theorem follows_pop : Follows P E pop pop (VType.Under P) := by
  intro size maxStack f g u g' below done
  obtain rfl := pop_eq_ok_iff.mp done
  obtain ⟨left, right, slots, values⟩ := below
  rw [stack_withStack] at values
  cases stack : f.stack with
  | nil =>
    rw [stack] at values
    cases values
  | cons t ts =>
    rw [stack] at values
    cases values with
    | cons first others =>
      refine .inl ⟨t, f.withStack ts, pop_of_cons stack, first, ⟨left.locals, left.stack⟩,
        ⟨right.locals, right.stack⟩, slots, ?_⟩
      rwa [stack_withStack]

theorem follows_popWidth (n : Nat) : Follows P E (popWidth n) (popWidth n) (VType.Under P) := by
  refine follows_bind follows_pop fun t u value => ?_
  rw [value.width_eq]
  exact follows_ite Iff.rfl (fun _ => follows_pure value) fun _ => follows_throw _ _

theorem follows_popAnyReference : Follows P E popAnyReference popAnyReference (VType.Under P) := by
  refine follows_bind follows_pop fun t u value => ?_
  rw [value.isReference_eq]
  exact follows_ite Iff.rfl (fun _ => follows_pure value) fun _ => follows_throw _ _

theorem follows_popReference : Follows P E popReference popReference (VType.Under P) := by
  refine follows_bind follows_pop fun t u value => ?_
  rw [value.isReference_eq, value.isUninitialized_eq]
  refine follows_ite Iff.rfl (fun _ => follows_throw _ _) fun _ => ?_
  exact follows_ite Iff.rfl (fun _ => follows_pure value) fun _ => follows_throw _ _

theorem follows_expecting {low high : Step α} {expected : VType} (value : VType.Under P t u)
    (lost : ∀ n s, expected = .object n → VType.Misfit n s → P s →
      E (.incompatible (.object n) (.object s)))
    (follows : Follows P E low high R) :
    Follows P E (if t.isAssignable expected then low else throw (.incompatible expected t))
      (if u.isAssignable expected then high else throw (.incompatible expected u)) R := by
  intro size maxStack f g b g' below done
  by_cases fits : u.isAssignable expected = true
  · rw [if_pos fits] at done
    obtain assignable | ⟨n, s, rfl, rfl, misfit, kept⟩ := value.isAssignable fits
    · rw [if_pos assignable]
      exact follows below done
    · have unfit : ¬ (VType.object s).isAssignable (.object n) = true :=
        ne_true_of_eq_false misfit.2.1
      rw [if_neg unfit]
      exact .inr ⟨_, f, rfl, lost n s rfl misfit kept⟩
  · rw [if_neg fits] at done
    cases done

theorem follows_popExpecting {expected : VType}
    (lost : ∀ n s, expected = .object n → VType.Misfit n s → P s →
      E (.incompatible (.object n) (.object s))) :
    Follows P E (popExpecting expected) (popExpecting expected) (VType.Under P) :=
  follows_bind follows_pop fun _ _ value => follows_expecting value lost (follows_pure value)

theorem follows_popKind (k : ValueKind) :
    Follows P E (popKind k) (popKind k) (VType.Under P) := by
  cases k with
  | reference => exact follows_popReference
  | _ => exact follows_popExpecting fun n s same => by cases same

theorem follows_forM {step : β → Step Unit} (xs : List β)
    (follows : ∀ x ∈ xs, Follows P E (step x) (step x) Eq) :
    Follows P E (xs.forM step) (xs.forM step) Eq := by
  induction xs with
  | nil => exact follows_pure rfl
  | cons x xs ih =>
    exact follows_seq (follows x List.mem_cons_self)
      (ih fun y member => follows y (List.mem_cons_of_mem x member))

theorem follows_popKinds (ks : List ValueKind) :
    Follows P E (popKinds ks) (popKinds ks) Eq :=
  follows_forM ks.reverse fun k _ => follows_discard (follows_popKind k)

theorem isLoadable_of_covered {expected : VType} (covered : VType.Covered t u)
    (usable : expected ≠ .top) (loads : isLoadable u expected = true) :
    isLoadable t expected = true ∧ VType.Under (fun _ => True) t u := by
  cases covered with
  | unusable => cases expected <;> first | exact absurd rfl usable | cases loads
  | under below =>
    refine ⟨?_, below⟩
    cases expected with
    | object n => exact below.isReference_eq.trans loads
    | top => exact absurd rfl usable
    | _ =>
      obtain rfl := below.eq_of_ne_object (by rintro n rfl; cases loads)
      exact loads

theorem load_eq_ok_iff {slot : UInt16} {expected : VType} {f g : Frame} :
    load slot expected f = .ok t g ↔ slot.toNat + width expected ≤ f.locals.size ∧
      f.locals[slot.toNat]? = some t ∧ isLoadable t expected = true ∧ g = f := by
  unfold load
  by_cases outside : slot.toNat + width expected > f.locals.size
  · rw [if_pos outside]
    exact iff_of_false (by simp) fun inside => Nat.not_le_of_lt outside inside.1
  · rw [if_neg outside, and_iff_right (Nat.le_of_not_lt outside)]
    cases found : f.locals[slot.toNat]? with
    | none => simp
    | some u =>
      by_cases loads : isLoadable u expected = true
      · simp only [loads, if_true, EStateM.Result.ok.injEq, Option.some.injEq]
        constructor
        · rintro ⟨rfl, rfl⟩
          exact ⟨rfl, loads, rfl⟩
        · rintro ⟨rfl, _, rfl⟩
          exact ⟨rfl, rfl⟩
      · simp only [loads]
        refine iff_of_false (by simp) ?_
        rintro ⟨same, loads', _⟩
        exact loads (Option.some.inj same ▸ loads')

theorem follows_load (slot : UInt16) {expected : VType} (usable : expected ≠ .top) :
    Follows P E (load slot expected) (load slot expected) (VType.Under fun _ => True) := by
  intro size maxStack f g u g' below done
  obtain ⟨inside, found, loads, rfl⟩ := load_eq_ok_iff.mp done
  rw [below.right.locals, ← below.left.locals] at inside
  have bound : slot.toNat < f.locals.size :=
    Nat.lt_of_lt_of_le (Nat.lt_add_of_pos_right expected.width_pos) inside
  have here := Array.getElem?_eq_getElem bound
  obtain ⟨loads', value⟩ := isLoadable_of_covered (below.locals _ _ _ here found) usable loads
  exact .inl ⟨_, f, load_eq_ok_iff.mpr ⟨inside, here, loads', rfl⟩, value, below⟩

structure Covers (a b : Array VType) : Prop where
  size : a.size = b.size
  slot : ∀ (i : Nat) t u, a[i]? = some t → b[i]? = some u → VType.Covered t u

variable {a b : Array VType}

theorem Covers.set (covers : Covers a b) (i : Nat) (covered : VType.Covered t u) :
    Covers (a.setIfInBounds i t) (b.setIfInBounds i u) where
  size := by rw [Array.size_setIfInBounds, Array.size_setIfInBounds, covers.size]
  slot j v w here there := by
    rw [Array.getElem?_setIfInBounds] at here there
    by_cases same : i = j
    · rw [if_pos same] at here there
      split at here <;> split at there <;> cases here <;> cases there
      exact covered
    · rw [if_neg same] at here there
      exact covers.slot j v w here there

/-- A slot of the locals below may be given up where the one above is unusable. -/
theorem Covers.set_left (covers : Covers a b) {i : Nat} (unusable : b[i]? = some .top) :
    Covers (a.setIfInBounds i t) b := by
  refine ⟨(Array.size_setIfInBounds).trans covers.size, fun j v w here there => ?_⟩
  rw [Array.getElem?_setIfInBounds] at here
  by_cases same : i = j
  · subst same
    obtain rfl := Option.some.inj (unusable.symm.trans there)
    exact .unusable v
  · rw [if_neg same] at here
    exact covers.slot j v w here there

theorem Covers.breakWide (covers : Covers a b) (i : Nat) :
    Covers (breakWide a i) (breakWide b i) := by
  cases i with
  | zero => exact covers
  | succ i =>
    simp only [Frame.breakWide]
    cases here : a[i]? with
    | none =>
      have outside := Array.getElem?_eq_none_iff.mp here
      rw [covers.size] at outside
      rw [Array.getElem?_eq_none_iff.mpr outside]
      exact covers
    | some t =>
      have bound := (Array.getElem?_eq_some_iff.mp here).1
      rw [covers.size] at bound
      have there := Array.getElem?_eq_getElem bound
      have covered := covers.slot i t _ here there
      rw [there]
      by_cases wide : width b[i] = 2
      · obtain rfl := covered.eq_of_wide wide
        simp only [wide, if_true]
        exact covers.set i (.refl .top)
      · simp only [wide, if_false]
        by_cases wide' : width t = 2
        · rw [if_pos wide']
          have unusable := covered.eq_top_of_wide wide' wide
          rw [unusable] at there
          exact covers.set_left there
        · rw [if_neg wide']
          exact covers

theorem Covers.written (covers : Covers a b) (i : Nat) (value : VType.Under P t u) :
    Covers (written a i t) (written b i u) := by
  have first := (covers.breakWide i).set i (.under value.trivial)
  unfold Frame.written
  rw [value.width_eq]
  split
  · exact first.set (i + 1) (.refl .top)
  · exact first

theorem follows_store (slot : UInt16) (value : VType.Under P t u) :
    Follows P E (store slot t) (store slot u) Eq := by
  intro size maxStack f g _ g' below done
  obtain ⟨locals, stack, room⟩ := f
  obtain ⟨locals', stack', room'⟩ := g
  have covers : Covers locals locals' :=
    ⟨below.left.locals.trans below.right.locals.symm, below.locals⟩
  have stored := covers.written slot.toNat value
  unfold store at done ⊢
  dsimp only at done ⊢
  rw [value.width_eq, covers.size]
  split at done
  · cases done
  · rename_i inside
    cases done
    rw [if_neg inside]
    refine .inl ⟨(), _, rfl, rfl, ⟨?_, below.left.stack⟩, ⟨?_, below.right.stack⟩, stored.slot,
      below.stack⟩
    · rw [size_written]
      exact below.left.locals
    · rw [size_written]
      exact below.right.locals

end JvmClass.Frame
