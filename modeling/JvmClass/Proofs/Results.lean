import JvmClass.Total
import JvmClass.Wire.Input
import Mathlib.Data.List.Forall2

/-! Steps that may fail, taken along a list. -/

namespace JvmClass

variable {ε α β : Type}

theorem mapError_eq_ok_iff {ε' : Type} {f : ε → ε'} {x : Except ε α} {a : α} :
    x.mapError f = .ok a ↔ x = .ok a := by
  cases x <;> simp [Except.mapError]

theorem map_eq_ok_iff {f : α → β} {x : Except ε α} {b : β} :
    x.map f = .ok b ↔ ∃ a, x = .ok a ∧ f a = b := by
  cases x <;> simp [Except.map]

theorem map_eq_ok_iff_of_onto {f : α → β} {x : Except ε α} {Q : β → Prop} {b : β}
    (reads : ∀ a, x = .ok a ↔ Q (f a)) (onto : ∀ b, Q b → ∃ a, f a = b) :
    x.map f = .ok b ↔ Q b := by
  rw [map_eq_ok_iff]
  constructor
  · rintro ⟨a, read, rfl⟩
    exact (reads a).mp read
  · intro holds
    obtain ⟨a, rfl⟩ := onto b holds
    exact ⟨a, (reads a).mpr holds, rfl⟩

theorem bind_eq_ok_iff {x : Except ε α} {f : α → Except ε β} {b : β} :
    (x >>= f) = .ok b ↔ ∃ a, x = .ok a ∧ f a = .ok b :=
  ⟨bind_eq_ok, fun ⟨a, first, second⟩ => by rw [first]; exact second⟩

theorem ite_bind_eq_ok_iff {p : Prop} [Decidable p] {x : Except ε Unit} {next : Unit → Except ε β}
    {b : β} : (if p then x >>= next else next ()) = .ok b ↔ (p → x = .ok ()) ∧ next () = .ok b := by
  split
  · rename_i holds
    simp only [bind_eq_ok_iff, holds, true_implies]
    exact ⟨fun ⟨(), first, second⟩ => ⟨first, second⟩, fun ⟨first, second⟩ => ⟨(), first, second⟩⟩
  · rename_i fails
    simp only [fails, false_implies, true_and]

theorem ite_throw_bind_eq_ok_iff {p : Prop} [Decidable p] {e : ε} {next : Unit → Except ε β}
    {b : β} : (if p then throw e >>= next else next ()) = .ok b ↔ ¬ p ∧ next () = .ok b :=
  ite_bind_eq_ok_iff.trans <| and_congr_left'
    ⟨fun fails holds => (by cases fails holds), fun fails holds => absurd holds fails⟩

theorem bind_eq_error_iff {x : Except ε α} {f : α → Except ε β} {e : ε} :
    (x >>= f) = .error e ↔ x = .error e ∨ ∃ a, x = .ok a ∧ f a = .error e := by
  cases x with
  | error e' =>
    constructor
    · intro same
      cases same
      exact .inl rfl
    · rintro (same | ⟨_, same, _⟩)
      · cases same
        rfl
      · cases same
  | ok a =>
    constructor
    · exact fun failed => .inr ⟨a, rfl, failed⟩
    · rintro (same | ⟨_, same, failed⟩)
      · cases same
      · cases same
        exact failed

theorem bind_of_ok {σ : Type} {step : EStateM ε σ α} {next : α → EStateM ε σ β} {a : α} {s t : σ}
    (done : step s = .ok a t) : (step >>= next) s = next a t := by
  change EStateM.bind step next s = _
  rw [EStateM.bind, done]

theorem bind_of_error {σ : Type} {step : EStateM ε σ α} {next : α → EStateM ε σ β} {e : ε}
    {s t : σ} (failed : step s = .error e t) : (step >>= next) s = .error e t := by
  change EStateM.bind step next s = _
  rw [EStateM.bind, failed]

theorem run_bind_eq_ok {σ : Type} {step : EStateM ε σ α} {next : α → EStateM ε σ β} {s u : σ}
    {b : β} (done : (step >>= next) s = .ok b u) :
    ∃ a t, step s = .ok a t ∧ next a t = .ok b u := by
  cases first : step s with
  | error e t =>
    rw [bind_of_error first] at done
    cases done
  | ok a t =>
    rw [bind_of_ok first] at done
    exact ⟨a, t, rfl, done⟩

/-- What a step leaves, whether it succeeds or fails. -/
def left {σ : Type} (step : EStateM ε σ α) (s : σ) : σ :=
  match step s with
  | .ok _ t => t
  | .error _ t => t

theorem left_bind {σ : Type} (step : EStateM ε σ α) (next : α → EStateM ε σ β) (s : σ) :
    left (step >>= next) s =
      match step s with
      | .ok a t => left (next a) t
      | .error _ t => t := by
  simp only [left, bind, EStateM.bind]
  cases step s <;> rfl

/-- From every state the step leads to one that the relation holds with. -/
def Leads {σ : Type} (R : σ → σ → Prop) (step : EStateM ε σ α) : Prop := ∀ s, R s (left step s)

section Leads

variable {σ : Type} {R : σ → σ → Prop} {step : EStateM ε σ α} {next : α → EStateM ε σ β}

theorem leads_pure (refl : ∀ s, R s s) (a : α) : Leads R (pure a : EStateM ε σ α) := refl

theorem leads_liftExcept (refl : ∀ s, R s s) (x : Except ε α) :
    Leads R (liftExcept x : EStateM ε σ α) := by
  intro s
  cases x <;> exact refl s

theorem leads_bind (trans : ∀ s t u, R s t → R t u → R s u) (first : Leads R step)
    (second : ∀ a, Leads R (next a)) : Leads R (step >>= next) := by
  intro s
  have before := first s
  unfold left at before
  rw [left_bind]
  cases ran : step s with
  | error e t =>
    rw [ran] at before
    exact before
  | ok a t =>
    rw [ran] at before
    exact trans s t _ before (second a t)

end Leads

theorem liftExcept_eq_ok_iff {σ : Type} {x : Except ε α} {a : α} {s t : σ} :
    (liftExcept x : EStateM ε σ α) s = .ok a t ↔ x = .ok a ∧ s = t := by
  cases x with
  | error e => exact iff_of_false (fun same => by cases same) fun both => by cases both.1
  | ok b =>
    constructor
    · intro same
      cases same
      exact ⟨rfl, rfl⟩
    · rintro ⟨same, rfl⟩
      cases same
      rfl

theorem exists_right_of_forall₂ {R : α → β → Prop} {as : List α} {bs : List β}
    (related : List.Forall₂ R as bs) {a : α} (member : a ∈ as) : ∃ b ∈ bs, R a b := by
  induction related with
  | nil => exact absurd member List.not_mem_nil
  | cons first _ ih =>
    obtain rfl | member := List.mem_cons.mp member
    · exact ⟨_, List.mem_cons_self, first⟩
    · obtain ⟨b, found, same⟩ := ih member
      exact ⟨b, List.mem_cons_of_mem _ found, same⟩

theorem exists_left_of_forall₂ {R : α → β → Prop} {as : List α} {bs : List β}
    (related : List.Forall₂ R as bs) {b : β} (member : b ∈ bs) : ∃ a ∈ as, R a b :=
  exists_right_of_forall₂ (R := flip R) related.flip member

theorem forall₂_join {γ : Type} {R : α → β → Prop} {S : α → γ → Prop} {T : β → γ → Prop}
    {as : List α} {bs : List β} {cs : List γ} (first : List.Forall₂ R as bs)
    (second : List.Forall₂ S as cs) (join : ∀ a b c, a ∈ as → R a b → S a c → T b c) :
    List.Forall₂ T bs cs := by
  induction first generalizing cs with
  | nil =>
    cases second
    exact .nil
  | cons here _ ih =>
    cases second with
    | cons there second =>
      refine .cons (join _ _ _ List.mem_cons_self here there) (ih second ?_)
      exact fun a b c member => join a b c (List.mem_cons_of_mem _ member)

theorem eq_of_forall₂ {R : α → β → Prop} {S : β → α → Prop} {as as' : List α}
    {bs : List β} (there : List.Forall₂ R as bs) (back : List.Forall₂ S bs as')
    (same : ∀ a b a', R a b → S b a' → a = a') : as = as' := by
  have each : List.Forall₂ Eq as as' :=
    forall₂_join there.flip back fun b a a' _ there back => same a b a' there back
  rwa [List.forall₂_eq_eq_eq] at each

theorem isEmpty_eq_of_forall₂ {R : α → β → Prop} {as : List α} {bs : List β}
    (related : List.Forall₂ R as bs) : as.isEmpty = bs.isEmpty := by
  cases related <;> rfl

theorem forall₂_zip {γ : Type} {R : α → β → Prop} {S : α → γ → Prop} {as : List α} {bs : List β}
    {cs : List γ} (first : List.Forall₂ R as bs) (second : List.Forall₂ S as cs) :
    List.Forall₂ (fun a p => R a p.1 ∧ S a p.2) as (bs.zip cs) := by
  induction first generalizing cs with
  | nil =>
    cases second
    exact .nil
  | cons here _ ih =>
    cases second with
    | cons there second => exact .cons ⟨here, there⟩ (ih second)

theorem map_eq_map_of_forall₂ {γ : Type} {f : α → γ} {g : β → γ} {as : List α} {bs : List β}
    (related : List.Forall₂ (fun a b => f a = g b) as bs) : as.map f = bs.map g := by
  induction related with
  | nil => rfl
  | cons first _ ih => rw [List.map_cons, List.map_cons, first, ih]

theorem total_eq_total_of_forall₂ {f : α → Nat} {g : β → Nat} {as : List α} {bs : List β}
    (related : List.Forall₂ (fun a b => f a = g b) as bs) : total f as = total g bs := by
  induction related with
  | nil => rfl
  | cons first _ ih => rw [total_cons, total_cons, first, ih]

theorem getElem?_of_forall₂ {R : α → β → Prop} {as : List α} {bs : List β} {k : Nat} {a : α}
    (related : List.Forall₂ R as bs) (here : as[k]? = some a) : ∃ b, bs[k]? = some b ∧ R a b := by
  induction related generalizing k with
  | nil => simp at here
  | cons first _ ih =>
    cases k with
    | zero =>
      cases here
      exact ⟨_, rfl, first⟩
    | succ k => exact ih here

theorem mapM_eq_ok_iff {f : α → Except ε β} {as : List α} {bs : List β} :
    as.mapM f = .ok bs ↔ List.Forall₂ (fun a b => f a = .ok b) as bs := by
  induction as generalizing bs with
  | nil =>
    rw [List.mapM_nil, List.forall₂_nil_left_iff]
    exact ⟨fun h => (Except.ok.inj h).symm, fun h => congrArg _ h.symm⟩
  | cons a as ih =>
    rw [List.mapM_cons]
    constructor
    · intro h
      obtain ⟨b, first, h⟩ := bind_eq_ok h
      obtain ⟨bs, others, h⟩ := bind_eq_ok h
      cases h
      exact .cons first (ih.mp others)
    · intro h
      cases h with
      | cons first others => rw [first, ih.mpr others]; rfl

theorem exists_mapM {f : α → Except ε β} {as : List α} (each : ∀ a ∈ as, ∃ b, f a = .ok b) :
    ∃ bs, as.mapM f = .ok bs := by
  induction as with
  | nil => exact ⟨[], mapM_eq_ok_iff.mpr .nil⟩
  | cons a as ih =>
    obtain ⟨⟨b, first⟩, others⟩ := List.forall_mem_cons.mp each
    obtain ⟨bs, rest⟩ := ih others
    exact ⟨b :: bs, mapM_eq_ok_iff.mpr (.cons first (mapM_eq_ok_iff.mp rest))⟩

/-- What fails along a list fails at one element, and does not at the elements before it. -/
theorem mapM_eq_error_iff {f : α → Except ε β} {as : List α} {e : ε} :
    as.mapM f = .error e ↔ ∃ before a after,
      as = before ++ a :: after ∧ (∀ b ∈ before, ∃ c, f b = .ok c) ∧ f a = .error e := by
  induction as with
  | nil =>
    refine iff_of_false nofun ?_
    rintro ⟨before, a, after, same, _⟩
    cases before <;> cases same
  | cons x as ih =>
    rw [List.mapM_cons, bind_eq_error_iff]
    constructor
    · rintro (here | ⟨c, first, later⟩)
      · exact ⟨[], x, as, rfl, List.forall_mem_nil _, here⟩
      · obtain later | ⟨_, _, later⟩ := bind_eq_error_iff.mp later
        · obtain ⟨before, a, after, rfl, passed, failed⟩ := ih.mp later
          exact ⟨x :: before, a, after, rfl, List.forall_mem_cons.mpr ⟨⟨c, first⟩, passed⟩, failed⟩
        · cases later
    · rintro ⟨_ | ⟨y, before⟩, a, after, same, passed, failed⟩
      · cases same
        exact .inl failed
      · cases same
        obtain ⟨⟨c, first⟩, passed⟩ := List.forall_mem_cons.mp passed
        refine .inr ⟨c, first, bind_eq_error_iff.mpr (.inl ?_)⟩
        exact ih.mpr ⟨before, a, after, rfl, passed, failed⟩

theorem forM_eq_ok_iff {f : α → Except ε Unit} {as : List α} :
    as.forM f = .ok () ↔ ∀ a ∈ as, f a = .ok () := by
  induction as with
  | nil => exact iff_of_true rfl fun a member => absurd member List.not_mem_nil
  | cons a as ih =>
    change (f a >>= fun _ => as.forM f) = .ok () ↔ _
    rw [List.forall_mem_cons, ← ih]
    cases f a with
    | error e => exact iff_of_false (fun same => by cases same) fun both => by cases both.1
    | ok u => exact (and_iff_right rfl).symm

theorem foldlM_preserves {P : β → Prop} {f : β → α → Except ε β} {as : List α} {b c : β}
    (step : ∀ b a c, P b → f b a = .ok c → P c) (start : P b) (done : as.foldlM f b = .ok c) :
    P c := by
  induction as generalizing b with
  | nil =>
    cases done
    exact start
  | cons a as ih =>
    rw [List.foldlM_cons] at done
    obtain ⟨d, first, done⟩ := bind_eq_ok done
    exact ih (step b a d start first) done

/-- What fails along a list fails at one step, and all steps before it succeed. -/
theorem foldlM_eq_error_iff {f : β → α → Except ε β} {as : List α} {b : β} {e : ε} :
    as.foldlM f b = .error e ↔ ∃ before a after c,
      as = before ++ a :: after ∧ before.foldlM f b = .ok c ∧ f c a = .error e := by
  induction as generalizing b with
  | nil =>
    refine iff_of_false nofun ?_
    rintro ⟨before, a, after, c, same, _⟩
    cases before <;> cases same
  | cons x as ih =>
    rw [List.foldlM_cons, bind_eq_error_iff]
    constructor
    · rintro (here | ⟨d, first, later⟩)
      · exact ⟨[], x, as, b, rfl, rfl, here⟩
      · obtain ⟨before, a, after, c, rfl, ran, failed⟩ := ih.mp later
        refine ⟨x :: before, a, after, c, rfl, ?_, failed⟩
        rw [List.foldlM_cons, first]
        exact ran
    · rintro ⟨_ | ⟨y, before⟩, a, after, c, same, ran, failed⟩
      · cases same
        cases ran
        exact .inl failed
      · cases same
        rw [List.foldlM_cons] at ran
        obtain ⟨d, first, ran⟩ := bind_eq_ok ran
        exact .inr ⟨d, first, ih.mpr ⟨before, a, after, c, rfl, ran, failed⟩⟩

theorem forM_congr_of_forall₂ {m : Type → Type} [Monad m] {R : α → β → Prop} {as : List α}
    {bs : List β} {f : α → m Unit} {g : β → m Unit} (related : List.Forall₂ R as bs)
    (same : ∀ a b, R a b → f a = g b) : as.forM f = bs.forM g := by
  induction related with
  | nil => rfl
  | cons here _ ih =>
    change (f _ >>= fun _ => List.forM _ f) = (g _ >>= fun _ => List.forM _ g)
    rw [same _ _ here, ih]

theorem foldlM_zipIdx_congr_of_forall₂ {m : Type → Type} [Monad m] {σ : Type} {R : α → β → Prop}
    {as : List α} {bs : List β} {f : σ → α × Nat → m σ} {g : σ → β × Nat → m σ}
    (related : List.Forall₂ R as bs) (same : ∀ s a b k, R a b → f s (a, k) = g s (b, k)) (s : σ)
    (k : Nat) : (as.zipIdx k).foldlM f s = (bs.zipIdx k).foldlM g s := by
  induction related generalizing s k with
  | nil => rfl
  | cons here _ ih =>
    rw [List.zipIdx_cons, List.zipIdx_cons, List.foldlM_cons, List.foldlM_cons, same _ _ _ _ here]
    exact congrArg _ (funext fun t => ih t (k + 1))

end JvmClass
