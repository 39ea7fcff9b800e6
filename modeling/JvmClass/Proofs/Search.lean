import JvmClass.Search

/-! Halving finds the place where a sorted array goes beyond a bound, so searching for a key finds
the entry with that key just when there is one. -/

namespace JvmClass.Search

variable {α : Type} {key : α → Nat} {xs : Array α} {bound k m n : Nat} {x : α}

def Increasing (key : α → Nat) (xs : Array α) : Prop :=
  xs.toList.Pairwise fun x y => key x < key y

theorem Increasing.lt (increasing : Increasing key xs) {i j : Nat} {x y : α} (before : i < j)
    (here : xs[i]? = some x) (there : xs[j]? = some y) : key x < key y := by
  obtain ⟨bound, rfl⟩ := Array.getElem?_eq_some_iff.mp here
  obtain ⟨bound', rfl⟩ := Array.getElem?_eq_some_iff.mp there
  exact List.pairwise_iff_getElem.mp increasing i j (by simpa) (by simpa) before

/-- Keys never go down, but may be repeated. -/
def Ascending (key : α → Nat) (xs : Array α) : Prop :=
  xs.toList.Pairwise fun x y => key x ≤ key y

theorem Increasing.ascending (increasing : Increasing key xs) : Ascending key xs :=
  List.Pairwise.imp Nat.le_of_lt increasing

theorem Ascending.le (ascending : Ascending key xs) {i j : Nat} {x y : α} (before : i < j)
    (here : xs[i]? = some x) (there : xs[j]? = some y) : key x ≤ key y := by
  obtain ⟨bound, rfl⟩ := Array.getElem?_eq_some_iff.mp here
  obtain ⟨bound', rfl⟩ := Array.getElem?_eq_some_iff.mp there
  exact List.pairwise_iff_getElem.mp ascending i j (by simpa) (by simpa) before

structure Splits (key : α → Nat) (xs : Array α) (bound n : Nat) : Prop where
  inside : n ≤ xs.size
  low : ∀ i x, i < n → xs[i]? = some x → key x ≤ bound
  high : ∀ i x, n ≤ i → xs[i]? = some x → bound < key x

theorem upToWithin_of_some {lo hi : Nat} (more : lo < hi) (here : xs[(lo + hi) / 2]? = some x) :
    upToWithin key xs bound lo hi =
      if key x ≤ bound then upToWithin key xs bound ((lo + hi) / 2 + 1) hi
      else upToWithin key xs bound lo ((lo + hi) / 2) := by
  rw [upToWithin, if_pos more]
  simp only [here]

theorem splits_upToWithin (ascending : Ascending key xs) {lo hi : Nat} (ordered : lo ≤ hi)
    (inside : hi ≤ xs.size) (low : ∀ i x, i < lo → xs[i]? = some x → key x ≤ bound)
    (high : ∀ i x, hi ≤ i → xs[i]? = some x → bound < key x) :
    Splits key xs bound (upToWithin key xs bound lo hi) := by
  induction lo, hi using upToWithin.induct key xs bound with
  | case1 lo hi more mid missing =>
    have := Array.getElem?_eq_none_iff.mp missing
    omega
  | case2 lo hi more mid x here small ih =>
    rw [upToWithin_of_some more here, if_pos small]
    refine ih (by omega) inside ?_ high
    intro i y before found
    by_cases same : i = mid
    · subst same
      rw [here] at found
      cases found
      exact small
    · have := ascending.le (by omega : i < mid) found here
      omega
  | case3 lo hi more mid x here large ih =>
    rw [upToWithin_of_some more here, if_neg large]
    refine ih (by omega) (by omega) low ?_
    intro i y after found
    by_cases same : i = mid
    · subst same
      rw [here] at found
      cases found
      omega
    · have := ascending.le (by omega : mid < i) here found
      omega
  | case4 lo hi done =>
    rw [upToWithin, if_neg done]
    exact ⟨by omega, low, fun i x after => high i x (by omega)⟩

theorem splits_upTo (ascending : Ascending key xs) (bound : Nat) :
    Splits key xs bound (upTo key xs bound) := by
  refine splits_upToWithin ascending (Nat.zero_le _) (Nat.le_refl _) ?_ ?_
  · intro i x before
    omega
  · intro i x after found
    have := (Array.getElem?_eq_some_iff.mp found).1
    omega

theorem Splits.unique (first : Splits key xs bound m) (second : Splits key xs bound n) : m = n := by
  have meet {i j : Nat} (splits : Splits key xs bound i) (splits' : Splits key xs bound j) :
      ¬ i < j := by
    intro before
    have inside : i < xs.size := Nat.lt_of_lt_of_le before splits'.inside
    have here : xs[i]? = some xs[i] := Array.getElem?_eq_getElem inside
    have low := splits'.low i _ before here
    have high := splits.high i _ (Nat.le_refl i) here
    omega
  have := meet first second
  have := meet second first
  omega

theorem Splits.filter_eq_take (splits : Splits key xs bound n) :
    xs.toList.filter (fun x => key x ≤ bound) = xs.toList.take n := by
  have low : ∀ x ∈ xs.toList.take n, decide (key x ≤ bound) = true := by
    intro x member
    obtain ⟨i, inside, rfl⟩ := List.mem_take_iff_getElem.mp member
    have before : i < n ∧ i < xs.size := Nat.lt_min.mp inside
    exact decide_eq_true (splits.low i _ before.1 (by simp [before.2]))
  have high : ∀ x ∈ xs.toList.drop n, ¬ decide (key x ≤ bound) = true := by
    intro x member
    obtain ⟨i, inside, rfl⟩ := List.mem_drop_iff_getElem.mp member
    have after : n + i < xs.size := by simpa [Nat.add_comm] using inside
    have large := splits.high (n + i) xs[n + i] (Nat.le_add_right n i) (by simp [after])
    simp only [Array.getElem_toList, decide_eq_true_eq]
    omega
  calc xs.toList.filter (fun x => key x ≤ bound)
      = (xs.toList.take n ++ xs.toList.drop n).filter (fun x => key x ≤ bound) := by
        rw [List.take_append_drop]
    _ = xs.toList.take n := by
        rw [List.filter_append, List.filter_eq_self.mpr low, List.filter_eq_nil_iff.mpr high,
          List.append_nil]

theorem lastUpTo?_eq_getLast? (ascending : Ascending key xs) :
    lastUpTo? key xs bound = (xs.toList.filter fun x => key x ≤ bound).getLast? := by
  have splits := splits_upTo ascending bound
  have inside := splits.inside
  rw [splits.filter_eq_take]
  unfold lastUpTo?
  split
  · rename_i none
    rw [none]
    rfl
  · rename_i count place
    rw [place] at inside ⊢
    rw [List.getLast?_take, if_neg (Nat.succ_ne_zero count)]
    simp [Array.getElem?_eq_getElem (Nat.lt_of_succ_le inside)]

/-- What a search for a key may come upon: any place at which an entry has the key or, if there is
none, the place at which it would have to be put in. -/
inductive Finds (key : α → Nat) (xs : Array α) (k : Nat) : Except Nat Nat → Prop
  | hit {i : Nat} {x : α} (here : xs[i]? = some x) (same : key x = k) : Finds key xs k (.ok i)
  | gap {i : Nat} (splits : Splits key xs k i) (absent : ∀ x ∈ xs, key x ≠ k) :
      Finds key xs k (.error i)

theorem exists_finds (ascending : Ascending key xs) (k : Nat) : ∃ r, Finds key xs k r := by
  by_cases present : ∃ x ∈ xs, key x = k
  · obtain ⟨x, member, same⟩ := present
    obtain ⟨i, inside, here⟩ := Array.getElem_of_mem member
    exact ⟨.ok i, .hit (Array.getElem?_eq_some_iff.mpr ⟨inside, here⟩) same⟩
  · exact ⟨.error _, .gap (splits_upTo ascending k) fun x member same => present ⟨x, member, same⟩⟩

theorem of_at? (found : at? key xs k = some x) : x ∈ xs ∧ key x = k := by
  unfold at? lastUpTo? at found
  obtain ⟨last, same⟩ := Option.filter_eq_some_iff.mp found
  split at last
  · cases last
  · exact ⟨Array.mem_of_getElem? last, by simpa using same⟩

theorem lastUpTo?_eq_some {i : Nat} (ascending : Ascending key xs) (here : xs[i]? = some x)
    (low : key x ≤ bound) (high : ∀ y, xs[i + 1]? = some y → bound < key y) :
    lastUpTo? key xs bound = some x := by
  have splits := splits_upTo ascending bound
  have before : i < upTo key xs bound := by
    refine Nat.lt_of_not_le fun after => ?_
    have := splits.high i x after here
    omega
  have last : ¬ i + 1 < upTo key xs bound := fun more => by
    have there := Array.getElem?_eq_getElem (Nat.lt_of_lt_of_le more splits.inside)
    have := splits.low (i + 1) _ more there
    have := high _ there
    omega
  have place : upTo key xs bound = i + 1 := by omega
  unfold lastUpTo?
  rw [place]
  exact here

theorem at?_eq_some_iff (increasing : Increasing key xs) :
    at? key xs k = some x ↔ x ∈ xs ∧ key x = k := by
  refine ⟨of_at?, ?_⟩
  rintro ⟨member, same⟩
  obtain ⟨i, inside, here⟩ := Array.getElem_of_mem member
  have found : xs[i]? = some x := Array.getElem?_eq_some_iff.mpr ⟨inside, here⟩
  have last : lastUpTo? key xs k = some x := by
    refine lastUpTo?_eq_some increasing.ascending found (Nat.le_of_eq same) fun y next => ?_
    have := increasing.lt (Nat.lt_succ_self i) found next
    omega
  simp [at?, last, same]

end JvmClass.Search
