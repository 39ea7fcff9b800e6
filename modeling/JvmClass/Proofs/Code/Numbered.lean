import Mathlib.Data.List.Perm.Basic
import Std.Data.TreeMap.Lemmas

/-! Tables whose entries go by numbers.  An entry with a number above all others comes last. -/

namespace JvmClass.Numbered

variable {α : Type} {t : Std.TreeMap Nat α} {n : Nat} {a : α}

theorem values_eq (t : Std.TreeMap Nat α) : t.values = t.toList.map Prod.snd := by
  have folded : t.values = t.toList.foldr (fun p vs => p.2 :: vs) [] :=
    (rfl : t.values = t.foldr (fun _ v vs => v :: vs) []).trans Std.TreeMap.foldr_eq_foldr_toList
  rw [folded]
  induction t.toList with
  | nil => rfl
  | cons p ps ih => rw [List.foldr_cons, ih, List.map_cons]

theorem exists_of_mem_values (member : a ∈ t.values) : ∃ n : Nat, t[n]? = some a := by
  rw [values_eq] at member
  obtain ⟨p, listed, rfl⟩ := List.mem_map.mp member
  exact ⟨p.1, Std.TreeMap.mem_toList_iff_getElem?_eq_some.mp listed⟩

@[simp] theorem values_empty : (∅ : Std.TreeMap Nat α).values = [] := rfl

theorem isEmpty_values (t : Std.TreeMap Nat α) : t.values.isEmpty = t.isEmpty := by
  rw [values_eq, List.isEmpty_map, Std.TreeMap.isEmpty_toList]

theorem values_of_isEmpty (none : t.isEmpty = true) : t.values = [] := by
  rwa [← isEmpty_values, List.isEmpty_iff] at none

theorem toList_insert (later : ∀ k ∈ t, k < n) : (t.insert n a).toList = t.toList ++ [(n, a)] := by
  have keys : ∀ p ∈ t.toList, p.1 < n := fun p member => later p.1 <| by
    rw [Std.TreeMap.mem_iff_isSome_getElem?]
    rw [Std.TreeMap.mem_toList_iff_getElem?_eq_some.mp member]
    rfl
  have others : t.toList.filter (fun p => decide ¬(n == p.1) = true) = t.toList := by
    refine List.filter_eq_self.mpr fun p member => ?_
    have := keys p member
    simp
    omega
  have same : (t.insert n a).toList.Perm (t.toList ++ [(n, a)]) := by
    refine Std.TreeMap.toList_insert_perm.trans ?_
    rw [others]
    exact (List.perm_append_singleton _ _).symm
  have sorted (t : Std.TreeMap Nat α) : t.toList.Pairwise fun p q => p.1 < q.1 :=
    Std.TreeMap.ordered_keys_toList.imp Nat.compare_eq_lt.mp
  have sorted' : (t.toList ++ [(n, a)]).Pairwise fun p q => p.1 < q.1 := by
    refine List.pairwise_append.mpr ⟨sorted t, List.pairwise_singleton _ _, ?_⟩
    intro p member q last
    rw [List.mem_singleton.mp last]
    exact keys p member
  refine same.eq_of_pairwise (fun p q _ _ before after => ?_) (sorted _) sorted'
  omega

theorem values_insert (later : ∀ k ∈ t, k < n) : (t.insert n a).values = t.values ++ [a] := by
  rw [values_eq, values_eq, toList_insert later, List.map_append]
  rfl

end JvmClass.Numbered
