import JvmClass.Code.Listing

/-! The index from handles to what points at them, seen as a relation.  `Points index t h` says
that the index has the targeter `t` under the handle `h`; each operation on the index adds or takes
away exactly the pairs that it names. -/

namespace JvmClass.Listing

variable {index : Std.HashMap Handle TargeterSet} {t u : Targeter} {h k : Handle}

def Points (index : Std.HashMap Handle TargeterSet) (t : Targeter) (h : Handle) : Prop :=
  ∃ ts, index[h]? = some ts ∧ t ∈ ts

theorem mem_targetersOf {l : Listing} : t ∈ l.targetersOf h ↔ Points l.targeters t h := by
  unfold targetersOf Points
  split <;> rename_i found <;> simp [found]

theorem nodup_targetersOf (l : Listing) (h : Handle) : (l.targetersOf h).Nodup := by
  unfold targetersOf
  split
  · rename_i ts _
    exact ts.distinct_toList.imp fun different same =>
      different (Std.LawfulEqCmp.compare_eq_iff_eq.mpr same)
  · exact List.nodup_nil

theorem not_points_empty : ¬ Points ∅ t h := by
  simp [Points]

theorem points_pointing : Points (pointing t index h) u k ↔ Points index u k ∨ u = t ∧ k = h := by
  unfold Points pointing
  simp only [Std.HashMap.getElem?_alter, beq_iff_eq]
  by_cases same : h = k
  · subst same
    simp only [if_true, Option.some.injEq, exists_eq_left', Std.TreeSet.mem_insert,
      Std.LawfulEqCmp.compare_eq_iff_eq, and_true]
    cases index[h]? with
    | none => simp [eq_comm]
    | some ts => simp [or_comm, eq_comm]
  · simp [same, Ne.symm same]

theorem points_unpointing :
    Points (unpointing t index h) u k ↔ Points index u k ∧ ¬ (u = t ∧ k = h) := by
  unfold Points unpointing
  simp only [Std.HashMap.getElem?_alter, beq_iff_eq]
  by_cases same : h = k
  · subst same
    simp only [if_true, and_true]
    cases index[h]? with
    | none => simp
    | some ts =>
      have erased : u ∈ ts.erase t ↔ u ∈ ts ∧ ¬ u = t := by
        simp only [Std.TreeSet.mem_erase, ne_eq, Std.LawfulEqCmp.compare_eq_iff_eq]
        rw [and_comm, eq_comm]
      by_cases empty : (ts.erase t).isEmpty
      · have absent : ¬ u ∈ ts.erase t := by
          simpa using Std.TreeSet.isEmpty_iff_forall_not_mem.mp empty u
        simp [empty, ← erased, absent]
      · simp [empty, erased]
  · simp [same, Ne.symm same]

theorem points_foldl_pointing (hs : List Handle) :
    Points (hs.foldl (pointing t) index) u k ↔ Points index u k ∨ u = t ∧ k ∈ hs := by
  induction hs generalizing index with
  | nil => simp
  | cons h hs ih =>
    rw [List.foldl_cons, ih, points_pointing, List.mem_cons, or_assoc, ← and_or_left]

theorem points_foldl_unpointing (hs : List Handle) :
    Points (hs.foldl (unpointing t) index) u k ↔ Points index u k ∧ ¬ (u = t ∧ k ∈ hs) := by
  induction hs generalizing index with
  | nil => simp
  | cons h hs ih =>
    rw [List.foldl_cons, ih, points_unpointing, List.mem_cons, and_assoc, ← not_or, ← and_or_left]

theorem points_erase : Points (index.erase h) u k ↔ Points index u k ∧ k ≠ h := by
  unfold Points
  rw [Std.HashMap.getElem?_erase]
  by_cases same : h = k
  · simp [same]
  · simp [same, Ne.symm same]

end JvmClass.Listing
