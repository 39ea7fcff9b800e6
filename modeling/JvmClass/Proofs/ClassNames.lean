import JvmClass.CommandLine
import JvmClass.Proofs.Names
import Mathlib.Data.List.TakeDrop

/-! The names that classes get from their files.  A name joins the names on the way to the file with
slashes, and leaves the extension out.  So it tells the way to the file, as long as it has no dots;
with dots, files that are apart may have the same name, or names with the same internal form. -/

namespace JvmClass

namespace Target

theorem eq_of_splitExtension {name stem extension : List Char}
    (split : splitExtension name = (stem, some extension)) : name = stem ++ '.' :: extension := by
  unfold splitExtension at split
  rw [List.span_eq_takeWhile_dropWhile] at split
  have whole := List.takeWhile_append_dropWhile (p := (· != '.')) (l := name.reverse)
  generalize name.reverse.takeWhile (· != '.') = behind at split whole
  cases from_ : name.reverse.dropWhile (· != '.') with
  | nil =>
    rw [from_] at split
    cases split
  | cons dot before =>
    have first := List.head_dropWhile_not (· != '.') (l := name.reverse) (by simp [from_])
    simp only [from_, List.head_cons, bne_eq_false_iff_eq] at first
    rw [from_] at split whole
    dsimp only at split
    split at split
    · cases split
    · cases split
      rw [← List.reverse_inj, ← whole, first]
      simp

/-- A class is named by the names on the way to its file, the last one without its extension. -/
theorem className?_eq_some {path name : String} (named : className? path = some name) :
    ∃ front last stem, components path.toList = front ++ [last] ∧
      splitExtension last = (stem, some "class".toList) ∧
      name.toList = ['/'].intercalate (front ++ [withoutExtension last]) := by
  obtain ⟨last, isLast, named⟩ := Option.bind_eq_some_iff.mp named
  obtain ⟨_, extension, named⟩ := Option.bind_eq_some_iff.mp named
  obtain ⟨front, route⟩ := List.getLast?_eq_some_iff.mp isLast
  have titled : ((splitExtension last).2 == some "class".toList) = true := by
    by_contra other
    rw [guard, if_neg other] at extension
    cases extension
  refine ⟨front, last, (splitExtension last).1, route, Prod.ext rfl (eq_of_beq titled), ?_⟩
  · cases named
    rw [String.toList_intercalate, List.map_map, route, List.dropLast_concat]
    simp

theorem withoutExtension_cases {last stem extension : List Char}
    (split : splitExtension last = (stem, some extension)) :
    withoutExtension last = ['.', '.'] ∨ withoutExtension last = stem := by
  unfold withoutExtension
  rw [split]
  split
  · exact .inl rfl
  · rename_i same
    cases same
    exact .inr rfl

theorem segments_className {path name : String} (named : className? path = some name)
    (dotless : '.' ∉ name.toList) :
    ∃ front stem, components path.toList = front ++ [stem ++ ".class".toList] ∧
      Name.segments name.toList = front ++ [stem] := by
  obtain ⟨front, last, stem, route, split, joined⟩ := className?_eq_some named
  have whole := eq_of_splitExtension split
  have slashless : ∀ s ∈ front ++ [last], '/' ∉ s := fun s member inside =>
    (Name.mem_of_mem_segments (List.mem_filter.mp (route ▸ member)).1 inside).2 rfl
  obtain ⟨before, here⟩ := List.forall_mem_append.mp slashless
  have segments : Name.segments name.toList = front ++ [withoutExtension last] := by
    rw [joined]
    refine Name.segments_intercalate (by simp) (List.forall_mem_append.mpr ⟨before, ?_⟩)
    rw [List.forall_mem_singleton] at here ⊢
    obtain dots | same := withoutExtension_cases split
    · rw [dots]
      decide
    · rw [same]
      exact fun inside => here (by simp [whole, inside])
  have same : withoutExtension last = stem := by
    refine (withoutExtension_cases split).resolve_left fun dots => dotless ?_
    rw [dots] at segments
    exact (Name.mem_of_mem_segments (s := ['.', '.']) (by simp [segments]) (by simp)).1
  exact ⟨front, stem, whole ▸ route, same ▸ segments⟩

theorem components_eq {path path' name : String} (named : className? path = some name)
    (named' : className? path' = some name) (dotless : '.' ∉ name.toList) :
    components path.toList = components path'.toList := by
  obtain ⟨front, stem, route, segments⟩ := segments_className named dotless
  obtain ⟨front', stem', route', segments'⟩ := segments_className named' dotless
  rw [segments] at segments'
  obtain ⟨rfl, same⟩ := List.append_inj' segments' rfl
  cases same
  rw [route, route']

example : (className? "a.b/Foo.class").map Name.internalForm =
    (className? "a/b.Foo.class").map Name.internalForm := by
  decide +kernel

end Target

end JvmClass
