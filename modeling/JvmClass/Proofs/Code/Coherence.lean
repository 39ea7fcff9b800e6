import JvmClass.Proofs.Code.Targeters
import Mathlib.Data.List.Perm.Basic

/-! When a listing is in order.  `Indexed` says that the order holds each stored handle once, that
all handles are the listing's own, and that the index is exact; `Coherent` says besides that
everything pointed at is here.  What the table entries of a body point at is a parameter, so that
the same statement serves a listing with tables and one without. -/

namespace JvmClass.Listing

def mentions (l : Listing) (entries : Targeter → List Handle) : Targeter → List Handle
  | .instruction b => (l.get? b).elim [] Instruction.targets
  | t => entries t

structure Indexed (entries : Targeter → List Handle) (l : Listing) : Prop where
  nodup : l.order.toList.Nodup
  stored : ∀ h, h ∈ l.order.toList ↔ l.contains h
  own : ∀ h, l.contains h → h.listing = l.id ∧ h.number < l.fresh
  index : ∀ t h, Points l.targeters t h ↔ h ∈ l.mentions entries t

structure Coherent (entries : Targeter → List Handle) (l : Listing) : Prop
    extends Indexed entries l where
  known : ∀ t h, h ∈ l.mentions entries t → l.contains h

/-- A later state of the same listing: handles that are new in it have numbers that were not yet
given out. -/
structure Continues (l m : Listing) : Prop where
  id : m.id = l.id
  fresh : l.fresh ≤ m.fresh
  new : ∀ h, m.contains h → ¬ l.contains h → l.fresh ≤ h.number

variable {entries : Targeter → List Handle} {l m n : Listing} {h k : Handle} {t : Targeter}
  {i : Instruction Handle}

theorem Continues.refl (l : Listing) : l.Continues l :=
  ⟨rfl, Nat.le_refl _, fun _ present absent => absurd present absent⟩

theorem Continues.trans (first : l.Continues m) (second : m.Continues n) : l.Continues n where
  id := second.id.trans first.id
  fresh := Nat.le_trans first.fresh second.fresh
  new h present absent := by
    by_cases between : m.contains h
    · exact first.new h between absent
    · exact Nat.le_trans first.fresh (second.new h present between)

theorem Continues.of_contains (id : m.id = l.id) (fresh : m.fresh = l.fresh)
    (contains : ∀ h, m.contains h → l.contains h) : l.Continues m :=
  ⟨id, Nat.le_of_eq fresh.symm, fun h present absent => absurd (contains h present) absent⟩

theorem Indexed.gone (indexed : l.Indexed entries) (first : l.Continues m)
    (second : m.Continues n) (present : l.contains h) (removed : ¬ m.contains h) :
    ¬ n.contains h := by
  intro back
  have bound := (indexed.own h present).2
  have new := second.new h back removed
  have := first.fresh
  omega

theorem contains_iff : l.contains h ↔ ∃ i, l.get? h = some i := by
  unfold contains get?
  rw [Std.HashMap.contains_eq_isSome_getElem?, Option.isSome_iff_exists]

theorem mentions_instruction (b : Handle) :
    l.mentions entries (.instruction b) = (l.get? b).elim [] Instruction.targets := rfl

theorem targets_of_get (found : l.get? h = some i) :
    l.mentions entries (.instruction h) = i.targets := by
  simp [mentions, found]

theorem mentions_of_absent (absent : ¬ l.contains h) :
    l.mentions entries (.instruction h) = [] := by
  have missing : l.get? h = none := by
    rw [contains_iff] at absent
    exact Option.eq_none_iff_forall_ne_some.mpr fun i found => absent ⟨i, found⟩
  simp [mentions, missing]

theorem checkTargets_iff : l.checkTargets i = .ok () ↔ ∀ t ∈ i.targets, l.contains t := by
  unfold checkTargets
  split
  · rename_i t found
    have missing := List.find?_some found
    have target := List.mem_of_find?_eq_some found
    simp only [reduceCtorEq, false_iff, not_forall]
    exact ⟨t, target, by simpa using missing⟩
  · rename_i found
    simpa using found

theorem getElem?_of_position? {p : Nat} (found : l.position? h = some p) :
    l.order.toList[p]? = some h := by
  unfold position? at found
  have listed := List.idxOf?_toArray h l.order.toList
  rw [Array.toArray_toList, found] at listed
  obtain ⟨bound, here, _⟩ := List.idxOf?_eq_some_iff.mp listed.symm
  rw [List.getElem?_eq_getElem bound, here]

theorem position_eq_ok_iff {p : Nat} : l.position h = .ok p ↔ l.position? h = some p := by
  unfold position
  cases l.position? h <;> simp

theorem position_eq_ok {p : Nat} (found : l.position h = .ok p) :
    l.order.toList[p]? = some h :=
  getElem?_of_position? (position_eq_ok_iff.mp found)

theorem Indexed.mem_targetersOf_iff (indexed : l.Indexed entries) :
    t ∈ l.targetersOf h ↔ h ∈ l.mentions entries t :=
  mem_targetersOf.trans (indexed.index t h)

theorem coherent_empty (id : Nat) : (empty id).Coherent fun _ => [] where
  nodup := List.nodup_nil
  stored h := by simp [empty, contains]
  own h present := by simp at present
  index t h := by
    refine iff_of_false not_points_empty ?_
    cases t <;> simp [mentions, empty, get?]
  known t h target := by cases t <;> simp [mentions, empty, get?] at target

theorem Coherent.reindex {others : Targeter → List Handle}
    {index : Std.HashMap Handle TargeterSet} (coherent : l.Coherent entries)
    (exact : ∀ t h, Points index t h ↔ h ∈ l.mentions others t)
    (known : ∀ t h, h ∈ l.mentions others t → l.contains h) :
    ({ l with targeters := index } : Listing).Coherent others where
  nodup := coherent.nodup
  stored := coherent.stored
  own := coherent.own
  index t h := by cases t <;> exact exact _ h
  known t h := by
    have target := known t h
    cases t <;> exact target

end JvmClass.Listing
