import JvmClass.Proofs.Code.Tightness

/-! Where the instructions of a listing belong.  The first one starts at 0, and each one after it
where the one before ends.  A table of offsets says the same just when it comes of laying the
listing out. -/

namespace JvmClass.Listing

open Instruction

variable {entries : Targeter → List Handle} {l m : Listing} {is : List (Instruction Handle)}
  {o p : Offsets} {h k : Handle} {i j : Instruction Handle} {n x y : Nat}

/-- The instructions in program order, each with its handle and the offset at which it starts. -/
def placements (l : Listing) : List (Handle × Nat × Instruction Handle) :=
  (l.toList.map (·.1)).zip (placed 0 (l.toList.map (·.2)))

def width (l : Listing) : Nat := extent 0 (l.toList.map (·.2))

theorem mem_placements_iff : (∃ i, (h, n, i) ∈ l.placements) ↔
    (h, n) ∈ (l.toList.map (·.1)).zip ((placed 0 (l.toList.map (·.2))).map (·.1)) := by
  rw [List.zip_map_right, List.mem_map]
  constructor
  · rintro ⟨i, member⟩
    exact ⟨_, member, rfl⟩
  · rintro ⟨⟨_, _, i⟩, member, same⟩
    cases same
    exact ⟨i, member⟩

/-- The table tells where every instruction of the listing starts, of no other handle, and where
the last instruction ends. -/
structure Laid (l : Listing) (o : Offsets) : Prop where
  starts : ∀ h n, o.starts[h]? = some n ↔ ∃ i, (h, n, i) ∈ l.placements
  length : o.length = l.width

theorem Laid.unique (first : l.Laid o) (second : l.Laid p) (h : Handle) :
    o.starts[h]? = p.starts[h]? := by
  refine Option.ext fun n => ?_
  rw [first.starts, second.starts]

namespace Lists

variable (lists : l.Lists is)
include lists

theorem map_toList : l.toList.map (·.1) = l.order.toList ∧ l.toList.map (·.2) = is := by
  have same := lists.stored.length_eq
  rw [toList_eq rfl lists.stored]
  exact ⟨List.map_fst_zip (Nat.le_of_eq same), List.map_snd_zip (Nat.le_of_eq same.symm)⟩

theorem placements_eq : l.placements = l.order.toList.zip (placed 0 is) := by
  rw [placements, lists.map_toList.1, lists.map_toList.2]

theorem width_eq : l.width = extent 0 is := by
  rw [width, lists.map_toList.2]

theorem map_fst_placements : l.placements.map (·.1) = l.order.toList := by
  rw [lists.placements_eq]
  refine List.map_fst_zip (Nat.le_of_eq ?_)
  rw [length_placed, lists.stored.length_eq]

theorem exists_place (listed : h ∈ l.order.toList) : ∃ x i, (h, x, i) ∈ l.placements := by
  rw [← lists.map_fst_placements, List.mem_map] at listed
  obtain ⟨⟨_, x, i⟩, member, rfl⟩ := listed
  exact ⟨x, i, member⟩

theorem inOrder_iff (first : (h, x, i) ∈ l.placements) (second : (k, y, j) ∈ l.placements) :
    l.InOrder h k ↔ x ≤ y := by
  rw [lists.placements_eq] at first second
  obtain ⟨a, here⟩ := List.mem_iff_getElem?.mp first
  obtain ⟨z, there⟩ := List.mem_iff_getElem?.mp second
  obtain ⟨listed, start⟩ := List.getElem?_zip_eq_some.mp here
  obtain ⟨listed', start'⟩ := List.getElem?_zip_eq_some.mp there
  have position := position?_eq lists.nodup listed
  have position' := position?_eq lists.nodup listed'
  have increasing : Search.Increasing (·.1) (placed 0 is).toArray := increasing_placed is
  rw [← List.getElem?_toArray] at start start'
  constructor
  · rintro ⟨p, q, first, second, ordered⟩
    cases position.symm.trans first
    cases position'.symm.trans second
    obtain before | rfl := Nat.lt_or_eq_of_le ordered
    · exact Nat.le_of_lt (increasing.lt before start start')
    · cases start.symm.trans start'
      exact Nat.le_refl _
  · intro ordered
    refine ⟨a, z, position, position', Nat.le_of_not_lt fun before => ?_⟩
    exact Nat.not_le_of_lt (increasing.lt before start' start) ordered

theorem handle_unique (first : (h, x, i) ∈ l.placements) (second : (k, x, j) ∈ l.placements) :
    h = k := by
  obtain ⟨p, q, position, position', le⟩ := (lists.inOrder_iff first second).mpr (Nat.le_refl x)
  obtain ⟨q', p', again', again, ge⟩ := (lists.inOrder_iff second first).mpr (Nat.le_refl x)
  cases position.symm.trans again
  cases position'.symm.trans again'
  cases Nat.le_antisymm le ge
  exact Option.some.inj
    ((getElem?_of_position? position).symm.trans (getElem?_of_position? position'))

theorem laid_of_starts
    (each : List.Forall₂ (fun h q => o.starts[h]? = some q.1) l.order.toList (placed 0 is))
    (only : ∀ h n, o.starts[h]? = some n → h ∈ l.order.toList) (length : o.length = extent 0 is) :
    l.Laid o := by
  have start : ∀ p ∈ l.placements, o.starts[p.1]? = some p.2.1 := by
    intro p member
    rw [lists.placements_eq] at member
    exact List.forall₂_zip each member
  refine ⟨fun h n => ⟨fun found => ?_, ?_⟩, length.trans lists.width_eq.symm⟩
  · have listed := only h n found
    rw [← lists.map_fst_placements, List.mem_map] at listed
    obtain ⟨⟨_, n', i⟩, member, rfl⟩ := listed
    cases found.symm.trans (start _ member)
    exact ⟨i, member⟩
  · rintro ⟨i, member⟩
    exact start _ member

theorem laid_of_layOut (laid : l.layOut l.order.toList ⟨∅, 0⟩ = .ok o) :
    l.Laid o ∧ ∀ p ∈ l.placements, o.starts[p.1]? = some p.2.1 ∧ l.get? p.1 = some p.2.2 := by
  obtain ⟨o', laid', length, others, located⟩ :=
    layOut_eq_ok (o := ⟨∅, 0⟩) lists.stored lists.nodup
  cases laid.symm.trans laid'
  refine ⟨lists.laid_of_starts (located.imp fun _ _ both => both.1) ?_ length, fun p member => ?_⟩
  · intro h n start
    by_contra absent
    rw [others h absent] at start
    simp at start
  · rw [lists.placements_eq] at member
    exact List.forall₂_zip located member

end Lists

/-- A listing is laid out unless its instructions take up too many bytes. -/
theorem Coherent.layout_cases (coherent : l.Coherent entries) :
    (l.width ≤ maxCodeLength ∧ ∃ o, l.layout = .ok o ∧ l.Laid o ∧
        ∀ p ∈ l.placements, o.starts[p.1]? = some p.2.1 ∧ l.get? p.1 = some p.2.2) ∨
      maxCodeLength < l.width ∧ l.layout = .error (.codeTooLong l.width) := by
  obtain ⟨is, lists⟩ := coherent.exists_lists
  obtain ⟨o, laidOut, _⟩ := lists.exists_layOut
  obtain ⟨laid, each⟩ := lists.laid_of_layOut laidOut
  obtain short | long := Nat.lt_or_ge maxCodeLength l.width |>.symm
  · exact .inl ⟨short, o, layout_of_layOut laidOut (laid.length ▸ short), laid, each⟩
  · refine .inr ⟨long, ?_⟩
    unfold layout
    rw [laidOut, ← laid.length]
    exact if_pos (laid.length ▸ long)

theorem Coherent.exists_placement (coherent : l.Coherent entries) {t : Handle}
    (stored : l.get? h = some i) (target : t ∈ i.targets) : ∃ x j, (t, x, j) ∈ l.placements := by
  obtain ⟨is, lists⟩ := coherent.exists_lists
  have known := coherent.known (.instruction h) t (by rwa [targets_of_get stored])
  exact lists.exists_place ((coherent.stored t).mpr known)

theorem stop_le_width {p : Handle × Nat × Instruction Handle} (member : p ∈ l.placements) :
    p.2.1 + p.2.2.widthAt p.2.1 ≤ l.width :=
  stop_le_of_placed (List.of_mem_zip member).2

end JvmClass.Listing
