import JvmClass.Proofs.Code.Coherence
import JvmClass.Proofs.Results

/-! Every edit of a listing leaves it coherent, whether it succeeds or fails.  An edit that stores
an instruction under a handle changes what that handle mentions and nothing else, so each proof
compares the index before and after at that handle. -/

namespace JvmClass.Listing

variable {entries : Targeter → List Handle} {l m : Listing} {h k : Handle} {t : Targeter}
  {i : Instruction Handle} {p : Nat}

structure Follows (entries : Targeter → List Handle) (l m : Listing) : Prop where
  coherent : m.Coherent entries
  continues : l.Continues m

theorem Follows.refl (coherent : l.Coherent entries) : Follows entries l l :=
  ⟨coherent, .refl l⟩

theorem Follows.trans {n : Listing} (first : Follows entries l m) (second : Follows entries m n) :
    Follows entries l n :=
  ⟨second.coherent, first.continues.trans second.continues⟩

theorem contains_of_insert (stored : m.instructions = l.instructions.insert h i) :
    m.contains k ↔ k = h ∨ l.contains k := by
  unfold contains
  rw [stored, Std.HashMap.contains_insert, Bool.or_eq_true, beq_iff_eq]
  exact or_congr_left eq_comm

theorem mentions_of_insert (stored : m.instructions = l.instructions.insert h i) (t : Targeter) :
    m.mentions entries t = if t = .instruction h then i.targets else l.mentions entries t := by
  cases t with
  | instruction b =>
    rw [mentions_instruction, mentions_instruction, get?, stored, Std.HashMap.getElem?_insert]
    by_cases same : h = b
    · simp [same]
    · simp [same, Ne.symm same, get?]
  | _ => simp [mentions]

theorem toList_insert (xs : Array Handle) (p : Nat) (h : Handle) :
    (xs.insertIdxIfInBounds p h).toList = xs.toList.insertIdx p h := by
  cases xs
  rw [List.insertIdxIfInBounds_toArray]

theorem contains_place : (l.place p i).2.contains k ↔ k = ⟨l.id, l.fresh⟩ ∨ l.contains k :=
  contains_of_insert rfl

theorem mentions_place (t : Targeter) : (l.place p i).2.mentions entries t =
    if t = .instruction ⟨l.id, l.fresh⟩ then i.targets else l.mentions entries t :=
  mentions_of_insert rfl t

theorem continues_place : l.Continues (l.place p i).2 where
  id := rfl
  fresh := Nat.le_succ _
  new h present absent := by
    obtain rfl | present := contains_place.mp present
    · exact Nat.le_refl _
    · exact absurd present absent

theorem Indexed.absent (indexed : l.Indexed entries) : ¬ l.contains ⟨l.id, l.fresh⟩ :=
  fun present => Nat.lt_irrefl _ (indexed.own _ present).2

theorem Indexed.place (indexed : l.Indexed entries) (bound : p ≤ l.order.size) :
    (l.place p i).2.Indexed entries := by
  have perm : (l.place p i).2.order.toList.Perm (⟨l.id, l.fresh⟩ :: l.order.toList) := by
    change (l.order.insertIdxIfInBounds p ⟨l.id, l.fresh⟩).toList.Perm _
    rw [toList_insert]
    exact List.perm_insertIdx _ _ bound
  refine ⟨?_, ?_, ?_, ?_⟩
  · rw [perm.nodup_iff, List.nodup_cons, indexed.stored]
    exact ⟨indexed.absent, indexed.nodup⟩
  · intro h
    rw [perm.mem_iff, List.mem_cons, indexed.stored, contains_place]
  · intro h present
    obtain rfl | present := contains_place.mp present
    · exact ⟨rfl, Nat.lt_succ_self _⟩
    · exact ⟨(indexed.own h present).1, Nat.lt_succ_of_lt (indexed.own h present).2⟩
  · intro t h
    have pointed : Points (l.place p i).2.targeters t h ↔
        Points l.targeters t h ∨ t = .instruction ⟨l.id, l.fresh⟩ ∧ h ∈ i.targets :=
      points_foldl_pointing i.targets
    rw [pointed, indexed.index, mentions_place]
    split
    · rename_i same
      subst same
      simp [mentions_of_absent indexed.absent]
    · rename_i different
      simp [different]

theorem Coherent.place (coherent : l.Coherent entries) (bound : p ≤ l.order.size)
    (targets : ∀ t ∈ i.targets, l.contains t) : Follows entries l (l.place p i).2 where
  coherent := {
    toIndexed := coherent.toIndexed.place bound
    known := by
      intro t h target
      rw [mentions_place] at target
      rw [contains_place]
      split at target
      · exact .inr (targets h target)
      · exact .inr (coherent.known t h target) }
  continues := continues_place

theorem follows_insertAt (coherent : l.Coherent entries) (bound : p ≤ l.order.size) :
    Follows entries l (left (insertAt p i) l) := by
  unfold left insertAt
  cases checked : l.checkTargets i with
  | error e => exact .refl coherent
  | ok _ => exact coherent.place bound (checkTargets_iff.mp checked)

theorem follows_append (coherent : l.Coherent entries) :
    Follows entries l (left (append i) l) :=
  follows_insertAt coherent (Nat.le_refl _)

theorem lt_of_position (found : l.position h = .ok p) : p < l.order.size := by
  have here := position_eq_ok found
  rw [← Array.length_toList]
  exact (List.getElem?_eq_some_iff.mp here).1

theorem follows_insertBefore (coherent : l.Coherent entries) :
    Follows entries l (left (insertBefore h i) l) := by
  unfold left insertBefore
  cases found : l.position h with
  | error e => exact .refl coherent
  | ok p => exact follows_insertAt coherent (Nat.le_of_lt (lt_of_position found))

theorem follows_insertAfter (coherent : l.Coherent entries) :
    Follows entries l (left (insertAfter h i) l) := by
  unfold left insertAfter
  cases found : l.position h with
  | error e => exact .refl coherent
  | ok p => exact follows_insertAt coherent (lt_of_position found)

theorem Coherent.store (coherent : l.Coherent entries) (present : l.contains h) (id : m.id = l.id)
    (fresh : m.fresh = l.fresh) (order : m.order = l.order)
    (stored : m.instructions = l.instructions.insert h i)
    (targets : ∀ t ∈ i.targets, l.contains t)
    (index : ∀ u k, Points m.targeters u k ↔
      if u = .instruction h then k ∈ i.targets else Points l.targeters u k) :
    Follows entries l m := by
  have same : ∀ k, m.contains k ↔ l.contains k := by
    intro k
    rw [contains_of_insert stored]
    exact or_iff_right_of_imp fun same => same ▸ present
  refine ⟨⟨⟨?_, ?_, ?_, ?_⟩, ?_⟩, .of_contains id fresh fun k => (same k).mp⟩
  · rw [order]
    exact coherent.nodup
  · intro k
    rw [order, same]
    exact coherent.stored k
  · intro k present
    rw [id, fresh]
    exact coherent.own k ((same k).mp present)
  · intro u k
    rw [index, mentions_of_insert stored]
    split
    · rfl
    · exact coherent.index u k
  · intro u k target
    rw [same]
    rw [mentions_of_insert stored] at target
    split at target
    · exact targets k target
    · exact coherent.known u k target

theorem follows_replace (coherent : l.Coherent entries) :
    Follows entries l (left (replace h i) l) := by
  unfold left replace
  cases found : l.get? h with
  | none => exact .refl coherent
  | some old =>
    cases checked : l.checkTargets i with
    | error e => exact .refl coherent
    | ok _ =>
      refine coherent.store (contains_iff.mpr ⟨old, found⟩) rfl rfl rfl rfl
        (checkTargets_iff.mp checked) ?_
      intro u k
      change Points (i.targets.foldl (pointing _) (old.targets.foldl (unpointing _) l.targeters))
        u k ↔ _
      rw [points_foldl_pointing, points_foldl_unpointing]
      split
      · rename_i same
        subst same
        rw [coherent.index, targets_of_get found]
        simp
      · rename_i different
        simp [different]

theorem swapHandle_of_ne {old new h : Handle} (other : h ≠ old) : swapHandle old new h = h :=
  if_neg other

theorem mem_map_swapHandle {old new : Handle} {hs : List Handle} (mentioned : old ∈ hs) :
    k ∈ hs.map (swapHandle old new) ↔ k ∈ hs ∧ k ≠ old ∨ k = new := by
  rw [List.mem_map]
  constructor
  · rintro ⟨a, member, rfl⟩
    unfold swapHandle
    split
    · exact .inr rfl
    · rename_i different
      exact .inl ⟨member, different⟩
  · rintro (⟨member, different⟩ | rfl)
    · exact ⟨k, member, if_neg different⟩
    · exact ⟨old, mentioned, if_pos rfl⟩

theorem map_swapHandle_of_not_mem {old new : Handle} {hs : List Handle} (absent : old ∉ hs) :
    hs.map (swapHandle old new) = hs := by
  have kept : hs.map (swapHandle old new) = hs.map fun h => h :=
    List.map_congr_left fun h member => swapHandle_of_ne fun same => absent (same ▸ member)
  rw [kept, List.map_id']

theorem mem_map_swapHandle_iff {old new : Handle} {hs : List Handle} :
    k ∈ hs.map (swapHandle old new) ↔ (k ∈ hs ∧ k ≠ old) ∨ (k = new ∧ old ∈ hs) := by
  by_cases mentioned : old ∈ hs
  · rw [mem_map_swapHandle mentioned]
    simp [mentioned]
  · rw [map_swapHandle_of_not_mem mentioned]
    simp only [mentioned, and_false, or_false]
    exact (and_iff_left_of_imp fun member => ne_of_mem_of_not_mem member mentioned).symm

theorem updateTarget_eq_ok {branch old new : Handle} (coherent : l.Coherent entries)
    (known : l.contains new) (mentioned : old ∈ l.mentions entries (.instruction branch)) :
    ∃ m, updateTarget branch old new l = .ok () m ∧ Follows entries l m ∧
      (∀ k, m.contains k ↔ l.contains k) ∧ ∀ u, m.mentions entries u =
        if u = .instruction branch then (l.mentions entries u).map (swapHandle old new)
        else l.mentions entries u := by
  obtain ⟨i, found⟩ : ∃ i, l.get? branch = some i := by
    cases found : l.get? branch with
    | none => simp [mentions_instruction, found] at mentioned
    | some i => exact ⟨i, rfl⟩
  have present : l.contains branch := contains_iff.mpr ⟨i, found⟩
  have target : old ∈ i.targets := by rwa [targets_of_get found] at mentioned
  unfold updateTarget
  rw [if_pos known, found]
  simp only [List.contains_iff_mem, target, if_true]
  refine ⟨_, rfl, ?_, ?_, ?_⟩
  · refine coherent.store (i := i.map (swapHandle old new)) present rfl rfl rfl rfl ?_ ?_
    · intro k member
      rw [Instruction.targets_map, mem_map_swapHandle target] at member
      obtain ⟨member, _⟩ | rfl := member
      · exact coherent.known (.instruction branch) k (by rwa [targets_of_get found])
      · exact known
    · intro u k
      rw [points_pointing, points_unpointing, Instruction.targets_map, mem_map_swapHandle target]
      split
      · rename_i same
        subst same
        rw [coherent.index, targets_of_get found]
        simp
      · rename_i different
        simp [different]
  · intro k
    rw [contains_of_insert (l := l) rfl]
    exact or_iff_right_of_imp fun same => same ▸ present
  · intro u
    rw [mentions_of_insert (l := l) rfl, Instruction.targets_map]
    split
    · rename_i same
      rw [same, targets_of_get found]
    · rfl

theorem follows_updateTarget {branch old new : Handle} (coherent : l.Coherent entries) :
    Follows entries l (left (updateTarget branch old new) l) := by
  by_cases known : l.contains new
  · by_cases mentioned : old ∈ l.mentions entries (.instruction branch)
    · obtain ⟨m, run, follows, _⟩ := updateTarget_eq_ok coherent known mentioned
      simpa [left, run] using follows
    · have stays : left (updateTarget branch old new) l = l := by
        unfold left updateTarget
        rw [if_pos known]
        cases found : l.get? branch with
        | none => rfl
        | some i =>
          rw [targets_of_get found] at mentioned
          simp [mentioned]
      rw [stays]
      exact .refl coherent
  · have stays : left (updateTarget branch old new) l = l := by
      unfold left updateTarget
      rw [if_neg known]
    rw [stays]
    exact .refl coherent

theorem perm_eraseIdx {xs : List Handle} (here : xs[p]? = some h) :
    (h :: xs.eraseIdx p).Perm xs := by
  obtain ⟨bound, same⟩ := List.getElem?_eq_some_iff.mp here
  rw [← same]
  exact List.getElem_cons_eraseIdx_perm bound

theorem not_mentioned_of_otherTargeters (indexed : l.Indexed entries)
    (alone : l.otherTargeters h = []) (different : t ≠ .instruction h) :
    h ∉ l.mentions entries t := by
  intro mentioned
  have member : t ∈ l.otherTargeters h := by
    unfold otherTargeters
    rw [List.mem_filter, indexed.mem_targetersOf_iff]
    exact ⟨mentioned, by simpa using different⟩
  rw [alone] at member
  exact List.not_mem_nil member

theorem contains_of_erase (erased : m.instructions = l.instructions.erase h) :
    m.contains k ↔ k ≠ h ∧ l.contains k := by
  unfold contains
  rw [erased, Std.HashMap.contains_erase, Bool.and_eq_true]
  refine and_congr_left fun _ => ?_
  simp only [Bool.not_eq_true', beq_eq_false_iff_ne]
  exact ne_comm

theorem mentions_of_erase (erased : m.instructions = l.instructions.erase h) (t : Targeter) :
    m.mentions entries t = if t = .instruction h then [] else l.mentions entries t := by
  cases t with
  | instruction b =>
    rw [mentions_instruction, mentions_instruction, get?, erased, Std.HashMap.getElem?_erase]
    by_cases same : h = b
    · simp [same]
    · simp [same, Ne.symm same, get?]
  | _ => simp [mentions]

theorem Coherent.drop (coherent : l.Coherent entries) (here : l.order.toList[p]? = some h)
    (alone : ∀ t, t ≠ .instruction h → h ∉ l.mentions entries t) (id : m.id = l.id)
    (fresh : m.fresh = l.fresh) (order : m.order.toList = l.order.toList.eraseIdx p)
    (erased : m.instructions = l.instructions.erase h)
    (index : ∀ u k, Points m.targeters u k ↔ u ≠ .instruction h ∧ Points l.targeters u k) :
    Follows entries l m := by
  have perm := perm_eraseIdx here
  have nodup := perm.nodup_iff.mpr coherent.nodup
  rw [List.nodup_cons] at nodup
  refine ⟨⟨⟨?_, ?_, ?_, ?_⟩, ?_⟩,
    .of_contains id fresh fun k present => ((contains_of_erase erased).mp present).2⟩
  · rw [order]
    exact nodup.2
  · intro k
    rw [order, contains_of_erase erased, ← coherent.stored, ← perm.mem_iff, List.mem_cons]
    by_cases same : k = h
    · subst same
      simp [nodup.1]
    · simp [same]
  · intro k present
    rw [id, fresh]
    exact coherent.own k ((contains_of_erase erased).mp present).2
  · intro u k
    rw [index, mentions_of_erase erased, coherent.index]
    split
    · rename_i same
      simp [same]
    · rename_i different
      simp [different]
  · intro u k target
    rw [mentions_of_erase erased] at target
    split at target
    · exact absurd target List.not_mem_nil
    · rename_i different
      refine (contains_of_erase erased).mpr ⟨?_, coherent.known u k target⟩
      rintro rfl
      exact alone u different target

theorem remove_of_unknown {e : Error} (missing : l.position h = .error e) :
    remove h l = .error e l := by
  unfold remove
  rw [missing]

theorem remove_of_targeted (found : l.position h = .ok p) (others : l.otherTargeters h ≠ []) :
    remove h l = .error (.stillTargeted h (l.otherTargeters h)) l := by
  unfold remove
  rw [found]
  cases same : l.otherTargeters h with
  | nil => exact absurd same others
  | cons t ts => rfl

def without (l : Listing) (p : Nat) (h : Handle) (i : Instruction Handle) : Listing :=
  { l with
    order := l.order.eraseIdxIfInBounds p
    instructions := l.instructions.erase h
    targeters := (i.targets.foldl (unpointing (.instruction h)) l.targeters).erase h
    offsets? := none }

/-- The handle has lost its place before its instruction is looked up. -/
theorem remove_of_alone (found : l.position h = .ok p) (alone : l.otherTargeters h = []) :
    remove h l =
      match l.get? h with
      | none => .error (.unknownHandle h) { l with order := l.order.eraseIdxIfInBounds p }
      | some i => .ok i (l.without p h i) := by
  unfold remove
  rw [found, alone]
  rfl

theorem Coherent.without (coherent : l.Coherent entries) (found : l.position h = .ok p)
    (others : l.otherTargeters h = []) (stored : l.get? h = some i) :
    Follows entries l (l.without p h i) := by
  have alone : ∀ t, t ≠ .instruction h → h ∉ l.mentions entries t := fun t =>
    not_mentioned_of_otherTargeters coherent.toIndexed others
  refine coherent.drop (position_eq_ok found) alone rfl rfl
    Array.toList_eraseIdxIfInBounds rfl ?_
  intro u k
  change Points ((i.targets.foldl (unpointing (.instruction h)) l.targeters).erase h) u k ↔ _
  rw [points_erase, points_foldl_unpointing, coherent.index]
  by_cases same : u = .instruction h
  · subst same
    rw [targets_of_get stored]
    simp
  · have absent := alone u same
    simp only [same, false_and, not_false_eq_true, and_true, ne_eq, true_and]
    exact and_iff_left_of_imp fun member same => absent (same ▸ member)

theorem Indexed.exists_get? (indexed : l.Indexed entries) (found : l.position h = .ok p) :
    ∃ i, l.get? h = some i :=
  contains_iff.mp ((indexed.stored h).mp (List.mem_of_getElem? (position_eq_ok found)))

theorem follows_remove (coherent : l.Coherent entries) :
    Follows entries l (left (remove h) l) := by
  unfold left
  cases found : l.position h with
  | error e =>
    rw [remove_of_unknown found]
    exact .refl coherent
  | ok p =>
    by_cases others : l.otherTargeters h = []
    · obtain ⟨i, stored⟩ := coherent.exists_get? found
      rw [remove_of_alone found others, stored]
      exact coherent.without found others stored
    · rw [remove_of_targeted found others]
      exact .refl coherent

section Redirect

variable {R : Listing → Listing → Prop} {old new : Handle}

theorem leads_redirect (refl : ∀ l, R l l) (trans : ∀ l m n, R l m → R m n → R l n)
    (each : ∀ branch, Leads R (updateTarget branch old new)) (ts : List Targeter) :
    Leads R (redirect old new ts) := by
  induction ts with
  | nil => exact leads_pure refl ()
  | cons t ts ih =>
    cases t with
    | instruction branch => exact leads_bind trans (each branch) fun _ => ih
    | _ => exact ih

/-- What redirecting one branch leads to, as often as it is done. -/
theorem leads_redirectBranches (refl : ∀ l, R l l) (trans : ∀ l m n, R l m → R m n → R l n)
    (each : ∀ branch, Leads R (updateTarget branch old new)) :
    Leads R (redirectBranches old new) := by
  intro l
  by_cases known : l.contains new
  · have opened : redirectBranches old new l = redirect old new (l.targetersOf old) l :=
      if_pos known
    rw [left, opened]
    exact leads_redirect refl trans each (l.targetersOf old) l
  · have refused : redirectBranches old new l = .error (.unknownHandle new) l := if_neg known
    rw [left, refused]
    exact refl l

end Redirect

theorem follows_redirectBranches {old new : Handle} (coherent : l.Coherent entries) :
    Follows entries l (left (redirectBranches old new) l) :=
  leads_redirectBranches (R := fun l m => l.Coherent entries → Follows entries l m)
    (fun _ => .refl) (fun _ _ _ first second before =>
      have follows := first before
      follows.trans (second follows.coherent))
    (fun _ _ => follows_updateTarget) l coherent

theorem Coherent.setOffsets (coherent : l.Coherent entries) (offsets? : Option Offsets) :
    Follows entries l { l with offsets? := offsets? } where
  coherent := {
    nodup := coherent.nodup
    stored := coherent.stored
    own := coherent.own
    index := fun t h => by
      have exact' := coherent.index t h
      cases t <;> exact exact'
    known := fun t h => by
      have target := coherent.known t h
      cases t <;> exact target }
  continues := ⟨rfl, Nat.le_refl _, fun _ present absent => absurd present absent⟩

theorem follows_resolve (coherent : l.Coherent entries) :
    Follows entries l (left resolve l) := by
  unfold left resolve
  cases l.layout with
  | error e => exact .refl coherent
  | ok o => exact coherent.setOffsets _

theorem left_encode (l : Listing) : left encode l = left resolve l := by
  refine (left_bind resolve _ l).trans ?_
  unfold left
  cases resolve l with
  | error e m => rfl
  | ok _ m =>
    dsimp only
    cases m.layout.bind fun o => m.order.toList.mapM (m.encodeOne o) <;> rfl

end JvmClass.Listing
