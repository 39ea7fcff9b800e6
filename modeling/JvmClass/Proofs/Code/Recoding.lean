import JvmClass.Proofs.Code.History
import JvmClass.Proofs.Code.Layout
import Mathlib.Data.List.Nodup

/-! A listing written as a code array and read again.  Handles change, so listings are compared
with the position of each target in its place. -/

namespace JvmClass.Listing

open Instruction

variable {entries : Targeter → List Handle} {l m : Listing} {is : List (Instruction Handle)}
  {o : Offsets} {h t : Handle} {i : Instruction Handle} {n k : Nat} {code bytes : List UInt8}

def byPosition (l : Listing) : List (Instruction (Option Nat)) :=
  l.toList.map fun (_, i) => i.map l.position?

theorem toList_eq {hs : List Handle} (order : l.order.toList = hs)
    (stored : List.Forall₂ (fun h i => l.get? h = some i) hs is) : l.toList = hs.zip is := by
  unfold toList
  rw [order]
  clear order
  induction stored with
  | nil => rfl
  | cons here _ ih => simp [here, ih]

theorem byPosition_eq (stored : List.Forall₂ (fun h i => l.get? h = some i) l.order.toList is) :
    l.byPosition = is.map fun i => i.map l.position? := by
  have second : (l.order.toList.zip is).map (·.2) = is :=
    List.map_snd_zip (Nat.le_of_eq stored.length_eq.symm)
  calc l.byPosition
      = (l.order.toList.zip is).map fun p => p.2.map l.position? := by
        rw [byPosition, toList_eq rfl stored]
    _ = ((l.order.toList.zip is).map (·.2)).map fun i => i.map l.position? := by
        rw [List.map_map]
        rfl
    _ = is.map fun i => i.map l.position? := by rw [second]

/-- The order of a listing holds these instructions once each, and all that they point at. -/
structure Lists (l : Listing) (is : List (Instruction Handle)) : Prop where
  nodup : l.order.toList.Nodup
  stored : List.Forall₂ (fun h i => l.get? h = some i) l.order.toList is
  known : ∀ i ∈ is, ∀ t ∈ i.targets, t ∈ l.order.toList

theorem Indexed.exists_instructions (indexed : l.Indexed entries) :
    ∃ is, List.Forall₂ (fun h i => l.get? h = some i) l.order.toList is := by
  have each : ∀ h ∈ l.order.toList, ∃ i, l.get? h = some i := fun h member =>
    contains_iff.mp ((indexed.stored h).mp member)
  generalize l.order.toList = hs at each
  induction hs with
  | nil => exact ⟨[], .nil⟩
  | cons h hs ih =>
    obtain ⟨i, here⟩ := each h List.mem_cons_self
    obtain ⟨is, others⟩ := ih fun k member => each k (List.mem_cons_of_mem h member)
    exact ⟨i :: is, .cons here others⟩

theorem position?_eq (nodup : l.order.toList.Nodup) (here : l.order.toList[k]? = some h) :
    l.position? h = some k := by
  have listed := List.idxOf?_toArray h l.order.toList
  rw [Array.toArray_toList] at listed
  unfold position?
  rw [listed, List.idxOf?_eq_some_iff]
  obtain ⟨bound, same⟩ := List.getElem?_eq_some_iff.mp here
  refine ⟨bound, same, fun j before again => ?_⟩
  have equal := nodup.getElem_inj_iff.mp (again.trans same.symm)
  omega

theorem exists_position (nodup : l.order.toList.Nodup) (member : h ∈ l.order.toList) :
    ∃ k, l.order.toList[k]? = some h ∧ l.position? h = some k := by
  obtain ⟨k, here⟩ := List.mem_iff_getElem?.mp member
  exact ⟨k, here, position?_eq nodup here⟩

theorem Coherent.exists_lists (coherent : l.Coherent entries) : ∃ is, l.Lists is := by
  obtain ⟨is, stored⟩ := coherent.toIndexed.exists_instructions
  refine ⟨is, coherent.nodup, stored, fun i member t target => ?_⟩
  obtain ⟨h, _, here⟩ := exists_left_of_forall₂ stored member
  exact (coherent.stored t).mpr (coherent.known (.instruction h) t (by rwa [targets_of_get here]))

theorem layOut_congr (same : m.instructions = l.instructions) (hs : List Handle) (o : Offsets) :
    m.layOut hs o = l.layOut hs o := by
  induction hs generalizing o with
  | nil => rfl
  | cons h hs ih =>
    have here : m.get? h = l.get? h := congrArg (·[h]?) same
    simp only [layOut, here]
    cases l.get? h with
    | none => rfl
    | some i => exact ih _

theorem layout_setOffsets (offsets? : Option Offsets) :
    ({ l with offsets? := offsets? } : Listing).layout = l.layout := by
  unfold layout
  rw [layOut_congr (l := l) (m := { l with offsets? := offsets? }) rfl]

theorem layout_eq_ok (laid : l.layout = .ok o) :
    l.layOut l.order.toList ⟨∅, 0⟩ = .ok o ∧ o.length ≤ maxCodeLength := by
  obtain ⟨p, run, laid⟩ := bind_eq_ok laid
  split at laid
  · cases laid
  · rename_i short
    cases laid
    exact ⟨run, Nat.le_of_not_lt short⟩

theorem encode_of_layout (laid : l.layout = .ok o) :
    encode l = match l.order.toList.mapM (l.encodeOne o) with
      | .error e => .error e { l with offsets? := some o }
      | .ok pieces => .ok pieces.flatten { l with offsets? := some o } := by
  change EStateM.bind resolve _ l = _
  unfold EStateM.bind resolve
  rw [laid]
  dsimp only
  rw [layout_setOffsets, laid]
  rfl

theorem encode_eq_ok (encoded : encode l = .ok code m) :
    ∃ o pieces, l.layOut l.order.toList ⟨∅, 0⟩ = .ok o ∧ o.length ≤ maxCodeLength ∧
      List.Forall₂ (fun h bytes => l.encodeOne o h = .ok bytes) l.order.toList pieces ∧
      code = pieces.flatten ∧ m = { l with offsets? := some o } := by
  cases laid : l.layout with
  | error e =>
    change EStateM.bind resolve _ l = _ at encoded
    unfold EStateM.bind resolve at encoded
    rw [laid] at encoded
    cases encoded
  | ok o =>
    rw [encode_of_layout laid] at encoded
    cases written : l.order.toList.mapM (l.encodeOne o) with
    | error e =>
      rw [written] at encoded
      cases encoded
    | ok pieces =>
      rw [written] at encoded
      cases encoded
      obtain ⟨run, short⟩ := layout_eq_ok laid
      exact ⟨o, pieces, run, short, mapM_eq_ok_iff.mp written, rfl, rfl⟩

theorem layout_of_layOut (laid : l.layOut l.order.toList ⟨∅, 0⟩ = .ok o)
    (short : o.length ≤ maxCodeLength) : l.layout = .ok o := by
  unfold layout
  rw [laid]
  exact if_neg (Nat.not_lt_of_le short)

theorem encode_of_pieces (pieces : List (List UInt8))
    (laid : l.layOut l.order.toList ⟨∅, 0⟩ = .ok o) (short : o.length ≤ maxCodeLength)
    (written : List.Forall₂ (fun h bytes => l.encodeOne o h = .ok bytes) l.order.toList pieces) :
    encode l = .ok pieces.flatten { l with offsets? := some o } := by
  rw [encode_of_layout (layout_of_layOut laid short), mapM_eq_ok_iff.mpr written]

def distance (o : Offsets) (n : Nat) (t : Handle) : Int32 :=
  Int32.ofInt ((o.starts[t]?.getD 0 : Nat) - (n : Int))

theorem offsetOf_eq_ok_iff : offsetOf o h = .ok n ↔ o.starts[h]? = some n := by
  unfold offsetOf
  cases o.starts[h]? <;> simp

def reach (o : Offsets) (h : Handle) (i : Instruction Handle) (n : Nat) (t : Handle) :
    Except Error Int32 :=
  match o.starts[t]? with
  | none => .error (.unknownHandle t)
  | some x =>
    if isShortBranch i && !fitsShort ((x : Int) - n) then .error (.branchTooFar h (x - n))
    else .ok (Int32.ofInt (x - n))

theorem encodeOne_eq (stored : l.get? h = some i) (start : o.starts[h]? = some n) :
    l.encodeOne o h = i.mapM (reach o h i n) >>= fun relative => relative.encodeAt n := by
  unfold encodeOne
  rw [stored]
  dsimp only
  rw [offsetOf_eq_ok_iff.mpr start]
  change (i.mapM _ >>= _) = _
  congr 2
  funext t
  unfold reach offsetOf
  cases o.starts[t]? with
  | none => rfl
  | some x =>
    by_cases far : (isShortBranch i && !fitsShort ((x : Int) - n)) = true
    · exact (if_pos far).trans (if_pos far).symm
    · exact (if_neg far).trans (if_neg far).symm

theorem encodeAt_of_encodeOne (stored : l.get? h = some i) (start : o.starts[h]? = some n)
    (encoded : l.encodeOne o h = .ok bytes) : (i.map (distance o n)).encodeAt n = .ok bytes := by
  rw [encodeOne_eq stored start] at encoded
  obtain ⟨relative, linked, encoded⟩ := bind_eq_ok encoded
  have targets : relative = i.map (distance o n) := by
    refine eq_map_of_mapM linked fun t _ d found => ?_
    unfold reach at found
    unfold distance
    split at found
    · cases found
    · rename_i x there
      rw [there]
      split at found
      · cases found
      · cases found
        rfl
  subst targets
  exact encoded

theorem encodeOne_eq_ok (stored : l.get? h = some i) (start : o.starts[h]? = some n)
    (encoded : l.encodeOne o h = .ok bytes) :
    Spells n bytes (i.map (distance o n)).reread (i.widthAt n) := by
  have spelled := spells_of_encodeAt (encodeAt_of_encodeOne stored start encoded)
  rwa [widthAt_map] at spelled

section Starts

variable {id length : Nat} {read : List (Nat × Instruction Int32)}

theorem offsets_startsOf (id length : Nat) (read : List (Nat × Instruction Int32)) :
    (startsOf id length read).table.toList.map (·.1) = read.map (·.1) := by
  conv => rhs; rw [← List.zipIdx_map_fst 0 read]
  unfold startsOf
  rw [List.toList_toArray, List.map_map, List.map_map]
  rfl

theorem handles_startsOf (id length : Nat) (read : List (Nat × Instruction Int32)) :
    (startsOf id length read).table.toList.map (·.2) = handlesFrom id 0 read.length := by
  unfold handlesFrom startsOf
  rw [← List.zipIdx_map_snd, List.toList_toArray, List.map_map, List.map_map]
  rfl

theorem increasing_startsOf (increasing : read.Pairwise fun p q => p.1 < q.1) :
    Search.Increasing (·.1) (startsOf id length read).table := by
  refine List.pairwise_map.mp ?_
  rw [offsets_startsOf]
  exact List.pairwise_map.mpr increasing

theorem at?_startsOf (increasing : read.Pairwise fun p q => p.1 < q.1) {x k : Nat}
    {i : Instruction Int32} (here : read[k]? = some (x, i)) :
    (startsOf id length read).at? x = some ⟨id, k⟩ := by
  have member : (x, ⟨id, k⟩) ∈ (startsOf id length read).table :=
    mem_startsOf.mpr ⟨rfl, i, here⟩
  unfold Starts.at?
  rw [(Search.at?_eq_some_iff (increasing_startsOf increasing)).mpr ⟨member, rfl⟩]
  rfl

end Starts

def renamed (l : Listing) (id : Nat) (t : Handle) : Handle := ⟨id, (l.position? t).getD 0⟩

/-- What is read for an instruction that was written at an offset. -/
def spelling (o : Offsets) (n : Nat) (i : Instruction Handle) : Instruction Int32 :=
  (i.map (distance o n)).reread

def spellings (o : Offsets) (is : List (Instruction Handle)) : List (Nat × Instruction Int32) :=
  (placed 0 is).map fun p => (p.1, spelling o p.1 p.2)

theorem increasing_spellings (o : Offsets) (is : List (Instruction Handle)) :
    (spellings o is).Pairwise fun p q => p.1 < q.1 :=
  List.pairwise_map.mpr (increasing_placed is)

theorem add_distance {x : Nat} (there : o.starts[t]? = some x) (near : n ≤ maxCodeLength)
    (close : x ≤ maxCodeLength) : (n : Int) + (distance o n t).toInt = x := by
  have exact' : (distance o n t).toInt = (x : Int) - n := by
    unfold distance
    rw [there, Int32.toInt_ofInt, Option.getD_some]
    unfold maxCodeLength at near close
    have size : (Int32.size : Int) = 4294967296 := rfl
    exact Int.bmod_eq_of_le (by omega) (by omega)
  omega

theorem linkOne_spelling {id length : Nat} (lists : l.Lists is)
    (located : l.Located o.starts l.order.toList (placed 0 is))
    (short : extent 0 is ≤ maxCodeLength) (member : (n, i) ∈ placed 0 is) :
    linkOne (startsOf id length (spellings o is)) n (spelling o n i) =
      .ok (i.reread.map (l.renamed id)) := by
  unfold linkOne spelling
  rw [reread_map, mapM_map]
  refine mapM_eq_map fun t target => ?_
  rw [targets_reread] at target
  have listed : i ∈ is := by
    rw [← map_snd_placed 0 is]
    exact List.mem_map_of_mem member
  obtain ⟨k, here, position⟩ := exists_position lists.nodup (lists.known i listed t target)
  obtain ⟨⟨x, j⟩, there, start, _⟩ := getElem?_of_forall₂ located here
  have near := (bounds_of_placed member).2
  have close := (bounds_of_placed (List.mem_of_getElem? there)).2
  have sum := add_distance start (Nat.le_trans near short) (Nat.le_trans close short)
  have read : (spellings o is)[k]? = some (x, spelling o x j) := by
    unfold spellings
    rw [List.getElem?_map, there]
    rfl
  have found : (startsOf id length _).at? x = some ⟨id, k⟩ :=
    at?_startsOf (increasing_spellings o is) read
  dsimp only
  rw [sum, if_neg (by omega), Int.toNat_natCast, found]
  unfold renamed
  rw [position]
  rfl

theorem linked_spellings (id length : Nat) (lists : l.Lists is)
    (located : l.Located o.starts l.order.toList (placed 0 is))
    (short : extent 0 is ≤ maxCodeLength) :
    List.Forall₂ (fun r i => linkOne (startsOf id length (spellings o is)) r.1 r.2 = .ok i)
      (spellings o is) (is.map fun i => i.reread.map (l.renamed id)) := by
  have same : is = (placed 0 is).map (·.2) := (map_snd_placed 0 is).symm
  conv => rhs; rw [same, List.map_map]
  unfold spellings
  rw [List.forall₂_map_left_iff, List.forall₂_map_right_iff, List.forall₂_same]
  exact fun p member => linkOne_spelling lists located short member

/-- The listing that is made of the instructions of another, with handles of its own. -/
def reissued (l : Listing) (id : Nat) (is : List (Instruction Handle)) : Listing :=
  placeAll (is.map fun i => i.reread.map (l.renamed id)) (empty id)

theorem order_reissued (l : Listing) (id : Nat) (is : List (Instruction Handle)) :
    (l.reissued id is).order.toList = handlesFrom id 0 is.length := by
  unfold reissued
  rw [order_placeAll, List.length_map]
  rfl

theorem stored_reissued (l : Listing) (id : Nat) (is : List (Instruction Handle)) :
    List.Forall₂ (fun h i => (l.reissued id is).get? h = some i) (handlesFrom id 0 is.length)
      (is.map fun i => i.reread.map (l.renamed id)) := by
  have each := get?_placeAll (is.map fun i => i.reread.map (l.renamed id)) (empty id)
  rwa [List.length_map] at each

theorem position?_reissued {id : Nat} (bound : k < is.length) :
    (l.reissued id is).position? ⟨id, k⟩ = some k := by
  refine position?_eq ?_ ?_
  · exact ((coherent_empty id).toIndexed.placeAll).nodup
  · rw [order_reissued, handlesFrom, List.getElem?_map,
      List.getElem?_range' bound, Nat.zero_add, Nat.one_mul]
    rfl

theorem byPosition_reissued {id : Nat} (lists : l.Lists is) :
    (l.reissued id is).byPosition = l.byPosition.map reread := by
  have placed := stored_reissued l id is
  rw [← order_reissued l id is] at placed
  rw [byPosition_eq placed, byPosition_eq lists.stored, List.map_map, List.map_map]
  refine List.map_congr_left fun i member => ?_
  simp only [Function.comp_apply]
  rw [map_map, reread_map]
  refine map_congr fun t target => ?_
  rw [targets_reread] at target
  obtain ⟨k, there, position⟩ := exists_position lists.nodup (lists.known i member t target)
  have bound : k < is.length := by
    rw [← lists.stored.length_eq]
    exact (List.getElem?_eq_some_iff.mp there).1
  unfold renamed
  rw [position, Option.getD_some, position?_reissued bound]

/-- What a listing `l` that became `m` when it was written and the listing `c` that was read of
its code array have to do with each other. -/
structure Recodes (l m c : Listing) (starts : Starts) (code : List UInt8) : Prop where
  kept : m.order = l.order
  size : c.size = l.size
  complete : l.byPosition.length = l.size ∧ ∀ i ∈ l.byPosition, none ∉ i.targets
  instructions : c.byPosition = l.byPosition.map reread
  offsets : starts.table.toList.map (fun p => some p.1) = m.order.toList.map m.offset?
  handles : starts.table.toList.map (·.2) = c.order.toList
  written : m.length? = some code.length
  read : c.length? = some code.length

theorem complete_byPosition (lists : l.Lists is) :
    l.byPosition.length = l.size ∧ ∀ i ∈ l.byPosition, none ∉ i.targets := by
  rw [byPosition_eq lists.stored]
  refine ⟨?_, ?_⟩
  · rw [List.length_map, ← lists.stored.length_eq, Array.length_toList, size]
  · intro j member missing
    obtain ⟨i, listed, rfl⟩ := List.mem_map.mp member
    rw [targets_map] at missing
    obtain ⟨t, target, missing⟩ := List.mem_map.mp missing
    obtain ⟨k, _, position⟩ := exists_position lists.nodup (lists.known i listed t target)
    rw [position] at missing
    cases missing

theorem recodes_reissued {id : Nat} {p : Offsets} (lists : l.Lists is)
    (located : l.Located o.starts l.order.toList (placed 0 is))
    (written : o.length = code.length) (read : p.length = code.length) :
    Recodes l { l with offsets? := some o } { l.reissued id is with offsets? := some p }
      (startsOf id code.length (spellings o is)) code where
  kept := rfl
  complete := complete_byPosition lists
  size := by
    unfold size
    rw [← Array.length_toList, ← Array.length_toList, order_reissued, lists.stored.length_eq]
    simp [handlesFrom]
  instructions := byPosition_reissued lists
  offsets := by
    have starts : l.order.toList.map (fun h => o.starts[h]?) =
        (placed 0 is).map fun p => some p.1 :=
      map_eq_map_of_forall₂ (located.imp fun h p here => here.1)
    have keys := congrArg (List.map some) (offsets_startsOf id code.length (spellings o is))
    rw [List.map_map, List.map_map] at keys
    exact keys.trans (by rw [spellings, List.map_map]; exact starts.symm)
  handles := by
    rw [handles_startsOf, order_reissued, spellings, List.length_map, length_placed]
  written := congrArg some written
  read := congrArg some read

theorem decode_reissued (lists : l.Lists is) (encoded : encode l = .ok code m) (id : Nat) :
    ∃ o p, l.Located o.starts l.order.toList (placed 0 is) ∧ extent 0 is = code.length ∧
      o.length = code.length ∧ code.length ≤ maxCodeLength ∧ p.length = code.length ∧
      m = { l with offsets? := some o } ∧
      (∀ h x, o.starts[h]? = some x → h ∈ l.order.toList) ∧
      decode id code = .ok ({ l.reissued id is with offsets? := some p },
        startsOf id code.length (spellings o is)) := by
  obtain ⟨o, pieces, laid, short, written, rfl, rfl⟩ := encode_eq_ok encoded
  obtain ⟨q, run, ends, others, located⟩ := layOut_eq_ok (o := ⟨∅, 0⟩) lists.stored lists.nodup
  have same : q = o := Except.ok.inj (run.symm.trans laid)
  subst same
  have spelled : List.Forall₂ (fun p bytes => Spells p.1 bytes (spelling q p.1 p.2)
      (p.2.widthAt p.1)) (placed 0 is) pieces :=
    forall₂_join located written fun h p bytes _ here piece =>
      encodeOne_eq_ok here.2 here.1 piece
  obtain ⟨read, length⟩ := readAll_pieces spelled
  rw [Nat.zero_add] at length
  obtain ⟨p, linked, length'⟩ := linkAll_of_linkOne (l := empty id)
    (o := ⟨∅, pieces.flatten.length⟩)
    (linked_spellings id pieces.flatten.length lists located (ends ▸ short))
  have whole : q.length = pieces.flatten.length := ends.trans length.symm
  refine ⟨q, p, located, length.symm, whole, whole ▸ short, length', rfl, fun h x start => ?_, ?_⟩
  · by_contra absent
    rw [others h absent] at start
    simp at start
  unfold decode Input.ofBytes
  rw [read]
  change (linkAll (startsOf id pieces.flatten.length (spellings q is)) (spellings q is) (empty id)
    ⟨∅, pieces.flatten.length⟩ >>= _) = _
  rw [linked]
  rfl

theorem decode_of_encode (coherent : l.Coherent entries) (encoded : encode l = .ok code m)
    (id : Nat) : ∃ c starts, decode id code = .ok (c, starts) ∧ Recodes l m c starts code := by
  obtain ⟨is, lists⟩ := coherent.exists_lists
  obtain ⟨o, p, located, _, written, _, read, rfl, _, decoded⟩ := decode_reissued lists encoded id
  exact ⟨_, _, decoded, recodes_reissued lists located written read⟩

/-- Whatever a listing is written as is read as the same instructions in the same order, at the
offsets that the listing tells. -/
theorem decode_encode_of_reachable (reachable : l.Reachable) (encoded : encode l = .ok code m)
    (id : Nat) : ∃ c starts, decode id code = .ok (c, starts) ∧ Recodes l m c starts code :=
  decode_of_encode (coherent_of_reachable reachable) encoded id

def loop : Listing :=
  (Command.append (.branch .goto ⟨0, 0⟩)).run ((Command.append (.bipush 1)).run (empty 0))

theorem loop_eq : loop = placeAll [.bipush 1, .branch .goto ⟨0, 0⟩] (empty 0) := by
  have known : ((empty 0).place 0 (.bipush 1)).2.checkTargets (.branch .goto ⟨0, 0⟩) = .ok () := by
    rw [checkTargets_iff]
    intro t target
    rw [List.mem_singleton.mp target]
    exact contains_place.mpr (.inl rfl)
  change left (append (.branch .goto ⟨0, 0⟩)) ((empty 0).place 0 (.bipush 1)).2 = _
  unfold left append insertAt
  rw [known]
  rfl

theorem encode_loop : ∃ m, encode loop = .ok [0x10, 1, 0xa7, 0xff, 0xfe] m := by
  have order : loop.order.toList = [⟨0, 0⟩, ⟨0, 1⟩] := by
    rw [loop_eq, order_placeAll]
    rfl
  have stored : List.Forall₂ (fun h i => loop.get? h = some i) [⟨0, 0⟩, ⟨0, 1⟩]
      [.bipush 1, .branch .goto ⟨0, 0⟩] := by
    rw [loop_eq]
    exact get?_placeAll _ (empty 0)
  have nodup : loop.order.toList.Nodup := by
    rw [order]
    decide
  obtain ⟨o, laid, length, _, located⟩ := layOut_eq_ok (o := ⟨∅, 0⟩) (order ▸ stored) nodup
  rw [order] at located
  obtain _ | ⟨⟨start, first⟩, _ | ⟨⟨next, second⟩, _⟩⟩ := located
  have start : o.starts[(⟨0, 0⟩ : Handle)]? = some 0 := start
  have next : o.starts[(⟨0, 1⟩ : Handle)]? = some 2 := next
  refine ⟨_, encode_of_pieces [[0x10, 1], [0xa7, 0xff, 0xfe]] laid ?_ ?_⟩
  · rw [length]
    decide +kernel
  · rw [order]
    refine .cons ?_ (.cons ?_ .nil)
    · simp only [encodeOne, first, offsetOf, start, mapM]
      decide +kernel
    · simp only [encodeOne, second, offsetOf, next, mapM, start]
      decide +kernel

theorem decode_encode_loop : ∃ m, encode loop = .ok [0x10, 1, 0xa7, 0xff, 0xfe] m ∧
    ∃ c starts, decode 1 [0x10, 1, 0xa7, 0xff, 0xfe] = .ok (c, starts) ∧
      Recodes loop m c starts [0x10, 1, 0xa7, 0xff, 0xfe] := by
  obtain ⟨m, encoded⟩ := encode_loop
  exact ⟨m, encoded, decode_encode_of_reachable (.edited _ (.edited _ (.empty 0))) encoded 1⟩

end JvmClass.Listing
