import JvmClass.Proofs.Code.Edits
import JvmClass.Proofs.Instruction.Targets
import JvmClass.Proofs.Search

/-! Making a listing of the instructions of a code array.  They are placed one after the other
before it is known that everything they point at is placed as well, so the listing is `Indexed` on
the way and `Coherent` at the end. -/

namespace JvmClass.Listing

variable {entries : Targeter → List Handle} {l m : Listing} {h : Handle} {t : Targeter}
  {is : List (Instruction Handle)}

def handlesFrom (id start n : Nat) : List Handle := (List.range' start n).map (⟨id, ·⟩)

theorem mem_handlesFrom {id start n : Nat} :
    h ∈ handlesFrom id start n ↔ h.listing = id ∧ start ≤ h.number ∧ h.number < start + n := by
  unfold handlesFrom
  rw [List.mem_map]
  constructor
  · rintro ⟨k, member, rfl⟩
    exact ⟨rfl, List.mem_range'_1.mp member⟩
  · rintro ⟨rfl, bounds⟩
    exact ⟨h.number, List.mem_range'_1.mpr bounds, rfl⟩

def placeAll (is : List (Instruction Handle)) (l : Listing) : Listing :=
  is.foldl (fun l i => (l.place l.order.size i).2) l

theorem linkAll_eq_ok {starts : Starts} {read : List (Nat × Instruction Int32)} {o p : Offsets}
    (linked : linkAll starts read l o = .ok (m, p)) :
    ∃ is, List.Forall₂ (fun r i => linkOne starts r.1 r.2 = .ok i) read is ∧ m = placeAll is l ∧
      p.length = o.length := by
  induction read generalizing l o with
  | nil =>
    cases linked
    exact ⟨[], .nil, rfl, rfl⟩
  | cons r read ih =>
    obtain ⟨i, first, linked⟩ := bind_eq_ok linked
    obtain ⟨is, others, placed, length⟩ := ih linked
    exact ⟨i :: is, .cons first others, placed, length⟩

theorem linkAll_of_linkOne {starts : Starts} {read : List (Nat × Instruction Int32)} {o : Offsets}
    (each : List.Forall₂ (fun r i => linkOne starts r.1 r.2 = .ok i) read is) :
    ∃ p, linkAll starts read l o = .ok (placeAll is l, p) ∧ p.length = o.length := by
  induction each generalizing l o with
  | nil => exact ⟨o, rfl, rfl⟩
  | @cons r i read is first _ ih =>
    obtain ⟨p, linked, length⟩ := ih (l := (l.place l.order.size i).2)
      (o := ⟨o.starts.insert (l.place l.order.size i).1 r.1, o.length⟩)
    refine ⟨p, ?_, length⟩
    rw [linkAll, first]
    exact linked

theorem size_place (i : Instruction Handle) :
    (l.place l.order.size i).2.order.toList = l.order.toList ++ [⟨l.id, l.fresh⟩] := by
  change (l.order.insertIdxIfInBounds l.order.size ⟨l.id, l.fresh⟩).toList = _
  rw [toList_insert, ← Array.length_toList, List.insertIdx_length_self]

theorem order_placeAll (is : List (Instruction Handle)) (l : Listing) :
    (placeAll is l).order.toList =
      l.order.toList ++ handlesFrom l.id l.fresh is.length := by
  induction is generalizing l with
  | nil => simp [placeAll, handlesFrom]
  | cons i is ih =>
    change (placeAll is (l.place l.order.size i).2).order.toList = _
    rw [ih, size_place]
    change _ ++ handlesFrom l.id (l.fresh + 1) is.length = _
    simp [handlesFrom, List.range'_succ]

theorem get?_placeAll_of_lt (is : List (Instruction Handle)) (older : h.number < l.fresh) :
    (placeAll is l).get? h = l.get? h := by
  induction is generalizing l with
  | nil => rfl
  | cons i is ih =>
    refine (ih (Nat.lt_succ_of_lt older)).trans ?_
    have different : (⟨l.id, l.fresh⟩ : Handle) ≠ h := by
      rintro rfl
      exact Nat.lt_irrefl _ older
    change (l.instructions.insert ⟨l.id, l.fresh⟩ i)[h]? = _
    rw [Std.HashMap.getElem?_insert, beq_false_of_ne different]
    rfl

theorem get?_placeAll (is : List (Instruction Handle)) (l : Listing) :
    List.Forall₂ (fun h i => (placeAll is l).get? h = some i)
      (handlesFrom l.id l.fresh is.length) is := by
  induction is generalizing l with
  | nil => exact .nil
  | cons i is ih =>
    have first : (placeAll (i :: is) l).get? ⟨l.id, l.fresh⟩ = some i := by
      have later := Nat.lt_succ_self l.fresh
      refine (get?_placeAll_of_lt (l := (l.place l.order.size i).2) is later).trans ?_
      change (l.instructions.insert ⟨l.id, l.fresh⟩ i)[(⟨l.id, l.fresh⟩ : Handle)]? = _
      rw [Std.HashMap.getElem?_insert_self]
    exact .cons first (ih (l.place l.order.size i).2)

theorem Indexed.placeAll (indexed : l.Indexed entries) : (placeAll is l).Indexed entries := by
  induction is generalizing l with
  | nil => exact indexed
  | cons i is ih => exact ih (indexed.place (Nat.le_refl _))

theorem mentions_placeAll (mentioned : h ∈ (placeAll is l).mentions entries t) :
    h ∈ l.mentions entries t ∨ ∃ i ∈ is, h ∈ i.targets := by
  induction is generalizing l with
  | nil => exact .inl mentioned
  | cons i is ih =>
    obtain earlier | ⟨j, member, target⟩ := ih mentioned
    · rw [mentions_place] at earlier
      split at earlier
      · exact .inr ⟨i, List.mem_cons_self, earlier⟩
      · exact .inl earlier
    · exact .inr ⟨j, List.mem_cons_of_mem i member, target⟩

theorem at?_eq_some {starts : Starts} {offset : Nat} (found : starts.at? offset = some h) :
    (offset, h) ∈ starts.table := by
  unfold Starts.at? at found
  obtain ⟨⟨start, handle⟩, found, same⟩ := Option.map_eq_some_iff.mp found
  obtain ⟨member, key⟩ := Search.of_at? found
  cases same
  cases key
  exact member

theorem mem_targets_of_linkOne {starts : Starts} {offset : Nat} {i : Instruction Int32}
    {j : Instruction Handle} (linked : linkOne starts offset i = .ok j)
    (target : h ∈ j.targets) : ∃ start, (start, h) ∈ starts.table := by
  obtain ⟨relative, _, found⟩ :=
    exists_left_of_forall₂ (Instruction.forall₂_targets linked) target
  conv at found => lhs; zeta
  split at found
  · rename_i k here
    cases found
    split at here
    · cases here
    · exact ⟨_, at?_eq_some here⟩
  · cases found

/-- The starts of the instructions of a code array, with the handles that they get. -/
def startsOf (id length : Nat) (read : List (Nat × Instruction Int32)) : Starts :=
  ⟨(read.zipIdx.map fun ((offset, _), k) => (offset, ⟨id, k⟩)).toArray, length⟩

theorem mem_startsOf {id length start : Nat} {read : List (Nat × Instruction Int32)} :
    (start, h) ∈ (startsOf id length read).table ↔
      h.listing = id ∧ ∃ i, read[h.number]? = some (start, i) := by
  unfold startsOf
  rw [List.mem_toArray, List.mem_map]
  constructor
  · rintro ⟨⟨⟨offset, i⟩, k⟩, member, same⟩
    cases same
    exact ⟨rfl, i, by simpa using List.mem_zipIdx_iff_getElem?.mp member⟩
  · rintro ⟨rfl, i, here⟩
    exact ⟨((start, i), h.number), List.mem_zipIdx_iff_getElem?.mpr (by simpa using here), rfl⟩

theorem decode_eq_ok {id : Nat} {code : List UInt8} {starts : Starts}
    (decoded : decode id code = .ok (l, starts)) :
    ∃ read is offsets, readAll (.ofBytes code) = .ok read ∧
      starts = startsOf id code.length read ∧
      List.Forall₂ (fun r i => linkOne starts r.1 r.2 = .ok i) read is ∧
      l = { placeAll is (empty id) with offsets? := some offsets } ∧
      offsets.length = code.length := by
  obtain ⟨read, all, decoded⟩ := bind_eq_ok decoded
  obtain ⟨⟨m, offsets⟩, linked, decoded⟩ := bind_eq_ok decoded
  cases decoded
  obtain ⟨is, each, placed, length⟩ := linkAll_eq_ok linked
  exact ⟨read, is, offsets, all, rfl, each, by rw [placed], length⟩

theorem coherent_decode {id : Nat} {code : List UInt8} {starts : Starts}
    (decoded : decode id code = .ok (l, starts)) : l.Coherent fun _ => [] := by
  obtain ⟨read, is, offsets, _, same, each, rfl, _⟩ := decode_eq_ok decoded
  have indexed : (placeAll is (empty id)).Indexed fun _ => [] :=
    (coherent_empty id).toIndexed.placeAll
  have known : ∀ t h, h ∈ (placeAll is (empty id)).mentions (fun _ => []) t →
      (placeAll is (empty id)).contains h := by
    intro t h mentioned
    obtain earlier | ⟨j, member, target⟩ := mentions_placeAll mentioned
    · exact absurd ((coherent_empty id).known t h earlier) (by simp)
    · obtain ⟨r, _, linked⟩ := exists_left_of_forall₂ each member
      obtain ⟨start, listed⟩ := mem_targets_of_linkOne linked target
      rw [same, mem_startsOf] at listed
      obtain ⟨owner, i, here⟩ := listed
      have bound := (List.getElem?_eq_some_iff.mp here).1
      rw [each.length_eq] at bound
      rw [← indexed.stored, order_placeAll, List.mem_append]
      exact .inr (mem_handlesFrom.mpr ⟨owner, Nat.zero_le _, by simpa [empty] using bound⟩)
  exact (Coherent.setOffsets ⟨indexed, known⟩ _).coherent

end JvmClass.Listing
