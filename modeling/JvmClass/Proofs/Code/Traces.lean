import JvmClass.Proofs.Code.Lifting

/-! Where the instructions of a listing are found after it has been written and read again.  Each
handle goes to the handle at the same position, and the offsets at which an instruction begins and
ends lead back to it. -/

namespace JvmClass

namespace Instruction

variable {τ : Type}

theorem next_placed {start k x : Nat} {i : Instruction τ} {is : List (Instruction τ)}
    (here : (placed start is)[k]? = some (x, i)) :
    (placed start is)[k + 1]?.elim (extent start is) (·.1) = x + i.widthAt x := by
  induction is generalizing start k with
  | nil => cases here
  | cons j is ih =>
    cases k with
    | zero =>
      cases here
      cases is <;> rfl
    | succ k => exact ih here

end Instruction

namespace Listing

open Instruction

variable {l m c : Listing} {is : List (Instruction Handle)} {o : Offsets} {h : Handle}
  {starts : Starts} {code : List UInt8} {k : Nat} {rename : Handle → Handle}

def Starts.stopOf (s : Starts) (k : Nat) : Nat := s.table[k + 1]?.elim s.length (·.1)

namespace Starts

variable {s : Starts} {start offset : Nat}

theorem at?_eq_some (increasing : Search.Increasing (·.1) s.table)
    (entry : s.table[k]? = some (offset, h)) : s.at? offset = some h := by
  unfold at?
  rw [(Search.at?_eq_some_iff increasing).mpr ⟨Array.mem_of_getElem? entry, rfl⟩]
  rfl

theorem at?_stopOf (increasing : Search.Increasing (·.1) s.table) :
    s.stopOf k = s.length ∨ (s.at? (s.stopOf k)).isSome = true := by
  unfold stopOf
  cases next : s.table[k + 1]? with
  | none => exact .inl rfl
  | some entry =>
    right
    rw [Option.elim_some, at?_eq_some increasing next]
    rfl

theorem lastIn?_stopOf (increasing : Search.Increasing (·.1) s.table)
    (entry : s.table[k]? = some (offset, h)) (begins : start ≤ offset)
    (ends : offset < s.stopOf k) : s.lastIn? start (s.stopOf k) = some h := by
  have high : ∀ e, s.table[k + 1]? = some e → e.1 = s.stopOf k := by
    intro e next
    rw [stopOf, next, Option.elim_some]
  unfold lastIn?
  cases stop : s.stopOf k with
  | zero => omega
  | succ last =>
    rw [stop] at ends high
    have found : Search.lastUpTo? (·.1) s.table last = some (offset, h) :=
      Search.lastUpTo?_eq_some increasing.ascending entry (Nat.le_of_lt_succ ends) fun e next => by
        have := high e next
        omega
    dsimp only
    rw [found]
    simp [begins]

end Starts

/-- From a listing `l` that became `m` when it was written to the listing `c` that was read, the
handles are renamed, and the instructions stay as they are in all else. -/
structure Traces (l m c : Listing) (starts : Starts) (rename : Handle → Handle) : Prop where
  instructions : c.toList = l.toList.map fun x => (rename x.1, (x.2.map rename).reread)
  order : c.order.toList = l.order.toList.map rename
  nodup : c.order.toList.Nodup
  stored : ∀ h ∈ c.order.toList, c.contains h
  located : ∀ h x, m.offset? h = some x → h ∈ l.order.toList
  increasing : Search.Increasing (·.1) starts.table
  found : ∀ (k : Nat) h, l.order.toList[k]? = some h → ∃ x i, m.offset? h = some x ∧
    m.get? h = some i ∧ starts.table[k]? = some (x, rename h) ∧ starts.stopOf k = x + i.widthAt x

theorem exists_stored_of_layOut {hs : List Handle} {p : Offsets} (laid : l.layOut hs o = .ok p) :
    ∃ is, List.Forall₂ (fun h i => l.get? h = some i) hs is := by
  induction hs generalizing o with
  | nil => exact ⟨[], .nil⟩
  | cons h hs ih =>
    rw [layOut] at laid
    cases here : l.get? h with
    | none =>
      rw [here] at laid
      cases laid
    | some i =>
      rw [here] at laid
      obtain ⟨is, others⟩ := ih laid
      exact ⟨i :: is, .cons here others⟩

theorem exists_start_of_encodeOne {i : Instruction Handle} {bytes : List UInt8} {t : Handle}
    (here : l.get? h = some i) (encoded : l.encodeOne o h = .ok bytes) (target : t ∈ i.targets) :
    ∃ x, o.starts[t]? = some x := by
  unfold encodeOne at encoded
  rw [here] at encoded
  obtain ⟨offset, _, encoded⟩ := bind_eq_ok encoded
  obtain ⟨relative, linked, _⟩ := bind_eq_ok encoded
  obtain ⟨_, found⟩ := ok_of_mem_targets linked target
  obtain ⟨x, start, _⟩ := bind_eq_ok found
  unfold offsetOf at start
  cases known : o.starts[t]? with
  | none =>
    rw [known] at start
    cases start
  | some y => exact ⟨y, rfl⟩

theorem exists_lists_of_encode (nodup : l.order.toList.Nodup) (encoded : encode l = .ok code m) :
    ∃ is, l.Lists is := by
  obtain ⟨o, pieces, laid, _, written, _⟩ := encode_eq_ok encoded
  obtain ⟨is, stored⟩ := exists_stored_of_layOut laid
  refine ⟨is, nodup, stored, fun i member t target => ?_⟩
  obtain ⟨h, listed, here⟩ := exists_left_of_forall₂ stored member
  obtain ⟨bytes, _, piece⟩ := exists_right_of_forall₂ written listed
  obtain ⟨x, start⟩ := exists_start_of_encodeOne here piece target
  obtain ⟨p, run, _, others, _⟩ := layOut_eq_ok (o := ⟨∅, 0⟩) stored nodup
  obtain rfl := Except.ok.inj (laid.symm.trans run)
  by_contra absent
  rw [others t absent] at start
  simp at start

theorem getElem?_startsOf {id length : Nat} {read : List (Nat × Instruction Int32)} :
    (startsOf id length read).table[k]? = read[k]?.map fun r => (r.1, ⟨id, k⟩) := by
  unfold startsOf
  rw [List.getElem?_toArray, List.getElem?_map, List.getElem?_zipIdx, Option.map_map]
  simp only [Nat.zero_add]
  rfl

theorem map_renamed (lists : l.Lists is) (id : Nat) :
    l.order.toList.map (l.renamed id) = handlesFrom id 0 is.length := by
  refine List.ext_getElem? fun k => ?_
  rw [← lists.stored.length_eq, handlesFrom, List.getElem?_map, List.getElem?_map]
  cases here : l.order.toList[k]? with
  | none =>
    rw [List.getElem?_eq_none_iff.mpr (by simpa using List.getElem?_eq_none_iff.mp here)]
    rfl
  | some h =>
    have bound := (List.getElem?_eq_some_iff.mp here).1
    rw [List.getElem?_range' bound]
    unfold renamed
    rw [Option.map_some, position?_eq lists.nodup here]
    simp

/-- Whatever is written of a listing leads back to it when it is read. -/
theorem traces_of_encode (nodup : l.order.toList.Nodup) (encoded : encode l = .ok code m)
    (id : Nat) : ∃ c starts, decode id code = .ok (c, starts) ∧
      l.Traces m c starts (l.renamed id) := by
  obtain ⟨is, lists⟩ := exists_lists_of_encode nodup encoded
  obtain ⟨o, p, located, ends, _, _, _, rfl, listed, decoded⟩ := decode_reissued lists encoded id
  have order : (l.reissued id is).order.toList = l.order.toList.map (l.renamed id) :=
    (order_reissued l id is).trans (map_renamed lists id).symm
  refine ⟨_, _, decoded, ?_, order, (coherent_decode decoded).nodup,
    fun h => ((coherent_decode decoded).stored h).mp, listed,
    increasing_startsOf (increasing_spellings o is), fun k h here => ?_⟩
  · have placed := stored_reissued l id is
    rw [← map_renamed lists id] at placed
    change (l.reissued id is).toList = _
    rw [toList_eq order placed, toList_eq rfl lists.stored, List.zip_map]
    refine List.map_congr_left fun x _ => ?_
    rw [reread_map]
    rfl
  · obtain ⟨⟨x, i⟩, there, start, stored⟩ := getElem?_of_forall₂ located here
    refine ⟨x, i, start, stored, ?_, ?_⟩
    · rw [getElem?_startsOf, spellings, List.getElem?_map, there, renamed,
        position?_eq lists.nodup here]
      rfl
    · have next := next_placed there
      unfold Starts.stopOf
      rw [getElem?_startsOf, spellings, List.getElem?_map, ← next, ends]
      cases (placed 0 is)[k + 1]? <;> rfl

def InOrder (l : Listing) (start last : Handle) : Prop :=
  ∃ p q, l.position? start = some p ∧ l.position? last = some q ∧ p ≤ q

theorem checkRange_eq_ok_iff {start last : Handle} :
    Body.checkRange l start last = .ok () ↔ l.InOrder start last := by
  constructor
  · intro rule
    obtain ⟨p, first, rule⟩ := bind_eq_ok rule
    obtain ⟨q, second, rule⟩ := bind_eq_ok rule
    refine ⟨p, q, position_eq_ok_iff.mp first, position_eq_ok_iff.mp second, ?_⟩
    by_contra backward
    rw [if_pos (Nat.lt_of_not_le backward)] at rule
    cases rule
  · rintro ⟨p, q, first, second, ordered⟩
    unfold Body.checkRange
    rw [position_eq_ok_iff.mpr first, position_eq_ok_iff.mpr second]
    exact if_neg (Nat.not_lt_of_le ordered)

theorem Reindexed.inOrder {start last : Handle} (same : l.Reindexed m)
    (ordered : l.InOrder start last) : m.InOrder start last := by
  obtain ⟨_, rfl⟩ := same
  exact ordered

namespace Traces

variable (traces : l.Traces m c starts rename)
include traces

theorem contains (member : h ∈ l.order.toList) : c.contains (rename h) := by
  refine traces.stored _ ?_
  rw [traces.order]
  exact List.mem_map_of_mem member

theorem position?_eq (found : l.position? h = some k) : c.position? (rename h) = some k := by
  refine Listing.position?_eq traces.nodup ?_
  rw [traces.order, List.getElem?_map, getElem?_of_position? found]
  rfl

theorem inOrder {start last : Handle} (ordered : l.InOrder start last) :
    c.InOrder (rename start) (rename last) := by
  obtain ⟨p, q, first, second, ordered⟩ := ordered
  exact ⟨p, q, traces.position?_eq first, traces.position?_eq second, ordered⟩

end Traces

end Listing

namespace Body

open Listing (Traces Starts)

variable {l m c : Listing} {starts : Starts} {rename : Handle → Handle} {h start last : Handle}
  {x y : UInt16} {n : Nat}

theorem offset16_eq_ok (fits : offset16 n = .ok x) : x.toNat = n := by
  unfold offset16 maxCodeLength at fits
  split at fits
  · cases fits
    rw [Nat.toUInt16_eq, UInt16.toNat_ofNat']
    omega
  · cases fits

theorem offset?_of_startOf (found : startOf m h = .ok x) : m.offset? h = some x.toNat := by
  unfold startOf at found
  split at found
  · rename_i offset known
    rw [known, offset16_eq_ok found]
  · cases found

theorem exists_of_stopOf (found : stopOf m h = .ok y) : ∃ offset i, m.offset? h = some offset ∧
    m.get? h = some i ∧ y.toNat = offset + i.widthAt offset := by
  unfold stopOf at found
  split at found
  · rename_i offset i known stored
    exact ⟨offset, i, known, stored, offset16_eq_ok found⟩
  · cases found

variable (traces : l.Traces m c starts rename)
include traces

/-- Where an instruction was written it is found. -/
theorem startAt_of_startOf (found : startOf m h = .ok x) :
    startAt starts x.toNat = .ok (rename h) := by
  have known := offset?_of_startOf found
  obtain ⟨k, here⟩ := List.mem_iff_getElem?.mp (traces.located h _ known)
  obtain ⟨offset, i, known', _, there, _⟩ := traces.found k h here
  cases known.symm.trans known'
  exact startAt_eq_ok_iff.mpr (Starts.at?_eq_some traces.increasing there)

theorem contains_of_startOf (found : startOf m h = .ok x) : c.contains (rename h) :=
  traces.contains (traces.located h _ (offset?_of_startOf found))

theorem contains_of_inOrder (ordered : l.InOrder start last) : c.contains (rename last) := by
  obtain ⟨_, q, _, there, _⟩ := ordered
  exact traces.contains (List.mem_of_getElem? (Listing.getElem?_of_position? there))

theorem lastBefore_of_stopOf (ordered : l.InOrder start last) (first : startOf m start = .ok x)
    (ends : stopOf m last = .ok y) :
    x.toNat < y.toNat ∧ lastBefore starts x.toNat y.toNat = .ok (rename last) := by
  obtain ⟨p, q, here, there, ordered⟩ := ordered
  obtain ⟨_, _, known, _, entry, _⟩ := traces.found p start (Listing.getElem?_of_position? here)
  cases (offset?_of_startOf first).symm.trans known
  obtain ⟨offset, i, known', stored', stop⟩ := exists_of_stopOf ends
  obtain ⟨_, _, again, again', entry', stops⟩ :=
    traces.found q last (Listing.getElem?_of_position? there)
  cases known'.symm.trans again
  cases stored'.symm.trans again'
  have begins : x.toNat ≤ offset := by
    obtain rfl | before := Nat.eq_or_lt_of_le ordered
    · exact Nat.le_of_eq (congrArg Prod.fst (Option.some.inj (entry.symm.trans entry')))
    · exact Nat.le_of_lt (traces.increasing.lt before entry entry')
  have wide := i.widthAt_pos offset
  rw [← stops] at stop
  have inside : offset < starts.stopOf q := by omega
  refine ⟨by omega, ?_⟩
  unfold lastBefore
  rw [stop, if_neg, if_neg (by omega),
    Starts.lastIn?_stopOf traces.increasing entry' begins inside]
  rintro ⟨other, absent⟩
  obtain same | present := Starts.at?_stopOf (k := q) traces.increasing
  · exact other same
  · simp [Option.isNone_iff_eq_none.mp absent] at present

end Body

def LineEntry.map (f : Handle → Handle) (n : LineEntry) : LineEntry := { n with start := f n.start }

namespace Body

variable {l m c : Listing} {starts : Listing.Starts} {rename : Handle → Handle}
  (traces : l.Traces m c starts rename)
include traces

theorem rangeOf_of_lowerHandler {r : ExceptionRange} {e : ExceptionEntry}
    (ordered : l.InOrder r.start r.last) (lowered : lowerHandler m r = .ok e) :
    rangeOf starts e = .ok (r.map rename) ∧ (Entry.range (r.map rename)).Fits c := by
  obtain ⟨start, first, lowered⟩ := bind_eq_ok lowered
  obtain ⟨stop, ends, lowered⟩ := bind_eq_ok lowered
  obtain ⟨handler, target, lowered⟩ := bind_eq_ok lowered
  cases lowered
  have last := (lastBefore_of_stopOf traces ordered first ends).2
  constructor
  · unfold rangeOf
    rw [startAt_of_startOf traces first, last, startAt_of_startOf traces target]
    rfl
  · refine ⟨?_, Listing.checkRange_eq_ok_iff.mpr (traces.inOrder ordered)⟩
    intro h member
    obtain rfl | rfl | rfl : h = rename r.start ∨ h = rename r.last ∨ h = rename r.handler := by
      simpa [Entry.handles, ExceptionRange.handles, ExceptionRange.map] using member
    · exact contains_of_startOf traces first
    · exact contains_of_inOrder traces ordered
    · exact contains_of_startOf traces target

theorem scopeOf_of_lowerVariable {v : VariableScope} {e : LocalVariable}
    (ordered : ∀ last ∈ v.last?, l.InOrder v.start last) (lowered : lowerVariable m v = .ok e) :
    scopeOf starts e = .ok (v.map rename) ∧ (Entry.scope (v.map rename)).Fits c := by
  obtain ⟨vstart, last?, name, descriptor, slot⟩ := v
  obtain ⟨start, first, lowered⟩ := bind_eq_ok lowered
  have known := contains_of_startOf traces first
  cases last? with
  | none =>
    cases lowered
    constructor
    · unfold scopeOf
      rw [if_pos rfl, startAt_of_startOf traces first]
      rfl
    · refine ⟨fun h member => ?_, rfl⟩
      rw [List.mem_singleton.mp member]
      exact known
  | some last =>
    obtain ⟨stop, ends, lowered⟩ := bind_eq_ok lowered
    have ordered := ordered last rfl
    obtain ⟨before, found⟩ := lastBefore_of_stopOf traces ordered first ends
    rw [if_neg (UInt16.not_lt.mpr (UInt16.le_of_lt before))] at lowered
    cases lowered
    have length : (stop - start).toNat = stop.toNat - start.toNat :=
      UInt16.toNat_sub_of_le _ _ (UInt16.le_of_lt before)
    have some : stop - start ≠ 0 := fun none => by
      rw [none, UInt16.toNat_zero] at length
      omega
    have sum : start.toNat + (stop - start).toNat = stop.toNat := by omega
    constructor
    · unfold scopeOf
      dsimp only
      rw [if_neg some, sum, found, startAt_of_startOf traces first]
      rfl
    · refine ⟨?_, Listing.checkRange_eq_ok_iff.mpr (traces.inOrder ordered)⟩
      intro h member
      obtain rfl | rfl : h = rename vstart ∨ h = rename last := by
        simpa [Entry.handles, VariableScope.handles, VariableScope.map] using member
      · exact known
      · exact contains_of_inOrder traces ordered

theorem lineOf_of_lowerLine {n : LineEntry} {e : LineNumber} (lowered : lowerLine m n = .ok e) :
    lineOf starts e = .ok (n.map rename) ∧ (Entry.line (n.map rename)).Fits c := by
  obtain ⟨start, first, lowered⟩ := bind_eq_ok lowered
  cases lowered
  constructor
  · unfold lineOf
    rw [startAt_of_startOf traces first]
    rfl
  · refine ⟨fun h member => ?_, rfl⟩
    rw [List.mem_singleton.mp member]
    exact contains_of_startOf traces first

end Body

end JvmClass
