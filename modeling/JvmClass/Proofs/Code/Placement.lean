import JvmClass.Proofs.Code.Traces
import JvmClass.Proofs.Instruction.Consumption

/-! Which offsets an entry of a code attribute may have.  A range starts where an instruction
starts, ends where one starts or with the code, and is not empty.  What is lifted of such an entry
fits the listing that was read of the code, so that it can be added. -/

namespace JvmClass

namespace Search

variable {α : Type} {key : α → Nat} {xs : Array α} {bound : Nat} {x y : α}

theorem exists_of_lastUpTo? (ascending : Ascending key xs)
    (found : lastUpTo? key xs bound = some x) :
    ∃ i : Nat, xs[i]? = some x ∧ key x ≤ bound ∧ ∀ y, xs[i + 1]? = some y → bound < key y := by
  have splits := splits_upTo ascending bound
  unfold lastUpTo? at found
  split at found
  · cases found
  · rename_i n count
    exact ⟨n, found, splits.low n x (by omega) found, fun y => splits.high (n + 1) y (by omega)⟩

theorem exists_lastUpTo? {i : Nat} (ascending : Ascending key xs) (here : xs[i]? = some x)
    (low : key x ≤ bound) :
    ∃ j y, lastUpTo? key xs bound = some y ∧ xs[j]? = some y ∧ i ≤ j ∧ key y ≤ bound := by
  have splits := splits_upTo ascending bound
  have before : i < upTo key xs bound := by
    refine Nat.lt_of_not_le fun after => ?_
    have := splits.high i x after here
    omega
  obtain ⟨n, count⟩ := Nat.exists_eq_add_one_of_ne_zero (Nat.ne_zero_of_lt before)
  have inside := splits.inside
  have there : xs[n]? = some xs[n] := Array.getElem?_eq_getElem (by omega)
  refine ⟨n, _, ?_, there, by omega, splits.low n _ (by omega) there⟩
  unfold lastUpTo?
  rw [count]
  exact there

end Search

namespace Listing

variable {l : Listing} {s : Starts} {h k : Handle} {offset start stop : Nat}

structure Reads (l : Listing) (s : Starts) : Prop where
  increasing : Search.Increasing (·.1) s.table
  order : s.table.toList.map (·.2) = l.order.toList
  coherent : l.Coherent fun _ => []

theorem reads_of_decode {id : Nat} {code : List UInt8} (decoded : decode id code = .ok (l, s)) :
    l.Reads s := by
  have coherent := coherent_decode decoded
  obtain ⟨read, is, offsets, all, rfl, each, rfl, _⟩ := decode_eq_ok decoded
  refine ⟨increasing_startsOf (offsets_readAll all).1, ?_, coherent⟩
  rw [handles_startsOf, each.length_eq]
  exact (order_placeAll is (empty id)).symm

namespace Starts

def IsStart (s : Starts) (offset : Nat) : Prop := ∃ h, s.at? offset = some h

def IsStop (s : Starts) (offset : Nat) : Prop := offset = s.length ∨ s.IsStart offset

theorem isStop_iff : s.IsStop offset ↔ ¬ (offset ≠ s.length ∧ (s.at? offset).isNone = true) := by
  unfold IsStop IsStart
  rw [not_and_or, not_not, ← Option.isSome_iff_exists]
  cases s.at? offset <;> simp

end Starts

theorem exists_entry (found : s.at? offset = some h) :
    ∃ j : Nat, s.table[j]? = some (offset, h) :=
  Array.getElem?_of_mem (at?_eq_some found)

namespace Reads

variable (reads : l.Reads s)
include reads

theorem position?_eq {j : Nat} (entry : s.table[j]? = some (offset, h)) :
    l.position? h = some j := by
  refine Listing.position?_eq reads.coherent.nodup ?_
  rw [← reads.order, List.getElem?_map, Array.getElem?_toList, entry]
  rfl

theorem contains {j : Nat} (entry : s.table[j]? = some (offset, h)) : l.contains h := by
  refine (reads.coherent.stored h).mp ?_
  exact List.mem_of_getElem? (getElem?_of_position? (reads.position?_eq entry))

theorem contains_at? (found : s.at? offset = some h) : l.contains h := by
  obtain ⟨j, entry⟩ := exists_entry found
  exact reads.contains entry

theorem lastIn?_le (found : s.lastIn? start stop = some k) : start < stop := by
  unfold Starts.lastIn? at found
  split at found
  · cases found
  · obtain ⟨entry, last, _⟩ := Option.map_eq_some_iff.mp found
    obtain ⟨last, begins⟩ := Option.filter_eq_some_iff.mp last
    obtain ⟨_, _, low, _⟩ := Search.exists_of_lastUpTo? reads.increasing.ascending last
    simp only [decide_eq_true_eq] at begins
    omega

/-- A range that starts at an instruction and is not empty has a last instruction, which does not
come before the first one. -/
theorem exists_lastIn? (found : s.at? start = some h) (more : start < stop) :
    ∃ k, s.lastIn? start stop = some k ∧ l.contains k ∧ l.InOrder h k := by
  obtain ⟨i, first⟩ := exists_entry found
  obtain ⟨bound, rfl⟩ := Nat.exists_eq_add_one_of_ne_zero (Nat.ne_zero_of_lt more)
  obtain ⟨j, ⟨offset, k⟩, last, entry, ordered, _⟩ :=
    Search.exists_lastUpTo? reads.increasing.ascending first (Nat.le_of_lt_succ more)
  have begins : start ≤ offset := by
    obtain rfl | before := Nat.eq_or_lt_of_le ordered
    · exact Nat.le_of_eq (congrArg Prod.fst (Option.some.inj (first.symm.trans entry)))
    · exact Nat.le_of_lt (reads.increasing.lt before first entry)
  refine ⟨k, ?_, reads.contains entry, i, j, reads.position?_eq first, reads.position?_eq entry,
    ordered⟩
  unfold Starts.lastIn?
  dsimp only
  rw [last]
  simp [begins]

end Reads

end Listing

namespace Body

open Listing (Starts)

variable {l : Listing} {s : Starts} {h k : Handle} {start stop : Nat} {halt : Halt}

theorem lastBefore_eq_halt_iff :
    lastBefore s start stop = .error (.halt halt) ↔
      s.IsStop stop ∧ stop < start ∧ halt = ⟨start, stop⟩ := by
  rw [Starts.isStop_iff]
  unfold lastBefore
  by_cases other : stop ≠ s.length ∧ (s.at? stop).isNone = true
  · rw [if_pos other]
    exact iff_of_false nofun fun all => all.1 other
  · rw [if_neg other]
    by_cases backward : stop < start
    · rw [if_pos backward]
      constructor
      · intro same
        cases same
        exact ⟨other, backward, rfl⟩
      · rintro ⟨_, _, rfl⟩
        rfl
    · rw [if_neg backward]
      refine iff_of_false ?_ fun all => backward all.2.1
      cases s.lastIn? start stop <;> exact nofun

theorem lastBefore_eq_ok_iff :
    lastBefore s start stop = .ok k ↔
      s.IsStop stop ∧ start ≤ stop ∧ s.lastIn? start stop = some k := by
  rw [Starts.isStop_iff]
  unfold lastBefore
  by_cases other : stop ≠ s.length ∧ (s.at? stop).isNone = true
  · rw [if_pos other]
    exact iff_of_false nofun fun all => all.1 other
  · rw [if_neg other]
    by_cases backward : stop < start
    · rw [if_pos backward]
      exact iff_of_false nofun fun all => Nat.not_lt_of_le all.2.1 backward
    · rw [if_neg backward]
      cases s.lastIn? start stop with
      | none => exact iff_of_false nofun fun all => nomatch all.2.2
      | some k' =>
        refine ⟨fun same => ⟨other, Nat.le_of_not_lt backward, ?_⟩, fun all => ?_⟩
        · cases same
          rfl
        · cases all.2.2
          rfl

theorem startAt_ne_halt {offset : Nat} : startAt s offset ≠ .error (.halt halt) := by
  unfold startAt
  cases s.at? offset <;> exact nofun

theorem exists_startAt_iff {offset : Nat} : (∃ h, startAt s offset = .ok h) ↔ s.IsStart offset :=
  exists_congr fun _ => startAt_eq_ok_iff

structure Placed (s : Starts) (e : ExceptionEntry) : Prop where
  start : s.IsStart e.start.toNat
  stop : s.IsStop e.stop.toNat
  forward : e.start < e.stop
  handler : s.IsStart e.handler.toNat

/-- The range of the entry has two ends that are in order each, but it ends before it starts. -/
structure Reversed (s : Starts) (e : ExceptionEntry) : Prop where
  start : s.IsStart e.start.toNat
  stop : s.IsStop e.stop.toNat
  backward : e.stop < e.start

theorem rangeOf_eq_halt_iff {e : ExceptionEntry} :
    rangeOf s e = .error (.halt halt) ↔
      Reversed s e ∧ halt = ⟨e.start.toNat, e.stop.toNat⟩ := by
  unfold rangeOf
  simp only [bind_eq_error_iff, startAt_ne_halt, lastBefore_eq_halt_iff, false_or]
  constructor
  · rintro ⟨h, first, ⟨stops, backward, rfl⟩ | ⟨k, _, target⟩⟩
    · exact ⟨⟨exists_startAt_iff.mp ⟨h, first⟩, stops, backward⟩, rfl⟩
    · obtain ⟨_, _, same⟩ := target
      cases same
  · rintro ⟨reversed, rfl⟩
    obtain ⟨h, first⟩ := exists_startAt_iff.mpr reversed.start
    exact ⟨h, first, .inl ⟨reversed.stop, reversed.backward, rfl⟩⟩

def endOf (s : Starts) (v : LocalVariable) : Except LiftFailure (Option Handle) :=
  if v.length = 0 then .ok none
  else (lastBefore s v.start.toNat (v.start.toNat + v.length.toNat)).map some

theorem scopeOf_eq (s : Starts) (v : LocalVariable) :
    scopeOf s v = endOf s v >>= fun last? => startAt s v.start.toNat >>= fun start =>
      .ok ⟨start, last?, v.name, v.descriptor, v.slot⟩ := by
  unfold scopeOf endOf
  by_cases empty : v.length = 0
  · rw [if_pos empty, if_pos empty]
    rfl
  · rw [if_neg empty, if_neg empty]
    cases lastBefore s v.start.toNat (v.start.toNat + v.length.toNat) <;> rfl

theorem endOf_eq_ok_iff {v : LocalVariable} {last? : Option Handle} :
    endOf s v = .ok last? ↔ (v.length = 0 ∧ last? = none) ∨ (v.length ≠ 0 ∧ ∃ k, last? = some k ∧
      lastBefore s v.start.toNat (v.start.toNat + v.length.toNat) = .ok k) := by
  unfold endOf
  by_cases empty : v.length = 0
  · simp [empty, eq_comm]
  · rw [if_neg empty]
    cases lastBefore s v.start.toNat (v.start.toNat + v.length.toNat) <;>
      simp [empty, Except.map, eq_comm]

theorem endOf_ne_halt {v : LocalVariable} : endOf s v ≠ .error (.halt halt) := by
  unfold endOf
  split
  · exact nofun
  · cases last : lastBefore s v.start.toNat (v.start.toNat + v.length.toNat) with
    | ok k => exact nofun
    | error f =>
      intro same
      cases same
      have := (lastBefore_eq_halt_iff.mp last).2.1
      omega

theorem scopeOf_ne_halt {v : LocalVariable} : scopeOf s v ≠ .error (.halt halt) := by
  rw [scopeOf_eq]
  intro same
  obtain failed | ⟨last?, _, failed⟩ := bind_eq_error_iff.mp same
  · exact endOf_ne_halt failed
  · obtain failed | ⟨h, _, failed⟩ := bind_eq_error_iff.mp failed
    · exact startAt_ne_halt failed
    · cases failed

theorem lineOf_ne_halt {n : LineNumber} : lineOf s n ≠ .error (.halt halt) := by
  intro same
  obtain failed | ⟨h, _, failed⟩ := bind_eq_error_iff.mp same
  · exact startAt_ne_halt failed
  · cases failed

theorem exists_lineOf_iff {n : LineNumber} :
    (∃ y, lineOf s n = .ok y) ↔ s.IsStart n.start.toNat := by
  rw [← exists_startAt_iff]
  constructor
  · rintro ⟨y, made⟩
    obtain ⟨h, first, _⟩ := bind_eq_ok made
    exact ⟨h, first⟩
  · rintro ⟨h, first⟩
    refine ⟨⟨h, n.line⟩, ?_⟩
    unfold lineOf
    rw [first]
    rfl

section Reads

variable (reads : l.Reads s)
include reads

theorem exists_rangeOf_iff {e : ExceptionEntry} : (∃ r, rangeOf s e = .ok r) ↔ Placed s e := by
  constructor
  · rintro ⟨r, made⟩
    obtain ⟨h, first, made⟩ := bind_eq_ok made
    obtain ⟨k, last, made⟩ := bind_eq_ok made
    obtain ⟨t, target, _⟩ := bind_eq_ok made
    obtain ⟨stops, _, last⟩ := lastBefore_eq_ok_iff.mp last
    exact ⟨exists_startAt_iff.mp ⟨h, first⟩, stops, reads.lastIn?_le last,
      exists_startAt_iff.mp ⟨t, target⟩⟩
  · intro placed
    obtain ⟨h, first⟩ := placed.start
    obtain ⟨t, target⟩ := placed.handler
    have forward : e.start.toNat < e.stop.toNat := placed.forward
    obtain ⟨k, last, _⟩ := reads.exists_lastIn? first forward
    have last := lastBefore_eq_ok_iff.mpr ⟨placed.stop, Nat.le_of_lt forward, last⟩
    refine ⟨⟨h, k, t, e.catches⟩, ?_⟩
    unfold rangeOf
    rw [startAt_eq_ok_iff.mpr first, last, startAt_eq_ok_iff.mpr target]
    rfl

theorem fits_rangeOf {e : ExceptionEntry} {r : ExceptionRange} (made : rangeOf s e = .ok r) :
    (Entry.range r).Fits l := by
  obtain ⟨h, first, made⟩ := bind_eq_ok made
  obtain ⟨k, last, made⟩ := bind_eq_ok made
  obtain ⟨t, target, made⟩ := bind_eq_ok made
  cases made
  have first := startAt_eq_ok_iff.mp first
  obtain ⟨_, _, last⟩ := lastBefore_eq_ok_iff.mp last
  obtain ⟨k', last', known, ordered⟩ := reads.exists_lastIn? first (reads.lastIn?_le last)
  cases last.symm.trans last'
  refine ⟨fun handle member => ?_, Listing.checkRange_eq_ok_iff.mpr ordered⟩
  obtain rfl | rfl | rfl : handle = h ∨ handle = k ∨ handle = t := by
    simpa [Entry.handles, ExceptionRange.handles] using member
  · exact reads.contains_at? first
  · exact known
  · exact reads.contains_at? (startAt_eq_ok_iff.mp target)

theorem exists_scopeOf_iff {v : LocalVariable} : (∃ x, scopeOf s v = .ok x) ↔
    s.IsStart v.start.toNat ∧ (v.length = 0 ∨ s.IsStop (v.start.toNat + v.length.toNat)) := by
  rw [scopeOf_eq]
  constructor
  · rintro ⟨x, made⟩
    obtain ⟨last?, ends, made⟩ := bind_eq_ok made
    obtain ⟨h, first, _⟩ := bind_eq_ok made
    refine ⟨exists_startAt_iff.mp ⟨h, first⟩, ?_⟩
    obtain ⟨empty, _⟩ | ⟨_, k, _, last⟩ := endOf_eq_ok_iff.mp ends
    · exact .inl empty
    · exact .inr (lastBefore_eq_ok_iff.mp last).1
  · rintro ⟨⟨h, first⟩, stops⟩
    obtain ⟨last?, ends⟩ : ∃ last?, endOf s v = .ok last? := by
      by_cases empty : v.length = 0
      · exact ⟨none, endOf_eq_ok_iff.mpr (.inl ⟨empty, rfl⟩)⟩
      · have positive : 0 < v.length.toNat := Nat.pos_of_ne_zero fun none =>
          empty (UInt16.toNat_inj.mp none)
        have stops := stops.resolve_left empty
        obtain ⟨k, last, _⟩ := reads.exists_lastIn? first (Nat.lt_add_of_pos_right positive)
        have last := lastBefore_eq_ok_iff.mpr ⟨stops, Nat.le_add_right _ _, last⟩
        exact ⟨some k, endOf_eq_ok_iff.mpr (.inr ⟨empty, k, rfl, last⟩)⟩
    refine ⟨⟨h, last?, v.name, v.descriptor, v.slot⟩, ?_⟩
    rw [ends, startAt_eq_ok_iff.mpr first]
    rfl

theorem fits_scopeOf {v : LocalVariable} {x : VariableScope} (made : scopeOf s v = .ok x) :
    (Entry.scope x).Fits l := by
  rw [scopeOf_eq] at made
  obtain ⟨last?, ends, made⟩ := bind_eq_ok made
  obtain ⟨h, first, made⟩ := bind_eq_ok made
  cases made
  have first := startAt_eq_ok_iff.mp first
  obtain ⟨_, rfl⟩ | ⟨_, k, rfl, last⟩ := endOf_eq_ok_iff.mp ends
  · refine ⟨fun handle member => ?_, rfl⟩
    rw [List.mem_singleton.mp member]
    exact reads.contains_at? first
  · obtain ⟨_, _, last⟩ := lastBefore_eq_ok_iff.mp last
    obtain ⟨k', last', known, ordered⟩ := reads.exists_lastIn? first (reads.lastIn?_le last)
    cases last.symm.trans last'
    refine ⟨fun handle member => ?_, Listing.checkRange_eq_ok_iff.mpr ordered⟩
    obtain rfl | rfl : handle = h ∨ handle = k := by
      simpa [Entry.handles, VariableScope.handles] using member
    · exact reads.contains_at? first
    · exact known

theorem fits_lineOf {n : LineNumber} {x : LineEntry} (made : lineOf s n = .ok x) :
    (Entry.line x).Fits l := by
  obtain ⟨h, first, made⟩ := bind_eq_ok made
  cases made
  refine ⟨fun handle member => ?_, rfl⟩
  rw [List.mem_singleton.mp member]
  exact reads.contains_at? (startAt_eq_ok_iff.mp first)

end Reads

end Body

end JvmClass
