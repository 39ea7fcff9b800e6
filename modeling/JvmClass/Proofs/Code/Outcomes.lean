import JvmClass.Proofs.Code.Acceptance

/-! How lifting ends, told by the offsets of the instructions.  There is a body, or lifting comes
to a halt at a range that ends before it starts, or there is an error, and no attribute can end in
two of these ways. -/

namespace JvmClass

namespace Listing

variable {l : Listing} {s : Starts} {code : List UInt8} {id x : Nat}

def HasStart (l : Listing) (x : Nat) : Prop := ∃ h ∈ l.order.toList, l.offset? h = some x

/-- An instruction of the listing starts at the offset, or the code ends there. -/
def HasStop (l : Listing) (code : List UInt8) (x : Nat) : Prop := l.HasStart x ∨ x = code.length

theorem isStart_iff_hasStart (decoded : decode id code = .ok (l, s)) :
    s.IsStart x ↔ l.HasStart x := by
  obtain ⟨_, _, linked⟩ := linked_of_decode decoded
  constructor
  · rintro ⟨h, found⟩
    have start := (linked.maps.found x h).mp found
    exact ⟨h, linked.maps.mem_order start, start⟩
  · rintro ⟨h, _, start⟩
    exact ⟨h, (linked.maps.found x h).mpr start⟩

theorem isStop_iff_hasStop (decoded : decode id code = .ok (l, s)) :
    s.IsStop x ↔ l.HasStop code x := by
  unfold Starts.IsStop HasStop
  rw [isStart_iff_hasStart decoded, length_of_decode decoded]
  exact or_comm

end Listing

namespace Body

open Listing (Starts)

variable {l : Listing} {s : Starts} {p : Pool} {code : Code} {id : Nat} {halt : Halt}

/-- The entry of the exception table is about instructions of the listing, and its range is not
empty. -/
structure Covers (l : Listing) (code : Code) (e : ExceptionEntry) : Prop where
  start : l.HasStart e.start.toNat
  stop : l.HasStop code.bytes e.stop.toNat
  forward : e.start < e.stop
  handler : l.HasStart e.handler.toNat

/-- The range of the entry is between instructions of the listing, but the wrong way round. -/
structure Backward (l : Listing) (code : Code) (e : ExceptionEntry) : Prop where
  start : l.HasStart e.start.toNat
  stop : l.HasStop code.bytes e.stop.toNat
  backward : e.stop < e.start

/-- All that the attribute says about instructions is about those of the listing, and whatever it
names has a name. -/
structure RefersTo (p : Pool) (l : Listing) (code : Code) : Prop where
  ranges : ∀ e ∈ code.handlers, Covers l code e
  titles : ∀ a ∈ code.attributes, ∃ title, a.title p = .ok title
  lines : ∀ a ∈ code.attributes, a.title p = .ok "LineNumberTable" →
    ∃ t, a.value LineNumberTable = .ok t ∧ ∀ n ∈ t.entries.toList, l.HasStart n.start.toNat
  scopes : ∀ a ∈ code.attributes, a.title p = .ok "LocalVariableTable" →
    ∃ t, a.value LocalVariableTable = .ok t ∧ ∀ v ∈ t.entries, l.HasStart v.start.toNat ∧
      (v.length ≠ 0 → l.HasStop code.bytes (v.start.toNat + v.length.toNat))

theorem placed_iff_covers (decoded : Listing.decode id code.bytes = .ok (l, s))
    (e : ExceptionEntry) : Placed s e ↔ Covers l code e := by
  have starts {x : Nat} := Listing.isStart_iff_hasStart (x := x) decoded
  have stops {x : Nat} := Listing.isStop_iff_hasStop (x := x) decoded
  constructor
  · rintro ⟨start, stop, forward, handler⟩
    exact ⟨starts.mp start, stops.mp stop, forward, starts.mp handler⟩
  · rintro ⟨start, stop, forward, handler⟩
    exact ⟨starts.mpr start, stops.mpr stop, forward, starts.mpr handler⟩

theorem reversed_iff_backward (decoded : Listing.decode id code.bytes = .ok (l, s))
    (e : ExceptionEntry) : Reversed s e ↔ Backward l code e := by
  have starts {x : Nat} := Listing.isStart_iff_hasStart (x := x) decoded
  have stops {x : Nat} := Listing.isStop_iff_hasStop (x := x) decoded
  constructor
  · rintro ⟨start, stop, backward⟩
    exact ⟨starts.mp start, stops.mp stop, backward⟩
  · rintro ⟨start, stop, backward⟩
    exact ⟨starts.mpr start, stops.mpr stop, backward⟩

theorem readable_iff_refersTo (decoded : Listing.decode id code.bytes = .ok (l, s)) :
    ((∀ e ∈ code.handlers, Placed s e) ∧ ∀ a ∈ code.attributes, Readable p s a) ↔
      RefersTo p l code := by
  have starts {x : Nat} := Listing.isStart_iff_hasStart (x := x) decoded
  have stops {x : Nat} := Listing.isStop_iff_hasStop (x := x) decoded
  constructor
  · rintro ⟨placed, readable⟩
    refine ⟨fun e member => (placed_iff_covers decoded e).mp (placed e member),
      fun a member => (readable a member).titled, fun a member named => ?_,
      fun a member named => ?_⟩
    · obtain ⟨t, value, each⟩ := (readable a member).lines named
      exact ⟨t, value, fun n listed => starts.mp (each n listed)⟩
    · obtain ⟨t, value, each⟩ := (readable a member).scopes named
      refine ⟨t, value, fun v listed => ?_⟩
      obtain ⟨start, ends⟩ := each v listed
      exact ⟨starts.mp start, fun long => stops.mp (ends.resolve_left long)⟩
  · intro refers
    refine ⟨fun e member => (placed_iff_covers decoded e).mpr (refers.ranges e member),
      fun a member => ⟨refers.titles a member, fun named => ?_, fun named => ?_⟩⟩
    · obtain ⟨t, value, each⟩ := refers.lines a member named
      exact ⟨t, value, fun n listed => starts.mpr (each n listed)⟩
    · obtain ⟨t, value, each⟩ := refers.scopes a member named
      refine ⟨t, value, fun v listed => ?_⟩
      obtain ⟨start, ends⟩ := each v listed
      refine ⟨starts.mpr start, ?_⟩
      by_cases empty : v.length = 0
      · exact .inl empty
      · exact .inr (stops.mpr (ends empty))

def Liftable (id : Nat) (p : Pool) (code : Code) : Prop :=
  ∃ l s, Listing.decode id code.bytes = .ok (l, s) ∧ RefersTo p l code

def Halting (id : Nat) (code : Code) (halt : Halt) : Prop :=
  ∃ l s, Listing.decode id code.bytes = .ok (l, s) ∧ ∃ before e after,
    code.handlers = before ++ e :: after ∧ (∀ d ∈ before, Covers l code d) ∧ Backward l code e ∧
      halt = ⟨e.start.toNat, e.stop.toNat⟩

theorem exists_lift_iff_liftable : (∃ b, lift id p code = .ok b) ↔ Liftable id p code := by
  rw [exists_lift_iff_readable]
  refine exists_congr fun l => exists_congr fun s => and_congr_right fun decoded => ?_
  exact readable_iff_refersTo decoded

theorem lift_eq_halt_iff_halting : lift id p code = .error (.halt halt) ↔ Halting id code halt := by
  rw [lift_eq_halt_iff]
  refine exists_congr fun l => exists_congr fun s => and_congr_right fun decoded => ?_
  unfold HaltsAt
  simp only [placed_iff_covers decoded, reversed_iff_backward decoded]
  constructor
  · rintro ⟨e, ⟨before, after, split, covers, backward⟩, same⟩
    exact ⟨before, e, after, split, covers, backward, same⟩
  · rintro ⟨before, e, after, split, covers, backward, same⟩
    exact ⟨e, ⟨before, after, split, covers, backward⟩, same⟩

/-- Lifting gives a body just when the code can be decoded and everything in the attribute is about
its instructions.  It comes to a halt just at an exception entry that is backward, behind others
that are in order.  Everything else is an error. -/
theorem lift_ends (id : Nat) (p : Pool) (code : Code) :
    ((∃ b, lift id p code = .ok b) ↔ Liftable id p code) ∧
      (∀ halt, lift id p code = .error (.halt halt) ↔ Halting id code halt) ∧
      ((∃ e, lift id p code = .error (.error e)) ↔
        ¬ Liftable id p code ∧ ¬ ∃ halt, Halting id code halt) := by
  refine ⟨exists_lift_iff_liftable, fun halt => lift_eq_halt_iff_halting, ?_⟩
  simp only [← exists_lift_iff_liftable, ← lift_eq_halt_iff_halting (p := p)]
  cases lift id p code with
  | ok b => simp
  | error f => cases f <;> simp

end Body

end JvmClass
