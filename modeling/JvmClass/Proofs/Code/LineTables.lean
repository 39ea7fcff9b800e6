import JvmClass.Proofs.Attribute.Lines
import JvmClass.Proofs.Code.Placements
import JvmClass.Proofs.Code.Relifting

/-! The table of lines of a body.  Each line entry gets the offset at which its instruction starts,
and since offsets go up along the instructions, looking up the offset of an instruction finds the
last line entry that there is up to it in program order. -/

namespace JvmClass.Body

variable {b c : Body} {l : Listing} {t : LineNumberTable} {h : Handle}

def LinesAgree (b : Body) : Prop :=
  ∀ n ∈ b.lines.values, ∀ n' ∈ b.lines.values, n.start = n'.start → n.line = n'.line

/-- The line entry belongs to the last instruction up to `h`, in program order, that has one. -/
structure LastLine (b : Body) (h : Handle) (n : LineEntry) : Prop where
  listed : n ∈ b.lines.values
  before : b.listing.InOrder n.start h
  last : ∀ n' ∈ b.lines.values, b.listing.InOrder n'.start h →
    b.listing.InOrder n'.start n.start

def Records (l : Listing) (n : LineEntry) (e : LineNumber) : Prop :=
  l.offset? n.start = some e.start.toNat ∧ e.line = n.line

/-- The table has the line entries of the body by offset, one row for each entry. -/
structure Tabulates (b : Body) (l : Listing) (t : LineNumberTable) : Prop where
  entries : ∃ ns, ns.Perm b.lines.values ∧ List.Forall₂ (Records l) ns t.entries.toList
  sorted : t.Sorted

structure Resolves (b : Body) (l : Listing) : Prop where
  order : l.order = b.listing.order
  offsets : ∀ h x, l.offset? h = some x ↔ ∃ i, (h, x, i) ∈ b.listing.placements

theorem lineTable_eq_ok_iff : lineTable b = .ok t c ↔ ∃ o, b.listing.layout = .ok o ∧
    c = { b with listing := { b.listing with offsets? := some o } } ∧ lowerLines c = .ok t := by
  have ran : lineTable b = (onListing Listing.resolve >>= fun _ => do
    liftExcept (← get).lowerLines) b := rfl
  rw [ran]
  constructor
  · intro made
    obtain ⟨⟨⟩, d, resolved, made⟩ := run_bind_eq_ok made
    obtain ⟨lowered, rfl⟩ := liftExcept_eq_ok_iff.mp made
    rw [onListing_eq, Listing.resolve] at resolved
    cases laid : b.listing.layout with
    | error e =>
      rw [laid] at resolved
      cases resolved
    | ok o =>
      rw [laid] at resolved
      cases resolved
      exact ⟨o, rfl, rfl, lowered⟩
  · rintro ⟨o, laid, rfl, lowered⟩
    refine (bind_of_ok (a := ()) ?_).trans (liftExcept_eq_ok_iff.mpr ⟨lowered, rfl⟩)
    rw [onListing_eq, Listing.resolve, laid]

theorem records_of_lowerLine {n : LineEntry} {e : LineNumber} (lowered : lowerLine l n = .ok e) :
    Records l n e := by
  obtain ⟨start, first, lowered⟩ := bind_eq_ok lowered
  cases lowered
  exact ⟨offset?_of_startOf first, rfl⟩

theorem sorted_of_lowerLines (lowered : lowerLines b = .ok t) : t.Sorted := by
  obtain ⟨entries, _, lowered⟩ := bind_eq_ok lowered
  cases lowered
  have trans (e e' e'' : LineNumber) (first : decide (e.start ≤ e'.start) = true)
      (second : decide (e'.start ≤ e''.start) = true) : decide (e.start ≤ e''.start) = true :=
    decide_eq_true (UInt16.le_trans (of_decide_eq_true first) (of_decide_eq_true second))
  have total (e e' : LineNumber) :
      (decide (e.start ≤ e'.start) || decide (e'.start ≤ e.start)) = true := by
    simpa using UInt16.le_total e.start e'.start
  have sorted := List.pairwise_mergeSort trans total entries
  exact sorted.imp fun ordered => UInt16.le_iff_toNat_le.mp (of_decide_eq_true ordered)

theorem tabulates_of_lowerLines (lowered : lowerLines { b with listing := l } = .ok t) :
    b.Tabulates l t where
  entries := ⟨sortedLines l b.lines.values, List.mergeSort_perm _ _,
    (lowerLines_eq_ok lowered).imp fun _ _ => records_of_lowerLine⟩
  sorted := sorted_of_lowerLines lowered

namespace Tabulates

variable (tabulates : b.Tabulates l t)
include tabulates

theorem exists_entry {e : LineNumber} (member : e ∈ t.entries) :
    ∃ n ∈ b.lines.values, Records l n e := by
  obtain ⟨ns, perm, each⟩ := tabulates.entries
  obtain ⟨n, listed, records⟩ := exists_left_of_forall₂ each (Array.mem_toList_iff.mpr member)
  exact ⟨n, perm.mem_iff.mp listed, records⟩

theorem exists_row {n : LineEntry} (listed : n ∈ b.lines.values) :
    ∃ e ∈ t.entries, Records l n e := by
  obtain ⟨ns, perm, each⟩ := tabulates.entries
  obtain ⟨e, member, records⟩ := exists_right_of_forall₂ each (perm.mem_iff.mpr listed)
  exact ⟨e, Array.mem_toList_iff.mp member, records⟩

end Tabulates

section Lookup

variable (coherent : b.Coherent) (resolves : b.Resolves l)
include coherent resolves

theorem Resolves.inOrder_iff {k : Handle} {x y : Nat} (first : l.offset? k = some x)
    (second : l.offset? h = some y) : b.listing.InOrder k h ↔ x ≤ y := by
  obtain ⟨is, lists⟩ := coherent.listing.exists_lists
  obtain ⟨i, first⟩ := (resolves.offsets k x).mp first
  obtain ⟨j, second⟩ := (resolves.offsets h y).mp second
  exact lists.inOrder_iff first second

theorem Resolves.handle_unique {k : Handle} {x : Nat} (first : l.offset? k = some x)
    (second : l.offset? h = some x) : k = h := by
  obtain ⟨is, lists⟩ := coherent.listing.exists_lists
  obtain ⟨i, first⟩ := (resolves.offsets k x).mp first
  obtain ⟨j, second⟩ := (resolves.offsets h x).mp second
  exact lists.handle_unique first second

variable (tabulates : b.Tabulates l t)
include tabulates

theorem Tabulates.agreeing (agree : b.LinesAgree) : t.Agreeing := by
  intro e member e' member' same
  obtain ⟨n, listed, offset, line⟩ := tabulates.exists_entry member
  obtain ⟨n', listed', offset', line'⟩ := tabulates.exists_entry member'
  rw [same] at offset
  rw [line, line', agree n listed n' listed' (resolves.handle_unique coherent offset offset')]

theorem Tabulates.line?_eq_some_iff (agree : b.LinesAgree) {x : Nat} {line : UInt16}
    (here : l.offset? h = some x) :
    t.line? x = some line ↔ ∃ n, b.LastLine h n ∧ n.line = line := by
  rw [LineNumberTable.line?_eq_scan tabulates.sorted,
    LineNumberTable.scan_eq_some_iff tabulates.sorted
      (tabulates.agreeing coherent resolves agree)]
  have order {n n' : LineEntry} {e e' : LineNumber} (records : Records l n e)
      (records' : Records l n' e') : b.listing.InOrder n'.start n.start ↔ e'.start ≤ e.start := by
    rw [resolves.inOrder_iff coherent records'.1 records.1, UInt16.le_iff_toNat_le]
  have early {n : LineEntry} {e : LineNumber} (records : Records l n e) :
      b.listing.InOrder n.start h ↔ (e.start.toNat : Int) ≤ x := by
    rw [resolves.inOrder_iff coherent records.1 here, Int.ofNat_le]
  constructor
  · rintro ⟨e, started, rfl, last⟩
    obtain ⟨member, before⟩ := LineNumberTable.mem_startedBy.mp started
    obtain ⟨n, listed, records⟩ := tabulates.exists_entry member
    refine ⟨n, ⟨listed, (early records).mpr before, fun n' listed' before' => ?_⟩, records.2.symm⟩
    obtain ⟨e', member', records'⟩ := tabulates.exists_row listed'
    have started' := LineNumberTable.mem_startedBy.mpr ⟨member', (early records').mp before'⟩
    exact (order records records').mpr (last e' started')
  · rintro ⟨n, last, rfl⟩
    obtain ⟨e, member, records⟩ := tabulates.exists_row last.listed
    refine ⟨e, LineNumberTable.mem_startedBy.mpr ⟨member, (early records).mp last.before⟩,
      records.2, fun e' started' => ?_⟩
    obtain ⟨member', before'⟩ := LineNumberTable.mem_startedBy.mp started'
    obtain ⟨n', listed', records'⟩ := tabulates.exists_entry member'
    exact (order records records').mp (last.last n' listed' ((early records').mpr before'))

theorem Tabulates.line?_eq_none_iff {x : Nat} (here : l.offset? h = some x) :
    t.line? x = none ↔ ∀ n ∈ b.lines.values, ¬ b.listing.InOrder n.start h := by
  rw [LineNumberTable.line?_eq_scan tabulates.sorted, LineNumberTable.scan_eq_none_iff]
  constructor
  · intro later n listed ordered
    obtain ⟨e, member, records⟩ := tabulates.exists_row listed
    have := later e member
    have := (resolves.inOrder_iff coherent records.1 here).mp ordered
    omega
  · intro later e member
    obtain ⟨n, listed, records⟩ := tabulates.exists_entry member
    have := mt (resolves.inOrder_iff coherent records.1 here).mpr (later n listed)
    omega

end Lookup

theorem Coherent.resolves_of_lineTable (coherent : b.Coherent) (made : lineTable b = .ok t c) :
    b.Resolves c.listing ∧ b.Tabulates c.listing t := by
  obtain ⟨o, laid, rfl, lowered⟩ := lineTable_eq_ok_iff.mp made
  obtain ⟨_, o', again, starts, _⟩ | ⟨_, failed⟩ := coherent.listing.layout_cases
  · cases laid.symm.trans again
    exact ⟨⟨rfl, starts.starts⟩, tabulates_of_lowerLines lowered⟩
  · cases laid.symm.trans failed

theorem Coherent.exists_startOf_of_laid {o : Offsets} (coherent : b.Coherent)
    (short : b.listing.width ≤ maxCodeLength) (laid : b.listing.Laid o)
    (known : b.listing.contains h) :
    ∃ x, startOf { b.listing with offsets? := some o } h = .ok x := by
  obtain ⟨is, lists⟩ := coherent.listing.exists_lists
  obtain ⟨x, i, place⟩ := lists.exists_place ((coherent.listing.stored h).mpr known)
  have offset : ({ b.listing with offsets? := some o } : Listing).offset? h = some x :=
    (laid.starts h x).mpr ⟨i, place⟩
  have inside := Listing.stop_le_width place
  dsimp only at inside
  unfold startOf
  rw [offset]
  exact offset16_of_le (by omega)

theorem Coherent.exists_lineTable_iff (coherent : b.Coherent) :
    (∃ t c, lineTable b = .ok t c) ↔ b.listing.width ≤ maxCodeLength := by
  constructor
  · rintro ⟨t, c, made⟩
    obtain ⟨o, laid, _⟩ := lineTable_eq_ok_iff.mp made
    obtain ⟨short, _⟩ | ⟨_, failed⟩ := coherent.listing.layout_cases
    · exact short
    · cases laid.symm.trans failed
  · intro short
    obtain ⟨_, o, found, laid, _⟩ | ⟨long, _⟩ := coherent.listing.layout_cases
    · obtain ⟨t, lowered, _⟩ := coherent.exists_lowerLines_of_startOf fun h =>
        coherent.exists_startOf_of_laid short laid
      exact ⟨t, _, lineTable_eq_ok_iff.mpr ⟨o, found, rfl, lowered⟩⟩
    · omega

/-- The table of lines has all line entries at the offsets of their instructions, in order.  The
line that it tells for an instruction is that of the last instruction up to it, in program order,
that has a line entry. -/
theorem line?_of_lineTable (assembled : b.Assembled) (agree : b.LinesAgree)
    (made : lineTable b = .ok t c) :
    b.Resolves c.listing ∧ b.Tabulates c.listing t ∧
      ∀ h ∈ b.listing.order.toList, ∃ x : Nat, c.listing.offset? h = some x ∧
        (∀ line, t.line? x = some line ↔ ∃ n, b.LastLine h n ∧ n.line = line) ∧
        (t.line? x = none ↔ ∀ n ∈ b.lines.values, ¬ b.listing.InOrder n.start h) := by
  have coherent := coherent_of_assembled assembled
  obtain ⟨resolves, tabulates⟩ := coherent.resolves_of_lineTable made
  refine ⟨resolves, tabulates, fun h listed => ?_⟩
  obtain ⟨is, lists⟩ := coherent.listing.exists_lists
  obtain ⟨x, i, place⟩ := lists.exists_place listed
  have here := (resolves.offsets h x).mpr ⟨i, place⟩
  exact ⟨x, here, fun line => tabulates.line?_eq_some_iff coherent resolves agree here,
    tabulates.line?_eq_none_iff coherent resolves here⟩

theorem toList_fullLoop :
    fullLoop.listing.toList = [(⟨0, 0⟩, .bipush 1), (⟨0, 1⟩, .branch .goto ⟨0, 0⟩)] := by
  have stored : List.Forall₂ (fun h i => Listing.loop.get? h = some i) [⟨0, 0⟩, ⟨0, 1⟩]
      [.bipush 1, .branch .goto ⟨0, 0⟩] := by
    rw [Listing.loop_eq]
    exact Listing.get?_placeAll _ (.empty 0)
  exact gains_fullLoop.listing.toList_eq.trans (Listing.toList_eq order_loop stored)

theorem line?_of_lineTable_fullLoop : fullLoop.Assembled ∧ fullLoop.LinesAgree ∧
    ∃ t c, lineTable fullLoop = .ok t c ∧
      c.listing.offset? ⟨0, 0⟩ = some 0 ∧ t.line? 0 = some 8 ∧
      c.listing.offset? ⟨0, 1⟩ = some 2 ∧ t.line? 2 = some 7 := by
  have assembled : fullLoop.Assembled :=
    .attributes _ (.reached (reachable_after _ reachable_loopBody))
  have coherent := coherent_of_assembled assembled
  have lines : fullLoop.lines.values = [⟨⟨0, 1⟩, 7⟩, ⟨⟨0, 0⟩, 8⟩] := gains_fullLoop.lines
  have agree : fullLoop.LinesAgree := by
    unfold LinesAgree
    rw [lines]
    decide
  have places : fullLoop.listing.placements =
      [(⟨0, 0⟩, 0, .bipush 1), (⟨0, 1⟩, 2, .branch .goto ⟨0, 0⟩)] := by
    rw [Listing.placements, toList_fullLoop]
    rfl
  have short : fullLoop.listing.width ≤ maxCodeLength := by
    rw [Listing.width, toList_fullLoop]
    decide +kernel
  obtain ⟨t, c, made⟩ := coherent.exists_lineTable_iff.mpr short
  obtain ⟨resolves, _, each⟩ := line?_of_lineTable assembled agree made
  have first : c.listing.offset? ⟨0, 0⟩ = some 0 := by
    refine (resolves.offsets _ _).mpr ⟨.bipush 1, ?_⟩
    rw [places]
    exact List.mem_cons_self
  have second : c.listing.offset? ⟨0, 1⟩ = some 2 := by
    refine (resolves.offsets _ _).mpr ⟨.branch .goto ⟨0, 0⟩, ?_⟩
    rw [places]
    exact List.mem_cons_of_mem _ List.mem_cons_self
  have found (n : LineEntry) {x : Nat} (here : c.listing.offset? n.start = some x)
      (listed : n ∈ fullLoop.lines.values) : t.line? x = some n.line := by
    have last : fullLoop.LastLine n.start n :=
      ⟨listed, (resolves.inOrder_iff coherent here here).mpr (Nat.le_refl x), fun _ _ => id⟩
    obtain ⟨id, entry⟩ := Numbered.exists_of_mem_values listed
    have known := (coherent.listing.stored n.start).mpr (coherent.exact.lines id n entry)
    obtain ⟨x', here', tells, _⟩ := each n.start known
    cases here.symm.trans here'
    exact (tells n.line).mpr ⟨n, last, rfl⟩
  rw [lines] at found
  exact ⟨assembled, agree, t, c, made, first, found ⟨⟨0, 0⟩, 8⟩ first (by decide), second,
    found ⟨⟨0, 1⟩, 7⟩ second (by decide)⟩

end JvmClass.Body
