import JvmClass.Attribute.Tables
import JvmClass.Proofs.Search

/-! Looking up lines.  A table that is sorted by offset is searched by halving, and the line that is
found is that of the last entry which starts at or before the offset.  Entries of one offset may be
repeated: as long as they agree on the line, it does not matter on which of them a search ends. -/

namespace JvmClass.LineNumberTable

variable {t : LineNumberTable} {pc : Int} {line : UInt16}

def Sorted (t : LineNumberTable) : Prop := Search.Ascending (fun n => n.start.toNat) t.entries

/-- Entries that start at the same offset tell the same line. -/
def Agreeing (t : LineNumberTable) : Prop :=
  ∀ n ∈ t.entries, ∀ n' ∈ t.entries, n.start = n'.start → n.line = n'.line

def startedBy (t : LineNumberTable) (pc : Int) : List LineNumber :=
  t.entries.toList.filter fun n => (n.start.toNat : Int) ≤ pc

/-- The line of the last entry that starts at or before an offset, found by going through all of
them. -/
def scan (t : LineNumberTable) (pc : Int) : Option UInt16 := (t.startedBy pc).getLast?.map (·.line)

/-- The line that a search for an offset leads to: the one of the entry that it hit, or of the entry
in front of the gap. -/
def lineAt (t : LineNumberTable) : Except Nat Nat → Option UInt16
  | .ok i => t.entries[i]?.map (·.line)
  | .error 0 => none
  | .error (i + 1) => t.entries[i]?.map (·.line)

theorem mem_startedBy {n : LineNumber} :
    n ∈ t.startedBy pc ↔ n ∈ t.entries ∧ (n.start.toNat : Int) ≤ pc := by
  simp [startedBy]

theorem startedBy_natCast (t : LineNumberTable) (k : Nat) :
    t.startedBy k = t.entries.toList.filter fun n => n.start.toNat ≤ k := by
  simp only [startedBy, Int.ofNat_le]

theorem scan_eq_none_iff : t.scan pc = none ↔ ∀ n ∈ t.entries, pc < n.start.toNat := by
  unfold scan
  rw [Option.map_eq_none_iff, List.getLast?_eq_none_iff, List.eq_nil_iff_forall_not_mem]
  simp only [mem_startedBy, not_and, Int.not_le]

theorem scan_of_neg (negative : pc < 0) : t.scan pc = none :=
  scan_eq_none_iff.mpr fun n _ => Int.lt_of_lt_of_le negative (Int.natCast_nonneg n.start.toNat)

theorem line?_eq_scan (sorted : t.Sorted) (pc : Int) : t.line? pc = t.scan pc := by
  unfold line?
  split
  · rename_i negative
    exact (scan_of_neg negative).symm
  · rename_i positive
    obtain ⟨k, rfl⟩ := Int.eq_ofNat_of_zero_le (Int.not_lt.mp positive)
    rw [Int.toNat_natCast, Search.lastUpTo?_eq_getLast? sorted, scan, startedBy_natCast]

theorem scan_eq_some_iff (sorted : t.Sorted) (agreeing : t.Agreeing) :
    t.scan pc = some line ↔ ∃ n ∈ t.startedBy pc, n.line = line ∧
      ∀ n' ∈ t.startedBy pc, n'.start ≤ n.start := by
  have ordered : (t.startedBy pc).Pairwise fun n n' => n.start ≤ n'.start :=
    List.Pairwise.filter _ sorted
  have last_of {n : LineNumber} (found : (t.startedBy pc).getLast? = some n) :
      n ∈ t.startedBy pc ∧ ∀ n' ∈ t.startedBy pc, n'.start ≤ n.start := by
    obtain ⟨before, same⟩ := List.getLast?_eq_some_iff.mp found
    rw [same, List.pairwise_append] at ordered
    rw [same]
    refine ⟨List.mem_append_right _ (List.mem_singleton_self n), fun n' member => ?_⟩
    obtain early | final := List.mem_append.mp member
    · exact ordered.2.2 n' early n (List.mem_singleton_self n)
    · rw [List.mem_singleton.mp final]
      exact UInt16.le_refl _
  unfold scan
  rw [Option.map_eq_some_iff]
  constructor
  · rintro ⟨n, found, rfl⟩
    exact ⟨n, (last_of found).1, rfl, (last_of found).2⟩
  · rintro ⟨n, member, rfl, greatest⟩
    obtain ⟨last, found⟩ := Option.ne_none_iff_exists'.mp
      (mt List.getLast?_eq_none_iff.mp (List.ne_nil_of_mem member))
    obtain ⟨member', greatest'⟩ := last_of found
    have same : last.start = n.start :=
      UInt16.le_antisymm (greatest last member') (greatest' n member)
    have listed := (mem_startedBy.mp member).1
    exact ⟨last, found, agreeing last (mem_startedBy.mp member').1 n listed same⟩

theorem lineAt_eq_scan (sorted : t.Sorted) (agreeing : t.Agreeing) {k : Nat} {r : Except Nat Nat}
    (found : Search.Finds (fun n => n.start.toNat) t.entries k r) : t.lineAt r = t.scan k := by
  cases found with
  | @hit i n here same =>
    have exactly : t.scan k = some n.line := by
      refine (scan_eq_some_iff sorted agreeing).mpr ⟨n, ?_, rfl, fun n' member => ?_⟩
      · exact mem_startedBy.mpr ⟨Array.mem_of_getElem? here, by omega⟩
      · have := (mem_startedBy.mp member).2
        rw [UInt16.le_iff_toNat_le]
        omega
    rw [exactly, lineAt, here]
    rfl
  | @gap i splits absent =>
    have place := (Search.splits_upTo sorted k).unique splits
    rw [← line?_eq_scan sorted, line?, if_neg (Int.not_lt.mpr (Int.natCast_nonneg k)),
      Int.toNat_natCast, Search.lastUpTo?, place]
    cases i <;> rfl

/-- In a sorted table whose entries agree, looking up a line comes to what going through all entries
comes to, on whichever entry a search for the offset ends.  There is no line just when the offset
is negative, there is no entry, or every entry starts later. -/
theorem line?_scans (sorted : t.Sorted) (agreeing : t.Agreeing) (pc : Int) :
    t.line? pc = t.scan pc ∧
      (0 ≤ pc → (∃ r, Search.Finds (fun n => n.start.toNat) t.entries pc.toNat r) ∧
        ∀ r, Search.Finds (fun n => n.start.toNat) t.entries pc.toNat r →
          t.lineAt r = t.scan pc) ∧
      (t.line? pc = none ↔
        pc < 0 ∨ t.entries = #[] ∨ ∀ n ∈ t.entries, pc < n.start.toNat) := by
  have same := line?_eq_scan sorted pc
  refine ⟨same, fun positive => ⟨Search.exists_finds sorted _, fun r found => ?_⟩, ?_⟩
  · rw [lineAt_eq_scan sorted agreeing found, Int.toNat_of_nonneg positive]
  · rw [same, scan_eq_none_iff]
    constructor
    · exact fun later => .inr (.inr later)
    · rintro (negative | none | later)
      · exact scan_eq_none_iff.mp (scan_of_neg negative)
      · rw [none]
        exact fun n member => absurd member (Array.not_mem_empty n)
      · exact later

def repeated : LineNumberTable := ⟨#[⟨1, 10⟩, ⟨5, 11⟩, ⟨5, 11⟩, ⟨12, 13⟩]⟩

theorem line?_scans_repeated : repeated.Sorted ∧ repeated.Agreeing ∧
    repeated.line? 7 = some 11 ∧ repeated.line? 0 = none ∧
    ∀ i ∈ [1, 2], repeated.lineAt (.ok i) = some 11 := by
  have sorted : repeated.Sorted := by
    unfold Sorted Search.Ascending
    decide
  have agreeing : repeated.Agreeing := by
    unfold Agreeing
    decide
  obtain ⟨seven, _, _⟩ := line?_scans sorted agreeing 7
  obtain ⟨_, _, none⟩ := line?_scans sorted agreeing 0
  obtain ⟨_, five, _⟩ := line?_scans sorted agreeing 5
  refine ⟨sorted, agreeing, seven.trans (by decide), none.mpr (.inr (.inr (by decide))), ?_⟩
  intro i member
  have hit : Search.Finds (fun n : LineNumber => n.start.toNat) repeated.entries 5 (.ok i) := by
    obtain rfl | rfl : i = 1 ∨ i = 2 := by simpa using member
    · exact .hit (x := ⟨5, 11⟩) rfl rfl
    · exact .hit (x := ⟨5, 11⟩) rfl rfl
  exact ((five (by decide)).2 _ hit).trans (by decide)

end JvmClass.LineNumberTable
