import JvmClass.Code.Body
import JvmClass.Proofs.Code.History

/-! Table entries as targeters.  All that matters of the three tables of a body is what each entry
points at, so an edit of a table is described by how it changes that.  An edit keeps a body
coherent when the index of the listing changes along. -/

namespace JvmClass.Body

def entries (b : Body) : Targeter → List Handle
  | .instruction _ => []
  | .exceptionHandler id => (b.handlers[id]?).elim [] ExceptionRange.handles
  | .localVariable id => (b.scopes[id]?).elim [] VariableScope.handles
  | .lineNumber id => (b.lines[id]?).elim [] fun n => [n.start]

/-- Every entry points at something, so this says that the entry is there. -/
def HasEntry (b : Body) (t : Targeter) : Prop := b.entries t ≠ []

structure Coherent (b : Body) : Prop where
  listing : b.listing.Coherent b.entries
  given : ∀ t, b.HasEntry t → t.number < b.fresh
  distinct : ∀ t u, b.HasEntry t → b.HasEntry u → t.number = u.number → t = u

structure Continues (b c : Body) : Prop where
  listing : b.listing.Continues c.listing
  fresh : b.fresh ≤ c.fresh
  new : ∀ t, c.HasEntry t → ¬ b.HasEntry t → b.fresh ≤ t.number

structure Follows (b c : Body) : Prop where
  coherent : c.Coherent
  continues : b.Continues c

variable {b c d : Body} {t u : Targeter} {h k : Handle} {id : Nat}

theorem Continues.refl (b : Body) : b.Continues b :=
  ⟨.refl _, Nat.le_refl _, fun _ present absent => absurd present absent⟩

theorem Continues.trans (first : b.Continues c) (second : c.Continues d) : b.Continues d where
  listing := first.listing.trans second.listing
  fresh := Nat.le_trans first.fresh second.fresh
  new t present absent := by
    by_cases between : c.HasEntry t
    · exact first.new t between absent
    · exact Nat.le_trans first.fresh (second.new t present between)

theorem Follows.refl (coherent : b.Coherent) : b.Follows b := ⟨coherent, .refl b⟩

theorem Follows.trans (first : b.Follows c) (second : c.Follows d) : b.Follows d :=
  ⟨second.coherent, first.continues.trans second.continues⟩

theorem Coherent.gone (coherent : b.Coherent) (first : b.Continues c) (second : c.Continues d)
    (present : b.HasEntry t) (removed : ¬ c.HasEntry t) : ¬ d.HasEntry t := by
  intro back
  have bound := coherent.given t present
  have new := second.new t back removed
  have := first.fresh
  omega

theorem entries_exceptionHandler :
    b.entries (.exceptionHandler id) = (b.handlers[id]?).elim [] ExceptionRange.handles := rfl

theorem entries_localVariable :
    b.entries (.localVariable id) = (b.scopes[id]?).elim [] VariableScope.handles := rfl

theorem entries_lineNumber :
    b.entries (.lineNumber id) = (b.lines[id]?).elim [] fun n => [n.start] := rfl

theorem hasEntry_exceptionHandler : b.HasEntry (.exceptionHandler id) ↔ id ∈ b.handlers := by
  rw [HasEntry, entries_exceptionHandler, Std.TreeMap.mem_iff_isSome_getElem?]
  cases b.handlers[id]? <;> simp [ExceptionRange.handles]

theorem hasEntry_localVariable : b.HasEntry (.localVariable id) ↔ id ∈ b.scopes := by
  rw [HasEntry, entries_localVariable, Std.TreeMap.mem_iff_isSome_getElem?]
  cases b.scopes[id]? <;> simp [VariableScope.handles]

theorem hasEntry_lineNumber : b.HasEntry (.lineNumber id) ↔ id ∈ b.lines := by
  rw [HasEntry, entries_lineNumber, Std.TreeMap.mem_iff_isSome_getElem?]
  cases b.lines[id]? <;> simp

theorem mentions_exceptionHandler : b.listing.mentions b.entries (.exceptionHandler id) =
    (b.handlers[id]?).elim [] ExceptionRange.handles := rfl

theorem mentions_localVariable : b.listing.mentions b.entries (.localVariable id) =
    (b.scopes[id]?).elim [] VariableScope.handles := rfl

theorem mentions_lineNumber : b.listing.mentions b.entries (.lineNumber id) =
    (b.lines[id]?).elim [] fun n => [n.start] := rfl

theorem mentions_entries (entry : ∀ h, t ≠ .instruction h) :
    b.listing.mentions b.entries t = b.entries t := by
  cases t with
  | instruction h => exact absurd rfl (entry h)
  | _ => rfl

theorem coherent_of_no_entries (absent : ∀ t, b.entries t = [])
    (listing : b.listing.Coherent fun _ => []) : b.Coherent where
  listing := by
    rw [show b.entries = fun _ => [] from funext absent]
    exact listing
  given t present := (present (absent t)).elim
  distinct t u present := (present (absent t)).elim

theorem coherent_empty (id : Nat) (maxStack maxLocals : UInt16) :
    (empty id maxStack maxLocals).Coherent := by
  refine coherent_of_no_entries (fun t => ?_) (Listing.coherent_empty id)
  cases t <;> simp [entries, empty]

/-- From `b` to `c` the entry `t` is given these handles, or it is made with them, or taken away.
An entry that is made takes the next identifier. -/
structure Assigns (b c : Body) (t : Targeter) (hs : List Handle) : Prop where
  entry : ∀ h, t ≠ .instruction h
  entries : ∀ u, c.entries u = if u = t then hs else b.entries u
  fresh : b.fresh ≤ c.fresh
  made : hs ≠ [] → b.HasEntry t ∨ t.number = b.fresh ∧ b.fresh < c.fresh

namespace Assigns

variable {hs : List Handle}

theorem ne_nil (assigns : Assigns b c t hs) (present : c.HasEntry t) : hs ≠ [] := by
  rw [HasEntry, assigns.entries, if_pos rfl] at present
  exact present

theorem before (assigns : Assigns b c t hs) (present : c.HasEntry u) (different : u ≠ t) :
    b.HasEntry u := by
  rw [HasEntry, assigns.entries, if_neg different] at present
  exact present

theorem mentions (assigns : Assigns b c t hs) (u : Targeter) :
    b.listing.mentions c.entries u = if u = t then hs else b.listing.mentions b.entries u := by
  cases u with
  | instruction h => rw [if_neg (assigns.entry h).symm]; rfl
  | exceptionHandler id => exact assigns.entries (.exceptionHandler id)
  | localVariable id => exact assigns.entries (.localVariable id)
  | lineNumber id => exact assigns.entries (.lineNumber id)

theorem given (assigns : Assigns b c t hs) (coherent : b.Coherent) (present : c.HasEntry u) :
    u.number < c.fresh := by
  by_cases same : u = t
  · subst same
    obtain before | ⟨number, more⟩ := assigns.made (assigns.ne_nil present)
    · exact Nat.lt_of_lt_of_le (coherent.given u before) assigns.fresh
    · exact number ▸ more
  · exact Nat.lt_of_lt_of_le (coherent.given u (assigns.before present same)) assigns.fresh

theorem apart (assigns : Assigns b c t hs) (coherent : b.Coherent) (different : u ≠ t)
    (present : c.HasEntry u) (made : c.HasEntry t) : u.number ≠ t.number := by
  intro same
  have before := assigns.before present different
  obtain old | ⟨number, _⟩ := assigns.made (assigns.ne_nil made)
  · exact different (coherent.distinct u t before old same)
  · have := coherent.given u before
    omega

theorem distinct (assigns : Assigns b c t hs) (coherent : b.Coherent) {v : Targeter}
    (there : c.HasEntry u) (there' : c.HasEntry v) (same : u.number = v.number) : u = v := by
  by_cases left : u = t
  · by_cases right : v = t
    · exact left.trans right.symm
    · exact absurd (left ▸ same.symm) (assigns.apart coherent right there' (left ▸ there))
  · by_cases right : v = t
    · exact absurd (right ▸ same) (assigns.apart coherent left there (right ▸ there'))
    · exact coherent.distinct u v (assigns.before there left) (assigns.before there' right) same

theorem new (assigns : Assigns b c t hs) (there : c.HasEntry u) (absent : ¬ b.HasEntry u) :
    b.fresh ≤ u.number := by
  by_cases same : u = t
  · subst same
    obtain before | ⟨number, _⟩ := assigns.made (assigns.ne_nil there)
    · exact absurd before absent
    · exact Nat.le_of_eq number.symm
  · exact absurd (assigns.before there same) absent

end Assigns

theorem Coherent.assign {hs : List Handle} {index : Std.HashMap Handle TargeterSet}
    (coherent : b.Coherent) (assigns : Assigns b c t hs)
    (listing : c.listing = { b.listing with targeters := index })
    (index : ∀ u k, Listing.Points index u k ↔
      if u = t then k ∈ hs else Listing.Points b.listing.targeters u k)
    (known : ∀ h ∈ hs, b.listing.contains h) : b.Follows c := by
  refine ⟨⟨?_, fun u => assigns.given coherent, fun u v => assigns.distinct coherent⟩, ?_,
    assigns.fresh, fun u => assigns.new⟩
  · rw [listing]
    refine coherent.listing.reindex ?_ ?_
    · intro u h
      rw [index, assigns.mentions]
      split
      · rfl
      · exact coherent.listing.index u h
    · intro u h mentioned
      rw [assigns.mentions] at mentioned
      split at mentioned
      · exact known h mentioned
      · exact coherent.listing.known u h mentioned
  · rw [listing]
    exact .of_contains rfl rfl fun _ present => present

end JvmClass.Body
