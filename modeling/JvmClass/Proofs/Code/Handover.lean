import JvmClass.Proofs.Code.Redirection
import JvmClass.Proofs.Code.Relifting

/-! What is handed over when the targeters of an instruction are redirected.  The new handle gets
the targeters of the old one besides its own, and nothing is left at the old one, so that its
instruction can be taken out. -/

namespace JvmClass

namespace Listing

variable {entries : Targeter → List Handle} {l : Listing} {h : Handle}

theorem exists_remove (indexed : l.Indexed entries) (present : l.contains h)
    (alone : l.targetersOf h = []) :
    ∃ i m, remove h l = .ok i m ∧ l.get? h = some i ∧ ¬ m.contains h := by
  obtain ⟨p, _, position⟩ := exists_position indexed.nodup ((indexed.stored h).mpr present)
  obtain ⟨i, stored⟩ := contains_iff.mp present
  have others : l.otherTargeters h = [] := by
    unfold otherTargeters
    rw [alone]
    rfl
  refine ⟨i, l.without p h i, ?_, stored, ?_⟩
  · rw [remove_of_alone (position_eq_ok_iff.mpr position) others, stored]
  · rw [contains_of_erase (l := l) rfl]
    exact fun both => both.1 rfl

end Listing

namespace Body

variable {b c : Body} {old new : Handle}

/-- In `c` everything that pointed at `old` in `b` points at `new` instead.  What pointed elsewhere
still does so, and all else is as it was. -/
structure HandsOver (old new : Handle) (b c : Body) : Prop where
  order : c.listing.order = b.listing.order
  instructions : ∀ h, c.listing.get? h =
    (b.listing.get? h).map (·.map (Listing.swapHandle old new))
  handlers : ∀ id : Nat, c.handlers[id]? =
    (b.handlers[id]?).map (·.map (Listing.swapHandle old new))
  scopes : ∀ id : Nat, c.scopes[id]? = (b.scopes[id]?).map (·.map (Listing.swapHandle old new))
  lines : ∀ id : Nat, c.lines[id]? = (b.lines[id]?).map fun n =>
    { n with start := Listing.swapHandle old new n.start }
  offsets : c.listing.offsets? = b.listing.offsets?
  attributes : c.attributes = b.attributes
  maxStack : c.maxStack = b.maxStack
  maxLocals : c.maxLocals = b.maxLocals

theorem Swaps.handsOver (redirected : Redirected old new b c) : HandsOver old new b c where
  order := redirected.order
  instructions := redirected.get?_eq
  handlers := redirected.handlers_eq
  scopes := redirected.scopes_eq
  lines := redirected.lines_eq
  offsets := redirected.offsets
  attributes := redirected.attributes
  maxStack := redirected.maxStack
  maxLocals := redirected.maxLocals

theorem HandsOver.contains_iff (handsOver : HandsOver old new b c) (h : Handle) :
    c.listing.contains h ↔ b.listing.contains h := by
  rw [Listing.contains_iff, Listing.contains_iff, handsOver.instructions]
  cases b.listing.get? h <;> simp

/-- Redirecting the targeters of one instruction to another one succeeds and hands all of them
over.  The old instruction has none after that, not even itself, and can be taken out. -/
theorem hands_over (assembled : b.Assembled) (known : b.listing.contains new)
    (different : old ≠ new) :
    ∃ c, redirectTargeters old new b = .ok () c ∧ HandsOver old new b c ∧
      c.listing.targetersOf old = [] ∧
      (∀ t, t ∈ c.listing.targetersOf new ↔
        t ∈ b.listing.targetersOf old ∨ t ∈ b.listing.targetersOf new) ∧
      (∀ h, h ≠ old → h ≠ new → ∀ t, t ∈ c.listing.targetersOf h ↔ t ∈ b.listing.targetersOf h) ∧
      (b.listing.contains old → ∃ i d, onListing (Listing.remove old) c = .ok i d ∧
        c.listing.get? old = some i ∧ ¬ d.listing.contains old) := by
  have coherent := coherent_of_assembled assembled
  obtain ⟨c, run, follows, mentions⟩ := redirectTargeters_eq_ok coherent known different
  have handsOver := (swaps_redirectTargeters coherent run).handsOver
  have indexed := follows.coherent.listing.toIndexed
  have targeters : ∀ h t, t ∈ c.listing.targetersOf h ↔
      (t ∈ b.listing.targetersOf h ∧ h ≠ old) ∨ (h = new ∧ t ∈ b.listing.targetersOf old) := by
    intro h t
    rw [indexed.mem_targetersOf_iff, mentions, Listing.mem_map_swapHandle_iff,
      coherent.listing.mem_targetersOf_iff, coherent.listing.mem_targetersOf_iff]
  have none : c.listing.targetersOf old = [] := by
    refine List.eq_nil_iff_forall_not_mem.mpr fun t member => ?_
    obtain ⟨_, other⟩ | ⟨same, _⟩ := (targeters old t).mp member
    · exact other rfl
    · exact different same
  refine ⟨c, run, handsOver, none, fun t => ?_, fun h other other' t => ?_, fun present => ?_⟩
  · rw [targeters]
    simp [Ne.symm different, or_comm]
  · rw [targeters]
    simp [other, other']
  · obtain ⟨i, m, removed, stored, gone⟩ :=
      Listing.exists_remove indexed ((handsOver.contains_iff old).mpr present) none
    refine ⟨i, { c with listing := m }, ?_, stored, gone⟩
    rw [onListing_eq, removed]

theorem hands_over_fullLoop : fullLoop.Assembled ∧ fullLoop.listing.contains ⟨0, 1⟩ ∧
    ∃ c, redirectTargeters ⟨0, 0⟩ ⟨0, 1⟩ fullLoop = .ok () c ∧
      c.listing.get? ⟨0, 1⟩ = some (.branch .goto ⟨0, 1⟩) ∧
      c.listing.targetersOf ⟨0, 0⟩ = [] ∧ .instruction ⟨0, 1⟩ ∈ c.listing.targetersOf ⟨0, 1⟩ ∧
      ∃ i d, onListing (Listing.remove ⟨0, 0⟩) c = .ok i d := by
  have assembled : fullLoop.Assembled :=
    .attributes _ (.reached (reachable_after _ reachable_loopBody))
  have coherent := coherent_of_assembled assembled
  obtain ⟨_, same⟩ := gains_fullLoop.listing
  have order : fullLoop.listing.order.toList = [⟨0, 0⟩, ⟨0, 1⟩] := by
    rw [same]
    exact order_loop
  have known : ∀ h ∈ [(⟨0, 0⟩ : Handle), ⟨0, 1⟩], fullLoop.listing.contains h := by
    intro h listed
    rw [← coherent.listing.stored, order]
    exact listed
  have jump : fullLoop.listing.get? ⟨0, 1⟩ = some (.branch .goto ⟨0, 0⟩) := by
    obtain _ | ⟨_, _ | ⟨stored, _⟩⟩ :=
      Listing.get?_placeAll [.bipush 1, .branch .goto ⟨0, 0⟩] (.empty 0)
    rw [← Listing.loop_eq] at stored
    rw [same]
    exact stored
  have different : (⟨0, 0⟩ : Handle) ≠ ⟨0, 1⟩ := by decide
  obtain ⟨c, run, handsOver, none, targeters, _, removes⟩ :=
    hands_over assembled (known ⟨0, 1⟩ (by decide)) different
  obtain ⟨i, d, removed, _⟩ := removes (known ⟨0, 0⟩ (by decide))
  refine ⟨assembled, known ⟨0, 1⟩ (by decide), c, run, ?_, none, ?_, i, d, removed⟩
  · rw [handsOver.instructions, jump]
    rfl
  · refine (targeters _).mpr (.inl ?_)
    rw [coherent.listing.mem_targetersOf_iff, Listing.targets_of_get jump]
    exact List.mem_singleton_self _

end Body

end JvmClass
