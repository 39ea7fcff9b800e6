import JvmClass.Proofs.Code.Recoding
import JvmClass.Proofs.Code.RangeOrder

/-! Edits that fail.  The checks of an edit come before its changes.  Where a step in the middle may
still fail, it is one that cannot: a handle with a place has an instruction, and all targeters of a
handle point at it.  So a failed edit leaves a body as it was, apart from the identifier that a new
entry was to have. -/

namespace JvmClass

namespace Listing

variable {entries : Targeter → List Handle} {l m : Listing} {h old new : Handle}
  {i : Instruction Handle} {e : Error} {p : Nat}

theorem eq_of_insertAt_error (failed : insertAt p i l = .error e m) : m = l := by
  unfold insertAt at failed
  split at failed <;> cases failed
  rfl

theorem eq_of_replace_error (failed : replace h i l = .error e m) : m = l := by
  unfold replace at failed
  split at failed
  · cases failed
    rfl
  · split at failed <;> cases failed
    rfl

theorem eq_of_updateTarget_error {branch : Handle}
    (failed : updateTarget branch old new l = .error e m) : m = l := by
  unfold updateTarget at failed
  split at failed
  · split at failed
    · cases failed
      rfl
    · split at failed <;> cases failed
      rfl
  · cases failed
    rfl

theorem eq_of_resolve_error (failed : resolve l = .error e m) : m = l := by
  unfold resolve at failed
  split at failed <;> cases failed
  rfl

/-- That the handle has no instruction is found out too late, and cannot happen. -/
theorem eq_of_remove_error (indexed : l.Indexed entries) (failed : remove h l = .error e m) :
    m = l := by
  cases found : l.position h with
  | error e' =>
    rw [remove_of_unknown found] at failed
    cases failed
    rfl
  | ok p =>
    by_cases others : l.otherTargeters h = []
    · obtain ⟨i, stored⟩ := indexed.exists_get? found
      rw [remove_of_alone found others, stored] at failed
      cases failed
    · rw [remove_of_targeted found others] at failed
      cases failed
      rfl

/-- Redirecting the branches of a list one by one: those that are still to come go on pointing at
`old`. -/
theorem exists_redirect {ts : List Targeter} (nodup : ts.Nodup) (coherent : l.Coherent entries)
    (known : l.contains new) (mentioned : ∀ t ∈ ts, old ∈ l.mentions entries t) :
    ∃ m, redirect old new ts l = .ok () m := by
  induction ts generalizing l with
  | nil => exact ⟨l, rfl⟩
  | cons t ts ih =>
    obtain ⟨apart, distinct⟩ := List.nodup_cons.mp nodup
    obtain ⟨here, others⟩ := List.forall_mem_cons.mp mentioned
    cases t with
    | instruction branch =>
      obtain ⟨m, first, follows, contains, mentions⟩ := updateTarget_eq_ok coherent known here
      have later : ∀ u ∈ ts, old ∈ m.mentions entries u := by
        intro u member
        have other : u ≠ .instruction branch := fun same => apart (same ▸ member)
        rw [mentions, if_neg other]
        exact others u member
      obtain ⟨n, rest⟩ := ih distinct follows.coherent ((contains new).mpr known) later
      exact ⟨n, (bind_of_ok first).trans rest⟩
    | _ => exact ih distinct coherent known others

theorem eq_of_redirectBranches_error (coherent : l.Coherent entries)
    (failed : redirectBranches old new l = .error e m) : m = l := by
  unfold redirectBranches at failed
  split at failed
  · rename_i known
    have mentioned : ∀ t ∈ l.targetersOf old, old ∈ l.mentions entries t := fun t =>
      coherent.mem_targetersOf_iff.mp
    obtain ⟨n, done⟩ := exists_redirect (l.nodup_targetersOf old) coherent known mentioned
    cases failed.symm.trans done
  · cases failed
    rfl

theorem eq_of_edit_error {c : Command} (coherent : l.Coherent entries) (other : c ≠ .encode)
    (failed : c.edit l = .error e m) : m = l := by
  cases c with
  | append i => exact eq_of_insertAt_error failed
  | insertBefore h i =>
    change Listing.insertBefore h i l = .error e m at failed
    unfold insertBefore at failed
    split at failed
    · cases failed
      rfl
    · exact eq_of_insertAt_error failed
  | insertAfter h i =>
    change Listing.insertAfter h i l = .error e m at failed
    unfold insertAfter at failed
    split at failed
    · cases failed
      rfl
    · exact eq_of_insertAt_error failed
  | replace h i => exact eq_of_replace_error failed
  | remove h => exact eq_of_remove_error coherent.toIndexed failed
  | updateTarget branch old new => exact eq_of_updateTarget_error failed
  | redirectBranches old new => exact eq_of_redirectBranches_error coherent failed
  | resolve => exact eq_of_resolve_error failed
  | encode => exact absurd rfl other

theorem Coherent.targetersOf_of_unknown (coherent : l.Coherent entries)
    (missing : l.position h = .error e) : l.targetersOf h = [] := by
  refine List.eq_nil_iff_forall_not_mem.mpr fun t member => ?_
  rw [coherent.mem_targetersOf_iff] at member
  have listed := (coherent.stored h).mpr (coherent.known t h member)
  obtain ⟨k, _, found⟩ := exists_position coherent.nodup listed
  rw [position_eq_ok_iff.mpr found] at missing
  cases missing

theorem remove_eq_stillTargeted_iff (coherent : l.Coherent entries) {k : Handle}
    {ts : List Targeter} : remove h l = .error (.stillTargeted k ts) m ↔
      k = h ∧ ts = l.otherTargeters h ∧ ts ≠ [] ∧ m = l := by
  cases found : l.position h with
  | error e =>
    have none : l.otherTargeters h = [] := by
      rw [otherTargeters, coherent.targetersOf_of_unknown found, List.filter_nil]
    rw [remove_of_unknown found, none]
    refine iff_of_false ?_ fun both => both.2.2.1 both.2.1
    unfold position at found
    split at found <;> cases found
    rintro ⟨⟩
  | ok p =>
    by_cases others : l.otherTargeters h = []
    · obtain ⟨i, stored⟩ := coherent.exists_get? found
      rw [remove_of_alone found others, stored, others]
      exact iff_of_false (by rintro ⟨⟩) fun both => both.2.2.1 both.2.1
    · rw [remove_of_targeted found others]
      constructor
      · rintro ⟨⟩
        exact ⟨rfl, rfl, others, rfl⟩
      · rintro ⟨rfl, rfl, _, rfl⟩
        rfl

end Listing

namespace Body

variable {b c : Body} {old new : Handle} {e : Error}

theorem enter_eq_error {hs : List Handle} {make : Nat → Targeter} {store : Nat → Body → Body}
    (failed : enter hs make store b = .error e c) : c = b.spent := by
  obtain ⟨e', run⟩ | ⟨_, run⟩ := enter_cases hs make store b
  · cases failed.symm.trans run
    rfl
  · cases failed.symm.trans run

theorem checked_eq_error {check : Except Error Unit} {edit : Edit Nat}
    (failed : (liftExcept check >>= fun _ => edit) b = .error e c) :
    c = b ∨ edit b = .error e c := by
  cases check with
  | ok _ => exact .inr failed
  | error e' =>
    cases failed
    exact .inl rfl

theorem add_eq_error {x : Entry} (failed : x.add b = .error e c) : c = b ∨ c = b.spent := by
  cases x with
  | range r =>
    have run : c = b ∨ enter r.handles .exceptionHandler (storeHandler r) b = .error e c :=
      checked_eq_error failed
    exact run.imp_right enter_eq_error
  | scope v =>
    have run : c = b ∨ enter v.handles .localVariable (storeVariable v) b = .error e c := by
      change addVariable v b = .error e c at failed
      unfold addVariable at failed
      cases last : v.last? with
      | none =>
        rw [last] at failed
        exact .inr failed
      | some last' =>
        rw [last] at failed
        exact checked_eq_error failed
    exact run.imp_right enter_eq_error
  | line n =>
    have run : enter [n.start] .lineNumber (storeLine n) b = .error e c := failed
    exact .inr (enter_eq_error run)

theorem redirectTargeters_eq_error (coherent : b.Coherent)
    (failed : redirectTargeters old new b = .error e c) : c = b := by
  by_cases known : b.listing.contains new
  · obtain ⟨d, done⟩ := exists_redirectTargeters coherent known
    cases failed.symm.trans done
  · unfold redirectTargeters at failed
    rw [if_neg known] at failed
    cases failed
    rfl

/-- A failed edit leaves a body as it was, but an identifier may be used up when an entry is not
added; encoding is no such edit, as it resolves offsets first.  Taking out an instruction fails for
its targeters just when there are others than the instruction itself. -/
theorem unchanged_of_error (reachable : b.Reachable) :
    (∀ (x : Command) e c, x ≠ .listing .encode → x.edit b = .error e c →
      c = b ∨ (∃ entry, x = .add entry) ∧ c = { b with fresh := b.fresh + 1 }) ∧
    ∀ h,
      ((∃ k ts m, Listing.remove h b.listing = .error (.stillTargeted k ts) m) ↔
        ∃ t ∈ b.listing.targetersOf h, t ≠ .instruction h) := by
  have coherent := coherent_of_reachable reachable
  refine ⟨fun x e c other failed => ?_, fun h => ?_⟩
  · cases x with
    | listing x =>
      change onListing x.edit b = .error e c at failed
      rw [onListing_eq] at failed
      split at failed <;> cases failed
      rename_i l run
      have same := Listing.eq_of_edit_error coherent.listing (fun same => other (same ▸ rfl)) run
      exact .inl (same ▸ rfl)
    | add entry =>
      exact (add_eq_error failed).imp_right fun same =>
        ⟨⟨entry, rfl⟩, same⟩
    | removeHandler id | removeVariable id | removeLine id | removeVariables => cases failed
    | redirectTargeters old new => exact .inl (redirectTargeters_eq_error coherent failed)
  · simp only [Listing.remove_eq_stillTargeted_iff coherent.listing]
    have others : b.listing.otherTargeters h ≠ [] ↔
        ∃ t ∈ b.listing.targetersOf h, t ≠ .instruction h := by
      simp [Listing.otherTargeters, List.filter_eq_nil_iff]
    rw [← others]
    exact ⟨fun ⟨_, _, _, _, same, more, _⟩ => same ▸ more, fun more => ⟨_, _, _, rfl, rfl, more, rfl⟩⟩

theorem unchanged_of_error_guardedNops : guardedNops.Reachable ∧
    (∃ k ts m, Listing.remove ⟨0, 0⟩ guardedNops.listing = .error (.stillTargeted k ts) m) ∧
    ∃ e, (Command.listing (.remove ⟨0, 0⟩)).edit guardedNops = .error e guardedNops := by
  have targeted := ((exact_of_reachable reachable_guardedNops).1.exceptionHandler ⟨0, 0⟩ 0).mpr
    ⟨firstTwo, guards_guardedNops.range, .inl rfl⟩
  obtain ⟨same, removal⟩ := unchanged_of_error reachable_guardedNops
  obtain ⟨k, ts, m, refused⟩ := (removal ⟨0, 0⟩).mpr ⟨_, targeted, Targeter.noConfusion⟩
  refine ⟨reachable_guardedNops, ⟨k, ts, m, refused⟩, .stillTargeted k ts, ?_⟩
  have failed : (Command.listing (.remove ⟨0, 0⟩)).edit guardedNops =
      .error (.stillTargeted k ts) { guardedNops with listing := m } := by
    change onListing (Listing.remove ⟨0, 0⟩) guardedNops = _
    rw [onListing_eq, refused]
    rfl
  obtain unchanged | ⟨⟨_, added⟩, _⟩ := same _ _ _ (by rintro ⟨⟩) failed
  · exact failed.trans (congrArg _ unchanged)
  · cases added

end Body

end JvmClass
