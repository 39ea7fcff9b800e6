import JvmClass.Proofs.Code.FailedEdits
import JvmClass.Proofs.Code.Placements
import JvmClass.Proofs.Code.Relowering

/-! Offsets that a listing tells are never those of an earlier state.  Edits that move instructions
drop them, and pointing branches elsewhere changes no width.  What is read of a code array has the
offsets of the code, which are the ones that it is laid out with unless an instruction has a
widening prefix that it does not need. -/

namespace JvmClass

namespace Instruction

/-- No instruction of the code has a widening prefix that its operands do not need. -/
def Unwidened (code : List UInt8) : Prop :=
  ∀ chain, Chain code 0 chain → ∀ p ∈ chain,
    code[p.1]? = some Opcode.wide.code → p.2.needsWide = true

end Instruction

namespace Listing

open Instruction

variable {entries : Targeter → List Handle} {l m n : Listing} {h : Handle} {s : Starts}
  {code : List UInt8} {id : Nat}

/-- The offsets that the listing tells, if it tells any, are those of its instructions. -/
def UpToDate (l : Listing) : Prop :=
  ∀ o, l.offsets? = some o → l.Laid o ∧ l.width ≤ maxCodeLength

theorem upToDate_of_none (none : l.offsets? = none) : l.UpToDate := by
  intro o found
  rw [none] at found
  cases found

theorem upToDate_of_decode (decoded : decode id code = .ok (l, s))
    (short : code.length ≤ maxCodeLength) (unwidened : Unwidened code) : l.UpToDate := by
  obtain ⟨read, is, linked⟩ := linked_of_decode decoded
  obtain ⟨_, _, offsets, _, _, _, same, length⟩ := decode_eq_ok decoded
  obtain ⟨stays, ends⟩ :=
    linked.chained.placed_of_narrow (unwidened read linked.chained) linked.widthAt
  intro o found
  have table : l.offset? = fun h => o.starts[h]? := by
    funext h
    rw [offset?, found]
    rfl
  have starts := linked.maps.located
  rw [table] at starts
  have whole : o.length = code.length := by
    rw [same] at found
    cases found
    exact length
  refine ⟨linked.lists.laid_of_starts ?_ (fun h n start => ?_) (whole.trans ends.symm), ?_⟩
  · exact forall₂_join starts.flip stays fun p h q _ start stay => start.trans (stay ▸ rfl)
  · refine linked.maps.mem_order (x := n) ?_
    rw [table]
    exact start
  · rw [linked.lists.width_eq, ends]
    exact short

/-- From `l` to `m` branches may point elsewhere, and all else stays. -/
structure Retargets (l m : Listing) : Prop where
  order : m.order = l.order
  offsets : m.offsets? = l.offsets?
  widths : ∀ h, (m.get? h).map (fun i n => i.widthAt n) = (l.get? h).map fun i n => i.widthAt n

theorem Retargets.refl (l : Listing) : l.Retargets l := ⟨rfl, rfl, fun _ => rfl⟩

theorem Retargets.trans (first : l.Retargets m) (second : m.Retargets n) : l.Retargets n :=
  ⟨second.order.trans first.order, second.offsets.trans first.offsets,
    fun h => (second.widths h).trans (first.widths h)⟩

theorem retargets_of_updateTarget {branch old new : Handle}
    (done : updateTarget branch old new l = .ok () m) : l.Retargets m := by
  unfold updateTarget at done
  split at done
  · split at done
    · cases done
    · rename_i i found
      split at done
      · cases done
        refine ⟨rfl, rfl, fun h => ?_⟩
        rw [get?, Std.HashMap.getElem?_insert]
        split
        · rename_i same
          rw [← eq_of_beq same, found]
          simp
        · rfl
      · cases done
  · cases done

theorem retargets_of_redirect {old new : Handle} {ts : List Targeter}
    (done : redirect old new ts l = .ok () m) : l.Retargets m := by
  induction ts generalizing l with
  | nil =>
    cases done
    exact .refl _
  | cons t ts ih =>
    cases t with
    | instruction branch =>
      obtain ⟨⟨⟩, n, first, done⟩ := run_bind_eq_ok done
      exact (retargets_of_updateTarget first).trans (ih done)
    | _ => exact ih done

theorem retargets_of_redirectBranches {old new : Handle}
    (done : redirectBranches old new l = .ok () m) : l.Retargets m := by
  unfold redirectBranches at done
  split at done
  · exact retargets_of_redirect done
  · cases done

theorem Retargets.forall₂_toList (retargets : l.Retargets m) :
    List.Forall₂ (fun p q => p.1 = q.1 ∧ ∀ n, p.2.widthAt n = q.2.widthAt n) m.toList l.toList := by
  unfold toList
  rw [retargets.order]
  induction l.order.toList with
  | nil => exact .nil
  | cons h hs ih =>
    have same := retargets.widths h
    rw [List.filterMap_cons, List.filterMap_cons]
    cases here : l.get? h with
    | none =>
      rw [here, Option.map_none, Option.map_eq_none_iff] at same
      rw [same]
      exact ih
    | some i =>
      rw [here] at same
      obtain ⟨j, there, wide⟩ := Option.map_eq_some_iff.mp same
      rw [there]
      exact .cons ⟨rfl, congrFun wide⟩ ih

theorem Retargets.laid (retargets : l.Retargets m) {o : Offsets} (laid : l.Laid o) : m.Laid o := by
  have each := retargets.forall₂_toList
  have handles : m.toList.map (·.1) = l.toList.map (·.1) :=
    map_eq_map_of_forall₂ (each.imp fun _ _ both => both.1)
  have wide : List.Forall₂ (fun i j => ∀ n, i.widthAt n = j.widthAt n)
      (m.toList.map (·.2)) (l.toList.map (·.2)) :=
    List.forall₂_map_left_iff.mpr
      (List.forall₂_map_right_iff.mpr (each.imp fun _ _ both => both.2))
  refine ⟨fun h n => ?_, laid.length.trans (placed_congr wide).2.symm⟩
  rw [laid.starts, mem_placements_iff, mem_placements_iff, handles, (placed_congr wide).1]

theorem UpToDate.retarget (before : l.UpToDate) (retargets : l.Retargets m) : m.UpToDate := by
  intro o found
  rw [retargets.offsets] at found
  obtain ⟨laid, short⟩ := before o found
  have laid' := retargets.laid laid
  exact ⟨laid', laid'.length ▸ laid.length ▸ short⟩

theorem offsets?_of_insertAt {p : Nat} {i : Instruction Handle} (done : insertAt p i l = .ok h m) :
    m.offsets? = none := by
  unfold insertAt at done
  split at done <;> cases done
  rfl

theorem offsets?_of_insertBefore {i : Instruction Handle} {k : Handle}
    (done : insertBefore k i l = .ok h m) : m.offsets? = none := by
  unfold insertBefore at done
  split at done
  · cases done
  · exact offsets?_of_insertAt done

theorem offsets?_of_insertAfter {i : Instruction Handle} {k : Handle}
    (done : insertAfter k i l = .ok h m) : m.offsets? = none := by
  unfold insertAfter at done
  split at done
  · cases done
  · exact offsets?_of_insertAt done

theorem offsets?_of_replace {i j : Instruction Handle} (done : replace h i l = .ok j m) :
    m.offsets? = none := by
  unfold replace at done
  split at done
  · cases done
  · split at done <;> cases done
    rfl

theorem offsets?_of_remove {i : Instruction Handle} (done : remove h l = .ok i m) :
    m.offsets? = none := by
  cases found : l.position h with
  | error e =>
    rw [remove_of_unknown found] at done
    cases done
  | ok p =>
    by_cases others : l.otherTargeters h = []
    · rw [remove_of_alone found others] at done
      split at done <;> cases done
      rfl
    · rw [remove_of_targeted found others] at done
      cases done

theorem UpToDate.leave {α : Type} {edit : Edit α} (before : l.UpToDate)
    (succeeds : ∀ a m, edit l = .ok a m → m.UpToDate)
    (stays : ∀ e m, edit l = .error e m → m = l) : (left edit l).UpToDate := by
  unfold left
  cases run : edit l with
  | ok a m => exact succeeds a m run
  | error e m =>
    rw [stays e m run]
    exact before

theorem UpToDate.resolve (before : l.UpToDate) (coherent : l.Coherent entries) :
    (left Listing.resolve l).UpToDate := by
  unfold left Listing.resolve
  obtain ⟨short, o, laid, fits, _⟩ | ⟨_, refused⟩ := coherent.layout_cases
  · rw [laid]
    intro o' found
    cases found
    exact ⟨⟨fits.starts, fits.length⟩, short⟩
  · rw [refused]
    exact before

theorem UpToDate.run (before : l.UpToDate) (coherent : l.Coherent entries) (c : Command) :
    (c.run l).UpToDate := by
  -- Edits that move instructions drop all offsets when they succeed.
  have moves (c : Command) (other : c ≠ .encode)
      (drops : ∀ a m, c.edit l = .ok a m → m.offsets? = none) : (c.run l).UpToDate :=
    before.leave (fun a m done => upToDate_of_none (drops a m done)) fun e m failed =>
      eq_of_edit_error coherent other failed
  cases c with
  | append i => exact moves (.append i) nofun fun _ _ => offsets?_of_insertAt
  | insertBefore h i =>
    exact moves (.insertBefore h i) nofun fun _ _ => offsets?_of_insertBefore
  | insertAfter h i => exact moves (.insertAfter h i) nofun fun _ _ => offsets?_of_insertAfter
  | replace h i => exact moves (.replace h i) nofun fun _ _ => offsets?_of_replace
  | remove h => exact moves (.remove h) nofun fun _ _ => offsets?_of_remove
  | updateTarget branch old new =>
    exact before.leave (fun _ _ done => before.retarget (retargets_of_updateTarget done))
      fun _ _ => eq_of_updateTarget_error
  | redirectBranches old new =>
    exact before.leave (fun _ _ done => before.retarget (retargets_of_redirectBranches done))
      fun _ _ => eq_of_redirectBranches_error coherent
  | resolve => exact before.resolve coherent
  | encode =>
    change (left Listing.encode l).UpToDate
    rw [left_encode]
    exact before.resolve coherent

/-- The listings that there can be if no code with widening prefixes that are not needed, and none
that is too long, is read. -/
inductive Tracked : Listing → Prop where
  | empty (id : Nat) : Tracked (empty id)
  | decoded {id : Nat} {code : List UInt8} {l : Listing} {starts : Starts}
      (decoded : decode id code = .ok (l, starts)) (short : code.length ≤ 65535)
      (unwidened : Unwidened code) : Tracked l
  | edited {l : Listing} (c : Command) (before : Tracked l) : Tracked (c.run l)

theorem Tracked.reachable (tracked : l.Tracked) : l.Reachable := by
  induction tracked with
  | empty id => exact .empty id
  | decoded decoded _ _ => exact .decoded decoded
  | edited c _ ih => exact .edited c ih

theorem Tracked.upToDate (tracked : l.Tracked) : l.UpToDate := by
  induction tracked with
  | empty id => exact upToDate_of_none rfl
  | decoded decoded short unwidened => exact upToDate_of_decode decoded short unwidened
  | edited c before ih => exact ih.run (coherent_of_reachable before.reachable) c

/-- As long as a listing tells an offset or the length of the code, resolving offsets again succeeds
and changes neither: they are those of laying the instructions out from 0 on, one behind the
other. -/
theorem offsets_of_tracked (tracked : l.Tracked)
    (resolved : (∃ h n, l.offset? h = some n) ∨ ∃ n, l.length? = some n) :
    (∃ m, resolve l = .ok () m ∧ (∀ h, m.offset? h = l.offset? h) ∧ m.length? = l.length?) ∧
      (∀ h n, l.offset? h = some n ↔ ∃ i, (h, n, i) ∈ l.placements) ∧
      l.length? = some l.width := by
  obtain ⟨o, found⟩ : ∃ o, l.offsets? = some o := by
    cases found : l.offsets? with
    | some o => exact ⟨o, rfl⟩
    | none => simp [offset?, length?, found] at resolved
  obtain ⟨laid, short⟩ := tracked.upToDate o found
  have table (h : Handle) : l.offset? h = o.starts[h]? := by
    rw [offset?, found]
    rfl
  have total : l.length? = some o.length := by
    rw [length?, found]
    rfl
  obtain ⟨_, p, again, laid', _⟩ | ⟨long, _⟩ :=
    (coherent_of_reachable tracked.reachable).layout_cases
  · refine ⟨⟨{ l with offsets? := some p }, ?_, fun h => ?_, ?_⟩, fun h n => ?_, ?_⟩
    · unfold resolve
      rw [again]
    · rw [table]
      exact laid'.unique laid h
    · rw [total, laid.length, ← laid'.length]
      rfl
    · rw [table, laid.starts]
    · rw [total, laid.length]
  · exact absurd short (Nat.not_le_of_lt long)

theorem offsets?_run_updateTarget (branch old new : Handle) (l : Listing) :
    ((Command.updateTarget branch old new).run l).offsets? = l.offsets? := by
  change (left (updateTarget branch old new) l).offsets? = _
  unfold left
  cases run : updateTarget branch old new l with
  | ok _ m => exact (retargets_of_updateTarget run).offsets
  | error e m => exact congrArg _ (eq_of_updateTarget_error run)

theorem offsets_of_tracked_loop : ∃ l s m, decode 0 Body.loopCode.bytes = .ok (l, s) ∧
    m = (Command.updateTarget ⟨0, 1⟩ ⟨0, 0⟩ ⟨0, 1⟩).run l ∧ m.Tracked ∧ m.length? = some 5 ∧
    ∃ n, resolve m = .ok () n ∧ n.length? = some 5 := by
  obtain ⟨l, s, decoded⟩ := (exists_decode_iff 0).mpr ⟨_, Body.chain_loopCode, by decide⟩
  have unwidened : Unwidened Body.loopCode.bytes := by
    intro chain chained
    obtain rfl := chain_unique chained Body.chain_loopCode
    exact fun p member => (Body.tight_loopCode p member).narrow
  have tracked : l.Tracked := .decoded decoded (by decide) unwidened
  have total : ((Command.updateTarget ⟨0, 1⟩ ⟨0, 0⟩ ⟨0, 1⟩).run l).length? = some 5 := by
    rw [length?, offsets?_run_updateTarget]
    obtain ⟨_, _, offsets, _, _, _, rfl, length⟩ := decode_eq_ok decoded
    exact congrArg some length
  obtain ⟨⟨n, again, _, same⟩, _, _⟩ :=
    offsets_of_tracked (.edited _ tracked) (.inr ⟨5, total⟩)
  exact ⟨l, s, _, decoded, rfl, .edited _ tracked, total, n, again, same.trans total⟩

end Listing

end JvmClass
