import JvmClass.Proofs.Code.Entries

/-! Every edit of the tables of a body leaves it coherent.  The three ways of adding an entry are
one edit with another targeter and another table, and the same goes for taking one out and for
moving one over to another handle. -/

namespace JvmClass.Body

open Listing (pointing unpointing)

variable {b c : Body} {t u : Targeter} {h k : Handle} {id : Nat} {hs : List Handle}

theorem onListing_eq {α : Type} (edit : Listing.Edit α) (b : Body) :
    onListing edit b =
      match edit b.listing with
      | .ok a l => .ok a { b with listing := l }
      | .error e l => .error e { b with listing := l } := rfl

theorem left_onListing {α : Type} (edit : Listing.Edit α) (b : Body) :
    left (onListing edit) b = { b with listing := left edit b.listing } := by
  unfold left
  rw [onListing_eq]
  cases edit b.listing <;> rfl

theorem entries_setListing (b : Body) (l : Listing) :
    ({ b with listing := l } : Body).entries = b.entries := by
  funext t
  cases t <;> rfl

theorem Coherent.setListing {l : Listing} (coherent : b.Coherent)
    (follows : Listing.Follows b.entries b.listing l) : b.Follows { b with listing := l } := by
  have same : ∀ t, ({ b with listing := l } : Body).HasEntry t ↔ b.HasEntry t := by
    intro t
    rw [HasEntry, HasEntry, entries_setListing]
  refine ⟨⟨?_, ?_, ?_⟩, follows.continues, Nat.le_refl _, ?_⟩
  · rw [entries_setListing]
    exact follows.coherent
  · intro t present
    exact coherent.given t ((same t).mp present)
  · intro t u first second
    exact coherent.distinct t u ((same t).mp first) ((same u).mp second)
  · intro t present absent
    exact absurd ((same t).mp present) absent

theorem follows_onListing (c : Listing.Command) (coherent : b.Coherent) :
    b.Follows (left (onListing c.edit) b) := by
  rw [left_onListing]
  exact coherent.setListing (Listing.follows_run c coherent.listing)

theorem foldl_point (hs : List Handle) (t : Targeter) (l : Listing) :
    hs.foldl (fun l h => l.point t h) l =
      { l with targeters := hs.foldl (pointing t) l.targeters } := by
  induction hs generalizing l with
  | nil => rfl
  | cons h hs ih => exact ih (l.point t h)

theorem unregister_eq (hs : List Handle) (t : Targeter) (l : Listing) :
    unregister hs t l = { l with targeters := hs.foldl (unpointing t) l.targeters } := by
  unfold unregister
  induction hs generalizing l with
  | nil => rfl
  | cons h hs ih => exact ih (l.unpoint t h)

theorem register_eq (hs : List Handle) (t : Targeter) (b : Body) :
    register hs t b =
      match hs.find? fun h => !b.listing.contains h with
      | some h => .error (.unknownHandle h) b
      | none =>
        let index := hs.foldl (pointing t) b.listing.targeters
        .ok () { b with listing := { b.listing with targeters := index } } := by
  refine (onListing_eq _ b).trans ?_
  cases hs.find? fun h => !b.listing.contains h with
  | some h => rfl
  | none =>
    dsimp only
    rw [foldl_point]

/-- The end of adding an entry, which is the same for all tables. -/
def enter (hs : List Handle) (make : Nat → Targeter) (store : Nat → Body → Body) : Edit Nat := do
  let id ← freshId
  register hs (make id)
  modify (store id)
  return id

def spent (b : Body) : Body := { b with fresh := b.fresh + 1 }

def entered (hs : List Handle) (t : Targeter) (b : Body) : Body :=
  { b with
    listing := { b.listing with targeters := hs.foldl (pointing t) b.listing.targeters }
    fresh := b.fresh + 1 }

theorem enter_eq (hs : List Handle) (make : Nat → Targeter) (store : Nat → Body → Body)
    (b : Body) : enter hs make store b =
      match register hs (make b.fresh) b.spent with
      | .ok _ c => .ok b.fresh (store b.fresh c)
      | .error e c => .error e c := by
  change EStateM.bind (register hs (make b.fresh))
    (fun _ => modify (store b.fresh) >>= fun _ => pure b.fresh) b.spent = _
  unfold EStateM.bind
  cases register hs (make b.fresh) b.spent <;> rfl

theorem enter_cases (hs : List Handle) (make : Nat → Targeter) (store : Nat → Body → Body)
    (b : Body) : (∃ e, enter hs make store b = .error e b.spent) ∨
      (∀ h ∈ hs, b.listing.contains h) ∧
        enter hs make store b = .ok b.fresh (store b.fresh (entered hs (make b.fresh) b)) := by
  have run : enter hs make store b =
      match hs.find? fun h => !b.listing.contains h with
      | some h => .error (.unknownHandle h) b.spent
      | none => .ok b.fresh (store b.fresh (entered hs (make b.fresh) b)) := by
    rw [enter_eq, register_eq]
    change (match (match hs.find? fun h => !b.listing.contains h with
      | some h => .error (.unknownHandle h) b.spent
      | none => .ok () (entered hs (make b.fresh) b) : EStateM.Result Error Body Unit) with
      | .ok _ c => .ok b.fresh (store b.fresh c)
      | .error e c => .error e c : EStateM.Result Error Body Nat) = _
    cases hs.find? fun h => !b.listing.contains h <;> rfl
  cases missing : hs.find? fun h => !b.listing.contains h with
  | some h =>
    rw [missing] at run
    exact .inl ⟨_, run⟩
  | none =>
    rw [missing] at run
    exact .inr ⟨by simpa using missing, run⟩

theorem follows_spent (coherent : b.Coherent) : b.Follows b.spent where
  coherent := {
    listing := coherent.listing
    given := fun t present => Nat.lt_succ_of_lt (coherent.given t present)
    distinct := coherent.distinct }
  continues := ⟨.refl _, Nat.le_succ _, fun _ present absent => absurd present absent⟩

theorem follows_enter {make : Nat → Targeter} {store : Nat → Body → Body} (coherent : b.Coherent)
    (entry : ∀ id h, make id ≠ .instruction h) (number : ∀ id, (make id).number = id)
    (listing : ∀ id c, (store id c).listing = c.listing)
    (fresh : ∀ id c, (store id c).fresh = c.fresh)
    (entries : ∀ id c u, (store id c).entries u = if u = make id then hs else c.entries u) :
    b.Follows (left (enter hs make store) b) := by
  unfold left
  obtain ⟨e, run⟩ | ⟨known, run⟩ := enter_cases hs make store b
  · rw [run]
    exact follows_spent coherent
  · rw [run]
    have absent : b.entries (make b.fresh) = [] := by
      refine Classical.byContradiction fun present => ?_
      have := coherent.given _ present
      rw [number] at this
      omega
    have count : (store b.fresh (entered hs (make b.fresh) b)).fresh = b.fresh + 1 := fresh _ _
    have assigns : Assigns b (store b.fresh (entered hs (make b.fresh) b)) (make b.fresh) hs := {
      entry := entry b.fresh
      entries := entries b.fresh (entered hs (make b.fresh) b)
      fresh := count ▸ Nat.le_succ _
      made := fun _ => .inr ⟨number _, count ▸ Nat.lt_succ_self _⟩ }
    refine coherent.assign assigns (listing _ _) (fun u k => ?_) known
    rw [Listing.points_foldl_pointing]
    split
    · rename_i same
      subst same
      have nothing : ¬ Listing.Points b.listing.targeters (make b.fresh) k := by
        rw [coherent.listing.index, mentions_entries (entry b.fresh), absent]
        exact List.not_mem_nil
      simp [nothing]
    · rename_i different
      simp [different]

def storeHandler (r : ExceptionRange) (id : Nat) (b : Body) : Body :=
  { b with handlers := b.handlers.insert id r }

def storeVariable (v : VariableScope) (id : Nat) (b : Body) : Body :=
  { b with scopes := b.scopes.insert id v }

def storeLine (n : LineEntry) (id : Nat) (b : Body) : Body :=
  { b with lines := b.lines.insert id n }

theorem entries_storeHandler (r : ExceptionRange) (id : Nat) (b : Body) (u : Targeter) :
    (storeHandler r id b).entries u =
      if u = .exceptionHandler id then r.handles else b.entries u := by
  cases u with
  | exceptionHandler k =>
    rw [entries_exceptionHandler, storeHandler, Std.TreeMap.getElem?_insert]
    by_cases same : id = k
    · simp [same]
    · simp [same, Ne.symm same, entries_exceptionHandler]
  | _ => rfl

theorem entries_storeVariable (v : VariableScope) (id : Nat) (b : Body) (u : Targeter) :
    (storeVariable v id b).entries u =
      if u = .localVariable id then v.handles else b.entries u := by
  cases u with
  | localVariable k =>
    rw [entries_localVariable, storeVariable, Std.TreeMap.getElem?_insert]
    by_cases same : id = k
    · simp [same]
    · simp [same, Ne.symm same, entries_localVariable]
  | _ => rfl

theorem entries_storeLine (n : LineEntry) (id : Nat) (b : Body) (u : Targeter) :
    (storeLine n id b).entries u = if u = .lineNumber id then [n.start] else b.entries u := by
  cases u with
  | lineNumber k =>
    rw [entries_lineNumber, storeLine, Std.TreeMap.getElem?_insert]
    by_cases same : id = k
    · simp [same]
    · simp [same, Ne.symm same, entries_lineNumber]
  | _ => rfl

theorem follows_checked {check : Except Error Unit} {edit : Edit Nat} (coherent : b.Coherent)
    (follows : b.Follows (left edit b)) :
    b.Follows (left (liftExcept check >>= fun _ => edit) b) := by
  cases check with
  | ok _ => exact follows
  | error e => exact .refl coherent

theorem follows_addHandler (r : ExceptionRange) (coherent : b.Coherent) :
    b.Follows (left (addHandler r) b) :=
  follows_checked coherent (follows_enter coherent (fun _ _ => nofun) (fun _ => rfl)
    (fun _ _ => rfl) (fun _ _ => rfl) (entries_storeHandler r))

theorem follows_addVariable (v : VariableScope) (coherent : b.Coherent) :
    b.Follows (left (addVariable v) b) := by
  have follows : b.Follows (left (enter v.handles .localVariable (storeVariable v)) b) :=
    follows_enter coherent (fun _ _ => nofun) (fun _ => rfl) (fun _ _ => rfl) (fun _ _ => rfl)
      (entries_storeVariable v)
  unfold addVariable
  cases v.last? with
  | none => exact follows
  | some last => exact follows_checked coherent follows

theorem follows_addLine (n : LineEntry) (coherent : b.Coherent) :
    b.Follows (left (addLine n) b) :=
  follows_enter coherent (fun _ _ => nofun) (fun _ => rfl) (fun _ _ => rfl) (fun _ _ => rfl)
    (entries_storeLine n)

theorem follows_withdraw (coherent : b.Coherent) (entry : ∀ h, t ≠ .instruction h)
    (listing : c.listing = unregister (b.entries t) t b.listing) (fresh : c.fresh = b.fresh)
    (entries : ∀ u, c.entries u = if u = t then [] else b.entries u) : b.Follows c := by
  rw [unregister_eq] at listing
  have assigns : Assigns b c t [] :=
    ⟨entry, entries, Nat.le_of_eq fresh.symm, fun present => absurd rfl present⟩
  have none : ∀ h ∈ [], b.listing.contains h := fun h member => absurd member List.not_mem_nil
  refine coherent.assign assigns listing (fun u k => ?_) none
  rw [Listing.points_foldl_unpointing, coherent.listing.index]
  split
  · rename_i same
    subst same
    simp [mentions_entries entry]
  · rename_i different
    simp [different]

theorem follows_removeHandler (id : Nat) (coherent : b.Coherent) :
    b.Follows (removeHandler id b).2 := by
  unfold removeHandler
  cases found : b.handlers[id]? with
  | none => exact .refl coherent
  | some r =>
    have mentioned : b.entries (.exceptionHandler id) = r.handles := by
      rw [entries_exceptionHandler, found, Option.elim_some]
    refine follows_withdraw (t := .exceptionHandler id) coherent nofun (mentioned ▸ rfl) rfl ?_
    intro u
    cases u with
    | exceptionHandler k =>
      rw [entries_exceptionHandler, Std.TreeMap.getElem?_erase]
      by_cases same : id = k
      · simp [same]
      · simp [same, Ne.symm same, entries_exceptionHandler]
    | _ => rfl

theorem follows_removeVariable (id : Nat) (coherent : b.Coherent) :
    b.Follows (removeVariable id b).2 := by
  unfold removeVariable
  cases found : b.scopes[id]? with
  | none => exact .refl coherent
  | some v =>
    have mentioned : b.entries (.localVariable id) = v.handles := by
      rw [entries_localVariable, found, Option.elim_some]
    refine follows_withdraw (t := .localVariable id) coherent nofun (mentioned ▸ rfl) rfl ?_
    intro u
    cases u with
    | localVariable k =>
      rw [entries_localVariable, Std.TreeMap.getElem?_erase]
      by_cases same : id = k
      · simp [same]
      · simp [same, Ne.symm same, entries_localVariable]
    | _ => rfl

theorem follows_removeLine (id : Nat) (coherent : b.Coherent) :
    b.Follows (removeLine id b).2 := by
  unfold removeLine
  cases found : b.lines[id]? with
  | none => exact .refl coherent
  | some n =>
    have mentioned : b.entries (.lineNumber id) = [n.start] := by
      rw [entries_lineNumber, found, Option.elim_some]
    refine follows_withdraw (t := .lineNumber id) coherent nofun (mentioned ▸ rfl) rfl ?_
    intro u
    cases u with
    | lineNumber k =>
      rw [entries_lineNumber, Std.TreeMap.getElem?_erase]
      by_cases same : id = k
      · simp [same]
      · simp [same, Ne.symm same, entries_lineNumber]
    | _ => rfl

theorem follows_removeVariables (coherent : b.Coherent) : b.Follows b.removeVariables := by
  unfold removeVariables
  generalize b.scopes.keys = ids
  induction ids generalizing b with
  | nil => exact .refl coherent
  | cons id ids ih =>
    have first := follows_removeVariable id coherent
    exact first.trans (ih first.coherent)

/-- A later state in which `old` gave way to `new` in what one targeter mentions. -/
structure Moves (old new : Handle) (t : Targeter) (b c : Body) : Prop where
  follows : b.Follows c
  contains : ∀ h, c.listing.contains h ↔ b.listing.contains h
  mentions : ∀ u, c.listing.mentions c.entries u =
    if u = t then (b.listing.mentions b.entries u).map (Listing.swapHandle old new)
    else b.listing.mentions b.entries u

variable {old new : Handle}

theorem moves_updateTarget (coherent : b.Coherent) (known : b.listing.contains new)
    (mentioned : old ∈ b.listing.mentions b.entries (.instruction h)) :
    ∃ c, onListing (Listing.updateTarget h old new) b = .ok () c ∧
      Moves old new (.instruction h) b c := by
  obtain ⟨l, run, follows, contains, mentions⟩ :=
    Listing.updateTarget_eq_ok coherent.listing known mentioned
  refine ⟨{ b with listing := l }, ?_, coherent.setListing follows, contains, ?_⟩
  · rw [onListing_eq, run]
  · rw [entries_setListing]
    exact mentions

theorem moves_entry (coherent : b.Coherent) (entry : ∀ h, t ≠ .instruction h)
    (known : b.listing.contains new) (mentioned : old ∈ b.entries t)
    (listing : c.listing = (b.listing.unpoint t old).point t new) (fresh : c.fresh = b.fresh)
    (entries : ∀ u, c.entries u =
      if u = t then (b.entries t).map (Listing.swapHandle old new) else b.entries u) :
    Moves old new t b c where
  follows := by
    have assigns : Assigns b c t ((b.entries t).map (Listing.swapHandle old new)) :=
      ⟨entry, entries, Nat.le_of_eq fresh.symm, fun _ => .inl (List.ne_nil_of_mem mentioned)⟩
    refine coherent.assign assigns listing ?_ ?_
    · intro u k
      rw [Listing.points_pointing, Listing.points_unpointing, Listing.mem_map_swapHandle mentioned,
        coherent.listing.index]
      split
      · rename_i same
        subst same
        simp [mentions_entries entry]
      · rename_i different
        simp [different]
    · intro k member
      obtain ⟨member, _⟩ | rfl := (Listing.mem_map_swapHandle mentioned).mp member
      · exact coherent.listing.known t k (by rwa [mentions_entries entry])
      · exact known
  contains h := by rw [listing]; rfl
  mentions u := by
    by_cases instruction : ∃ h, u = .instruction h
    · obtain ⟨h, rfl⟩ := instruction
      rw [if_neg (entry h).symm, Listing.mentions_instruction, Listing.mentions_instruction,
        listing]
      rfl
    · have other : ∀ h, u ≠ .instruction h := fun h same => instruction ⟨h, same⟩
      rw [mentions_entries other, mentions_entries other, entries]
      split
      · rename_i same
        rw [same]
      · rfl

theorem moves_redirectOne (coherent : b.Coherent) (known : b.listing.contains new)
    (mentioned : old ∈ b.listing.mentions b.entries t) :
    ∃ c, redirectOne old new t b = .ok () c ∧ Moves old new t b c := by
  cases t with
  | instruction h => exact moves_updateTarget coherent known mentioned
  | exceptionHandler id =>
    refine ⟨_, rfl, moves_entry coherent (fun _ => Targeter.noConfusion) known mentioned rfl rfl fun u => ?_⟩
    cases u with
    | exceptionHandler k =>
      rw [entries_exceptionHandler, Std.TreeMap.getElem?_modify]
      by_cases same : id = k
      · subst same
        cases found : b.handlers[id]? <;>
          simp [found, entries_exceptionHandler, ExceptionRange.handles, ExceptionRange.map]
      · simp [same, Ne.symm same, entries_exceptionHandler]
    | _ => rfl
  | localVariable id =>
    refine ⟨_, rfl, moves_entry coherent (fun _ => Targeter.noConfusion) known mentioned rfl rfl fun u => ?_⟩
    cases u with
    | localVariable k =>
      rw [entries_localVariable, Std.TreeMap.getElem?_modify]
      by_cases same : id = k
      · subst same
        cases found : b.scopes[id]? with
        | none => simp [found, entries_localVariable]
        | some v =>
          cases last : v.last? <;>
            simp [found, entries_localVariable, VariableScope.handles, VariableScope.map, last]
      · simp [same, Ne.symm same, entries_localVariable]
    | _ => rfl
  | lineNumber id =>
    refine ⟨_, rfl, moves_entry coherent (fun _ => Targeter.noConfusion) known mentioned rfl rfl fun u => ?_⟩
    cases u with
    | lineNumber k =>
      rw [entries_lineNumber, Std.TreeMap.getElem?_modify]
      by_cases same : id = k
      · subst same
        change old ∈ (b.lines[id]?).elim [] fun n => [n.start] at mentioned
        cases found : b.lines[id]? with
        | none => simp [found, entries_lineNumber]
        | some n =>
          rw [found] at mentioned
          have start : n.start = old := (List.mem_singleton.mp mentioned).symm
          simp [found, entries_lineNumber, Listing.swapHandle, start]
      · simp [same, Ne.symm same, entries_lineNumber]
    | _ => rfl

/-- Moving over the targeters of a list one by one: those that are still to come go on mentioning
`old`. -/
theorem forM_redirectOne {ts : List Targeter} (nodup : ts.Nodup) (coherent : b.Coherent)
    (known : b.listing.contains new) (mentioned : ∀ t ∈ ts, old ∈ b.listing.mentions b.entries t) :
    ∃ c, ts.forM (redirectOne old new) b = .ok () c ∧ b.Follows c ∧
      ∀ u, c.listing.mentions c.entries u =
        if u ∈ ts then (b.listing.mentions b.entries u).map (Listing.swapHandle old new)
        else b.listing.mentions b.entries u := by
  induction ts generalizing b with
  | nil => exact ⟨b, rfl, .refl coherent, fun u => by simp⟩
  | cons t ts ih =>
    obtain ⟨apart, nodup⟩ := List.nodup_cons.mp nodup
    obtain ⟨c, first, moves⟩ := moves_redirectOne coherent known (mentioned t List.mem_cons_self)
    have later : ∀ u ∈ ts, old ∈ c.listing.mentions c.entries u := by
      intro u member
      have other : u ≠ t := fun same => apart (same ▸ member)
      rw [moves.mentions, if_neg other]
      exact mentioned u (List.mem_cons_of_mem t member)
    obtain ⟨d, others, follows, mentions⟩ :=
      ih nodup moves.follows.coherent ((moves.contains new).mpr known) later
    refine ⟨d, ?_, moves.follows.trans follows, ?_⟩
    · change EStateM.bind (redirectOne old new t) (fun _ => ts.forM (redirectOne old new)) b = _
      unfold EStateM.bind
      rw [first]
      exact others
    · intro u
      rw [mentions, moves.mentions]
      by_cases same : u = t
      · subst same
        simp [apart]
      · simp [same]

theorem redirectTargeters_eq_ok (coherent : b.Coherent) (known : b.listing.contains new)
    (different : old ≠ new) :
    ∃ c, redirectTargeters old new b = .ok () c ∧ b.Follows c ∧
      ∀ u, c.listing.mentions c.entries u =
        (b.listing.mentions b.entries u).map (Listing.swapHandle old new) := by
  have pointed (t : Targeter) := coherent.listing.mem_targetersOf_iff (h := old) (t := t)
  obtain ⟨c, run, follows, mentions⟩ := forM_redirectOne (b.listing.nodup_targetersOf old) coherent
    known fun t member => (pointed t).mp member
  refine ⟨c, ?_, follows, ?_⟩
  · unfold redirectTargeters
    rw [if_pos known, if_neg different]
    exact run
  · intro u
    rw [mentions]
    split
    · rfl
    · rename_i absent
      rw [pointed] at absent
      exact (Listing.map_swapHandle_of_not_mem absent).symm

theorem follows_redirectTargeters (coherent : b.Coherent) :
    b.Follows (left (redirectTargeters old new) b) := by
  by_cases known : b.listing.contains new
  · by_cases same : old = new
    · have stays : left (redirectTargeters old new) b = b := by
        unfold left redirectTargeters
        rw [if_pos known, if_pos same]
      rw [stays]
      exact .refl coherent
    · obtain ⟨c, run, follows, _⟩ := redirectTargeters_eq_ok coherent known same
      unfold left
      rw [run]
      exact follows
  · have stays : left (redirectTargeters old new) b = b := by
      unfold left redirectTargeters
      rw [if_neg known]
    rw [stays]
    exact .refl coherent

end JvmClass.Body
