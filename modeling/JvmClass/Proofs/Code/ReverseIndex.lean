import JvmClass.Proofs.Code.TableEdits

/-! The bodies that there can be: an empty one or one that is lifted from a code attribute,
followed by any edits of its instructions and its tables.  In all of them the index tells exactly
what points at each instruction, and neither handles nor identifiers of entries come back. -/

namespace JvmClass.Body

inductive Entry where
  | range (r : ExceptionRange)
  | scope (v : VariableScope)
  | line (n : LineEntry)

def Entry.add : Entry → Edit Nat
  | range r => addHandler r
  | scope v => addVariable v
  | line n => addLine n

inductive Command where
  | listing (c : Listing.Command)
  | add (e : Entry)
  | removeHandler (id : Nat)
  | removeVariable (id : Nat)
  | removeLine (id : Nat)
  | removeVariables
  | redirectTargeters (old new : Handle)

def Command.Result : Command → Type
  | listing c => c.Result
  | add _ => Nat
  | removeHandler _ => Option ExceptionRange
  | removeVariable _ => Option VariableScope
  | removeLine _ => Option LineEntry
  | removeVariables | redirectTargeters _ _ => Unit

def Command.edit : (c : Command) → Edit c.Result
  | listing c => onListing c.edit
  | add e => e.add
  | removeHandler id => modifyGet (Body.removeHandler id)
  | removeVariable id => modifyGet (Body.removeVariable id)
  | removeLine id => modifyGet (Body.removeLine id)
  | removeVariables => modify Body.removeVariables
  | redirectTargeters old new => Body.redirectTargeters old new

def Command.run (c : Command) : Body → Body := left c.edit

def after (b : Body) (cs : List Command) : Body := cs.foldl (fun b c => c.run b) b

inductive Reachable : Body → Prop where
  | empty (id : Nat) (maxStack maxLocals : UInt16) : Reachable (empty id maxStack maxLocals)
  | lifted {id : Nat} {p : Pool} {code : Code} {b : Body} (lifted : lift id p code = .ok b) :
      Reachable b
  | edited {b : Body} (c : Command) (before : Reachable b) : Reachable (c.run b)

variable {b c d : Body}

theorem follows_add (e : Entry) (coherent : b.Coherent) : b.Follows (left e.add b) := by
  cases e with
  | range r => exact follows_addHandler r coherent
  | scope v => exact follows_addVariable v coherent
  | line n => exact follows_addLine n coherent

theorem run_listing (c : Listing.Command) (b : Body) :
    (Command.listing c).run b = { b with listing := c.run b.listing } :=
  left_onListing c.edit b

theorem follows_run (c : Command) (coherent : b.Coherent) : b.Follows (c.run b) := by
  cases c with
  | listing c => exact follows_onListing c coherent
  | add e => exact follows_add e coherent
  | removeHandler id => exact follows_removeHandler id coherent
  | removeVariable id => exact follows_removeVariable id coherent
  | removeLine id => exact follows_removeLine id coherent
  | removeVariables => exact follows_removeVariables coherent
  | redirectTargeters old new => exact follows_redirectTargeters coherent

theorem follows_after (cs : List Command) (coherent : b.Coherent) : b.Follows (b.after cs) := by
  induction cs generalizing b with
  | nil => exact .refl coherent
  | cons c cs ih =>
    have first := follows_run c coherent
    exact first.trans (ih first.coherent)

theorem coherent_edited {e : Entry} (coherent : b.Coherent) (done : edited e.add b = .ok c) :
    c.Coherent := by
  have follows := follows_add e coherent
  unfold edited at done
  unfold left at follows
  split at done
  · rename_i run
    cases done
    rw [run] at follows
    exact follows.coherent
  · cases done

theorem coherent_liftHandler {s : Listing.Starts} {e : ExceptionEntry} (coherent : b.Coherent)
    (done : liftHandler s b e = .ok c) : c.Coherent := by
  obtain ⟨start, _, done⟩ := bind_eq_ok done
  obtain ⟨last, _, done⟩ := bind_eq_ok done
  obtain ⟨handler, _, done⟩ := bind_eq_ok done
  exact coherent_edited (e := .range _) coherent done

theorem coherent_liftLine {s : Listing.Starts} {n : LineNumber} (coherent : b.Coherent)
    (done : liftLine s b n = .ok c) : c.Coherent := by
  obtain ⟨start, _, done⟩ := bind_eq_ok done
  exact coherent_edited (e := .line _) coherent done

theorem coherent_liftVariable {s : Listing.Starts} {v : LocalVariable} (coherent : b.Coherent)
    (done : liftVariable s b v = .ok c) : c.Coherent := by
  unfold liftVariable at done
  conv at done => lhs; zeta
  split at done <;>
  · obtain ⟨last?, _, done⟩ := bind_eq_ok done
    obtain ⟨start, _, done⟩ := bind_eq_ok done
    exact coherent_edited (e := .scope _) coherent done

theorem coherent_liftAttribute {s : Listing.Starts} {p : Pool} {a : Attribute}
    (coherent : b.Coherent) (done : liftAttribute p s b a = .ok c) : c.Coherent := by
  obtain ⟨title, _, done⟩ := bind_eq_ok done
  split at done
  · obtain ⟨table, _, done⟩ := bind_eq_ok done
    exact foldlM_preserves (fun _ _ _ => coherent_liftLine) coherent done
  · split at done
    · obtain ⟨table, _, done⟩ := bind_eq_ok done
      exact foldlM_preserves (fun _ _ _ => coherent_liftVariable) coherent done
    · split at done
      · cases done
        exact coherent
      · cases done
        exact ⟨coherent.listing, coherent.given, coherent.distinct⟩

theorem coherent_lift {id : Nat} {p : Pool} {code : Code} (lifted : lift id p code = .ok b) :
    b.Coherent := by
  obtain ⟨⟨listing, starts⟩, decoded, lifted⟩ := bind_eq_ok lifted
  obtain ⟨c, handlers, lifted⟩ := bind_eq_ok lifted
  have decoded : Listing.decode id code.bytes = .ok (listing, starts) := by
    cases run : Listing.decode id code.bytes with
    | error e => rw [run] at decoded; cases decoded
    | ok r => rw [run] at decoded; cases decoded; rfl
  have start :
      ({ empty id code.maxStack code.maxLocals with listing := listing } : Body).Coherent := by
    refine coherent_of_no_entries (fun t => ?_) (Listing.coherent_decode decoded)
    cases t <;> simp [entries, empty]
  have middle := foldlM_preserves (fun _ _ _ => coherent_liftHandler) start handlers
  exact foldlM_preserves (fun _ _ _ => coherent_liftAttribute) middle lifted

theorem coherent_of_reachable (reachable : b.Reachable) : b.Coherent := by
  induction reachable with
  | empty id maxStack maxLocals => exact coherent_empty id maxStack maxLocals
  | lifted lifted => exact coherent_lift lifted
  | edited c _ ih => exact (follows_run c ih).coherent

/-- The order and the index of a body tell exactly what is there. -/
structure Exact (b : Body) : Prop where
  nodup : b.listing.order.toList.Nodup
  stored : ∀ h, h ∈ b.listing.order.toList ↔ ∃ i, b.listing.get? h = some i
  branches : ∀ h i, b.listing.get? h = some i → ∀ t ∈ i.targets, b.listing.contains t
  handlers : ∀ (id : Nat) (r : ExceptionRange), b.handlers[id]? = some r →
    b.listing.contains r.start ∧ b.listing.contains r.last ∧ b.listing.contains r.handler
  scopes : ∀ (id : Nat) (v : VariableScope), b.scopes[id]? = some v →
    b.listing.contains v.start ∧ ∀ last, v.last? = some last → b.listing.contains last
  lines : ∀ (id : Nat) (n : LineEntry), b.lines[id]? = some n → b.listing.contains n.start
  once : ∀ h, (b.listing.targetersOf h).Nodup
  instruction : ∀ h k, .instruction k ∈ b.listing.targetersOf h ↔
    ∃ i, b.listing.get? k = some i ∧ h ∈ i.targets
  exceptionHandler : ∀ h (id : Nat), .exceptionHandler id ∈ b.listing.targetersOf h ↔
    ∃ r : ExceptionRange, b.handlers[id]? = some r ∧ (h = r.start ∨ h = r.last ∨ h = r.handler)
  localVariable : ∀ h (id : Nat), .localVariable id ∈ b.listing.targetersOf h ↔
    ∃ v : VariableScope, b.scopes[id]? = some v ∧ (h = v.start ∨ v.last? = some h)
  lineNumber : ∀ h (id : Nat), .lineNumber id ∈ b.listing.targetersOf h ↔
    ∃ n : LineEntry, b.lines[id]? = some n ∧ h = n.start

theorem Coherent.exact (coherent : b.Coherent) : b.Exact := by
  have pointed (t : Targeter) (h : Handle) :=
    coherent.listing.mem_targetersOf_iff (h := h) (t := t)
  have known : ∀ t h, t ∈ b.listing.targetersOf h → b.listing.contains h := fun t h member =>
    coherent.listing.known t h ((pointed t h).mp member)
  have branch : ∀ h k, .instruction k ∈ b.listing.targetersOf h ↔
      ∃ i, b.listing.get? k = some i ∧ h ∈ i.targets := by
    intro h k
    rw [pointed, Listing.mentions_instruction]
    cases b.listing.get? k <;> simp
  have range : ∀ h (id : Nat), .exceptionHandler id ∈ b.listing.targetersOf h ↔
      ∃ r : ExceptionRange, b.handlers[id]? = some r ∧
        (h = r.start ∨ h = r.last ∨ h = r.handler) := by
    intro h id
    rw [pointed, mentions_exceptionHandler]
    cases b.handlers[id]? <;> simp [ExceptionRange.handles]
  have scope : ∀ h (id : Nat), .localVariable id ∈ b.listing.targetersOf h ↔
      ∃ v : VariableScope, b.scopes[id]? = some v ∧ (h = v.start ∨ v.last? = some h) := by
    intro h id
    rw [pointed, mentions_localVariable]
    cases b.scopes[id]? <;> simp [VariableScope.handles]
  have line : ∀ h (id : Nat), .lineNumber id ∈ b.listing.targetersOf h ↔
      ∃ n : LineEntry, b.lines[id]? = some n ∧ h = n.start := by
    intro h id
    rw [pointed, mentions_lineNumber]
    cases b.lines[id]? <;> simp
  exact {
    nodup := coherent.listing.nodup
    stored := fun h => (coherent.listing.stored h).trans Listing.contains_iff
    branches := fun h i found t target => known _ t ((branch t h).mpr ⟨i, found, target⟩)
    handlers := fun id r found =>
      ⟨known _ _ ((range _ id).mpr ⟨r, found, .inl rfl⟩),
        known _ _ ((range _ id).mpr ⟨r, found, .inr (.inl rfl)⟩),
        known _ _ ((range _ id).mpr ⟨r, found, .inr (.inr rfl)⟩)⟩
    scopes := fun id v found =>
      ⟨known _ _ ((scope _ id).mpr ⟨v, found, .inl rfl⟩),
        fun last same => known _ _ ((scope _ id).mpr ⟨v, found, .inr same⟩)⟩
    lines := fun id n found => known _ _ ((line _ id).mpr ⟨n, found, rfl⟩)
    once := b.listing.nodup_targetersOf
    instruction := branch
    exceptionHandler := range
    localVariable := scope
    lineNumber := line }

theorem enter_eq_ok {hs : List Handle} {make : Nat → Targeter} {store : Nat → Body → Body}
    {id : Nat} (run : enter hs make store b = .ok id c) : id = b.fresh := by
  obtain ⟨e, failed⟩ | ⟨_, done⟩ := enter_cases hs make store b
  · rw [failed] at run
    cases run
  · rw [done] at run
    cases run
    rfl

theorem checked_eq_ok {check : Except Error Unit} {edit : Edit Nat} {id : Nat}
    (run : (liftExcept check >>= fun _ => edit) b = .ok id c) : edit b = .ok id c := by
  cases check with
  | ok _ => exact run
  | error e => cases run

theorem add_eq_ok {e : Entry} {id : Nat} (added : e.add b = .ok id c) : id = b.fresh := by
  cases e with
  | range r =>
    have run : enter r.handles .exceptionHandler (storeHandler r) b = .ok id c :=
      checked_eq_ok added
    exact enter_eq_ok run
  | scope v =>
    have run : enter v.handles .localVariable (storeVariable v) b = .ok id c := by
      change addVariable v b = .ok id c at added
      unfold addVariable at added
      cases last : v.last? with
      | none =>
        rw [last] at added
        exact added
      | some last' =>
        rw [last] at added
        exact checked_eq_ok added
    exact enter_eq_ok run
  | line n =>
    have run : enter [n.start] .lineNumber (storeLine n) b = .ok id c := added
    exact enter_eq_ok run

/-- Whatever edits come after, what is taken out stays out, and what is added is new. -/
structure NeverReuses (b : Body) : Prop where
  handle : ∀ cs ds h, b.listing.contains h → ¬ (b.after cs).listing.contains h →
    ¬ ((b.after cs).after ds).listing.contains h
  entry : ∀ cs ds t, b.HasEntry t → ¬ (b.after cs).HasEntry t →
    ¬ ((b.after cs).after ds).HasEntry t
  added : ∀ cs (e : Entry) id c, e.add (b.after cs) = .ok id c → ∀ t, b.HasEntry t → t.number ≠ id
  distinct : ∀ t u, b.HasEntry t → b.HasEntry u → t.number = u.number → t = u

theorem Coherent.neverReuses (coherent : b.Coherent) : b.NeverReuses where
  handle cs ds _ := by
    have first := follows_after cs coherent
    have second := follows_after ds first.coherent
    exact coherent.listing.gone first.continues.listing second.continues.listing
  entry cs ds _ := by
    have first := follows_after cs coherent
    have second := follows_after ds first.coherent
    exact coherent.gone first.continues second.continues
  added cs e id c added t present := by
    have bound := coherent.given t present
    have more := (follows_after cs coherent).continues.fresh
    have same := add_eq_ok added
    omega
  distinct := coherent.distinct

theorem exact_of_reachable (reachable : b.Reachable) : b.Exact ∧ b.NeverReuses :=
  ⟨(coherent_of_reachable reachable).exact, (coherent_of_reachable reachable).neverReuses⟩

theorem reachable_after (cs : List Command) (reachable : b.Reachable) :
    (b.after cs).Reachable := by
  induction cs generalizing b with
  | nil => exact reachable
  | cons c cs ih => exact ih (.edited c reachable)

def guardedLoop : Body := (empty 0 1 1).after [
  .listing (.append (.bipush 1)),
  .listing (.append (.branch .goto ⟨0, 0⟩)),
  .add (.range ⟨⟨0, 0⟩, ⟨0, 1⟩, ⟨0, 0⟩, none⟩)]

theorem exact_guardedLoop :
    guardedLoop.Reachable ∧ guardedLoop.Exact ∧ guardedLoop.NeverReuses :=
  have reachable := reachable_after _ (.empty 0 1 1)
  ⟨reachable, exact_of_reachable reachable⟩

end JvmClass.Body
