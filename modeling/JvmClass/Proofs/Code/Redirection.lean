import JvmClass.Proofs.Code.ReverseIndex

/-! What redirecting does to a body as a whole.  Instructions and table entries are items that point
at handles.  One step of redirecting gives one item the new handle in the place of the old one, and
leaves the other items and the order of the instructions alone.  The items that point at the old
handle are just its targeters, so that nothing points at it when all steps are done. -/

namespace JvmClass

namespace Listing

theorem swapHandle_self (old h : Handle) : swapHandle old old h = h := by
  unfold swapHandle
  split
  · exact Eq.symm ‹_›
  · rfl

end Listing

namespace Body

variable {b c d : Body} {t u : Targeter} {old new : Handle} {ts : List Targeter}

inductive Item where
  | instruction (i : Instruction Handle)
  | range (r : ExceptionRange)
  | scope (v : VariableScope)
  | line (start : Handle) (number : UInt16)

namespace Item

def handles : Item → List Handle
  | instruction i => i.targets
  | range r => r.handles
  | scope v => v.handles
  | line start _ => [start]

def map (f : Handle → Handle) : Item → Item
  | instruction i => instruction (i.map f)
  | range r => range (r.map f)
  | scope v => scope (v.map f)
  | line start number => line (f start) number

theorem map_of_fixed {f : Handle → Handle} {x : Item} (fixed : ∀ h ∈ x.handles, f h = h) :
    x.map f = x := by
  cases x with
  | instruction i => exact congrArg instruction ((Instruction.map_congr fixed).trans i.map_id)
  | range r =>
    obtain ⟨start, last, handler, catches⟩ := r
    have first := fixed start (by simp [handles, ExceptionRange.handles])
    have second := fixed last (by simp [handles, ExceptionRange.handles])
    have third := fixed handler (by simp [handles, ExceptionRange.handles])
    simp only [map, ExceptionRange.map, first, second, third]
  | scope v =>
    obtain ⟨start, last?, name, descriptor, slot⟩ := v
    have first := fixed start (by simp [handles, VariableScope.handles])
    cases last? with
    | none => simp only [map, VariableScope.map, first, Option.map_none]
    | some last =>
      have second := fixed last (by simp [handles, VariableScope.handles])
      simp only [map, VariableScope.map, first, second, Option.map_some]
  | line start number => simp only [map, fixed start (by simp [handles])]

end Item

def item? (b : Body) : Targeter → Option Item
  | .instruction h => (b.listing.get? h).map .instruction
  | .exceptionHandler id => (b.handlers[id]?).map .range
  | .localVariable id => (b.scopes[id]?).map .scope
  | .lineNumber id => (b.lines[id]?).map fun n => .line n.start n.line

theorem mentions_item (b : Body) (t : Targeter) :
    b.listing.mentions b.entries t = (b.item? t).elim [] Item.handles := by
  cases t with
  | instruction h =>
    rw [Listing.mentions_instruction, item?]
    cases b.listing.get? h <;> rfl
  | exceptionHandler id =>
    rw [mentions_exceptionHandler, item?]
    cases b.handlers[id]? <;> rfl
  | localVariable id =>
    rw [mentions_localVariable, item?]
    cases b.scopes[id]? <;> rfl
  | lineNumber id =>
    rw [mentions_lineNumber, item?]
    cases b.lines[id]? <;> rfl

/-- From `b` to `c` the items of some targeters get `new` in the place of `old`, and all else that
can be seen of a body stays as it is. -/
structure Swaps (old new : Handle) (these : Targeter → Prop) (b c : Body) : Prop where
  swapped : ∀ u, these u → c.item? u = (b.item? u).map (Item.map (Listing.swapHandle old new))
  others : ∀ u, ¬ these u → c.item? u = b.item? u
  order : c.listing.order = b.listing.order
  offsets : c.listing.offsets? = b.listing.offsets?
  attributes : c.attributes = b.attributes
  maxStack : c.maxStack = b.maxStack
  maxLocals : c.maxLocals = b.maxLocals

abbrev Redirected (old new : Handle) (b c : Body) : Prop := Swaps old new (fun _ => True) b c

theorem swaps_updateTarget {branch : Handle} {l : Listing}
    (done : Listing.updateTarget branch old new b.listing = .ok () l) :
    Swaps old new (· = .instruction branch) b { b with listing := l } := by
  unfold Listing.updateTarget at done
  split at done
  · split at done
    · cases done
    · rename_i i found
      split at done
      · cases done
        refine ⟨?_, ?_, rfl, rfl, rfl, rfl, rfl⟩
        · rintro u rfl
          rw [item?, item?, found, Listing.get?, Std.HashMap.getElem?_insert_self]
          rfl
        · rintro (h | id | id | id) other
          · have different : branch ≠ h := fun same => other (same ▸ rfl)
            rw [item?, item?, Listing.get?, Std.HashMap.getElem?_insert, beq_false_of_ne different]
            rfl
          all_goals rfl
      · cases done
  · cases done

theorem swaps_redirectOne (mentioned : old ∈ b.listing.mentions b.entries t)
    (done : redirectOne old new t b = .ok () c) : Swaps old new (· = t) b c := by
  cases t with
  | instruction h =>
    change onListing (Listing.updateTarget h old new) b = .ok () c at done
    rw [onListing_eq] at done
    split at done
    · rename_i run
      cases done
      exact swaps_updateTarget run
    · cases done
  | exceptionHandler id =>
    cases done
    refine ⟨?_, ?_, rfl, rfl, rfl, rfl, rfl⟩
    · rintro u rfl
      simp only [item?, Std.TreeMap.getElem?_modify_self]
      cases b.handlers[id]? <;> rfl
    · rintro (h | k | k | k) other
      case exceptionHandler =>
        have different : id ≠ k := fun same => other (same ▸ rfl)
        simp [item?, Std.TreeMap.getElem?_modify, different]
      all_goals rfl
  | localVariable id =>
    cases done
    refine ⟨?_, ?_, rfl, rfl, rfl, rfl, rfl⟩
    · rintro u rfl
      simp only [item?, Std.TreeMap.getElem?_modify_self]
      cases b.scopes[id]? <;> rfl
    · rintro (h | k | k | k) other
      case localVariable =>
        have different : id ≠ k := fun same => other (same ▸ rfl)
        simp [item?, Std.TreeMap.getElem?_modify, different]
      all_goals rfl
  | lineNumber id =>
    cases done
    refine ⟨?_, ?_, rfl, rfl, rfl, rfl, rfl⟩
    · rintro u rfl
      rw [mentions_lineNumber] at mentioned
      simp only [item?, Std.TreeMap.getElem?_modify_self]
      cases found : b.lines[id]? with
      | none => rfl
      | some n =>
        rw [found] at mentioned
        have start : old = n.start := List.mem_singleton.mp mentioned
        simp [Item.map, Listing.swapHandle, start]
    · rintro (h | k | k | k) other
      case lineNumber =>
        have different : id ≠ k := fun same => other (same ▸ rfl)
        simp [item?, Std.TreeMap.getElem?_modify, different]
      all_goals rfl

theorem Swaps.cons (apart : t ∉ ts) (first : Swaps old new (· = t) b c)
    (second : Swaps old new (· ∈ ts) c d) : Swaps old new (· ∈ t :: ts) b d where
  swapped u member := by
    obtain rfl | member := List.mem_cons.mp member
    · rw [second.others u apart, first.swapped u rfl]
    · rw [second.swapped u member, first.others u fun same => apart (same ▸ member)]
  others u absent := by
    rw [List.mem_cons, not_or] at absent
    rw [second.others u absent.2, first.others u absent.1]
  order := second.order.trans first.order
  offsets := second.offsets.trans first.offsets
  attributes := second.attributes.trans first.attributes
  maxStack := second.maxStack.trans first.maxStack
  maxLocals := second.maxLocals.trans first.maxLocals

/-- All steps of redirecting.  A step leaves the items that are still to come as they were. -/
theorem swaps_forM (nodup : ts.Nodup)
    (mentioned : ∀ t ∈ ts, old ∈ b.listing.mentions b.entries t)
    (done : ts.forM (redirectOne old new) b = .ok () c) : Swaps old new (· ∈ ts) b c := by
  induction ts generalizing b with
  | nil =>
    cases done
    exact ⟨fun u member => absurd member List.not_mem_nil, fun _ _ => rfl, rfl, rfl, rfl, rfl, rfl⟩
  | cons t ts ih =>
    obtain ⟨apart, nodup⟩ := List.nodup_cons.mp nodup
    obtain ⟨here, others⟩ := List.forall_mem_cons.mp mentioned
    obtain ⟨⟨⟩, d, first, done⟩ := run_bind_eq_ok done
    have swaps := swaps_redirectOne here first
    refine swaps.cons apart (ih nodup (fun u member => ?_) done)
    rw [mentions_item, swaps.others u fun same => apart (same ▸ member), ← mentions_item]
    exact others u member

theorem swaps_redirectTargeters (coherent : b.Coherent)
    (done : redirectTargeters old new b = .ok () c) : Redirected old new b c := by
  unfold redirectTargeters at done
  split at done
  · split at done
    · rename_i same
      cases done
      subst same
      refine ⟨fun u _ => ?_, fun u absent => absurd trivial absent, rfl, rfl, rfl, rfl, rfl⟩
      cases b.item? u with
      | none => rfl
      | some x => rw [Option.map_some, Item.map_of_fixed fun h _ => Listing.swapHandle_self old h]
    · have pointed (t : Targeter) := coherent.listing.mem_targetersOf_iff (h := old) (t := t)
      have swaps := swaps_forM (b.listing.nodup_targetersOf old)
        (fun t => (pointed t).mp) done
      refine { swaps with
        swapped := fun u _ => ?_
        others := fun u absent => absurd trivial absent }
      by_cases member : u ∈ b.listing.targetersOf old
      · exact swaps.swapped u member
      · rw [swaps.others u member]
        rw [pointed, mentions_item] at member
        cases found : b.item? u with
        | none => rfl
        | some x =>
          rw [found] at member
          have fixed : ∀ h ∈ x.handles, Listing.swapHandle old new h = h := fun h listed =>
            Listing.swapHandle_of_ne fun same => member (same ▸ listed)
          rw [Option.map_some, Item.map_of_fixed fixed]
  · cases done

theorem exists_redirectTargeters (coherent : b.Coherent) (known : b.listing.contains new) :
    ∃ c, redirectTargeters old new b = .ok () c := by
  by_cases same : old = new
  · unfold redirectTargeters
    rw [if_pos known, if_pos same]
    exact ⟨b, rfl⟩
  · obtain ⟨c, run, _⟩ := redirectTargeters_eq_ok coherent known same
    exact ⟨c, run⟩

theorem eq_map_of_item {α : Type} {f : Handle → Handle} {wrap : α → Item} {g : α → α}
    {x? y? : Option α} (injective : Function.Injective wrap)
    (maps : ∀ x, (wrap x).map f = wrap (g x))
    (same : y?.map wrap = (x?.map wrap).map (Item.map f)) : y? = x?.map g := by
  refine Option.map_injective injective ?_
  rw [same, Option.map_map, Option.map_map]
  exact congrArg (x?.map ·) (funext maps)

namespace Swaps

variable (redirected : Redirected old new b c)
include redirected

theorem get?_eq (h : Handle) :
    c.listing.get? h = (b.listing.get? h).map (·.map (Listing.swapHandle old new)) :=
  eq_map_of_item (fun _ _ => Item.instruction.inj) (fun _ => rfl)
    (redirected.swapped (.instruction h) trivial)

theorem handlers_eq (id : Nat) :
    c.handlers[id]? = (b.handlers[id]?).map (·.map (Listing.swapHandle old new)) :=
  eq_map_of_item (fun _ _ => Item.range.inj) (fun _ => rfl)
    (redirected.swapped (.exceptionHandler id) trivial)

theorem scopes_eq (id : Nat) :
    c.scopes[id]? = (b.scopes[id]?).map (·.map (Listing.swapHandle old new)) :=
  eq_map_of_item (fun _ _ => Item.scope.inj) (fun _ => rfl)
    (redirected.swapped (.localVariable id) trivial)

theorem lines_eq (id : Nat) : c.lines[id]? = (b.lines[id]?).map fun n =>
    { n with start := Listing.swapHandle old new n.start } := by
  have injective : Function.Injective fun n : LineEntry => Item.line n.start n.line := by
    rintro ⟨start, number⟩ ⟨start', number'⟩ same
    cases same
    rfl
  exact eq_map_of_item injective (fun _ => rfl) (redirected.swapped (.lineNumber id) trivial)

end Swaps

end Body

end JvmClass
