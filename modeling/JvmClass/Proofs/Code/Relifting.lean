import JvmClass.Proofs.Code.Lowering

/-! Lowering a body and lifting it again.  The attribute that a body is lowered to has its tables by
offset, and its lines and variables as attributes with names of their own.  Lifting finds the
instruction of each offset, so that the same body comes back, but for the names of its handles and
the order of its lines. -/

namespace JvmClass

def LineEntry.offset (m : Listing) (n : LineEntry) : Nat := (m.offset? n.start).getD 0

def sortedLines (m : Listing) (ns : List LineEntry) : List LineEntry :=
  ns.mergeSort fun n n' => n.offset m ≤ n'.offset m

namespace Body

open Listing (Traces Starts)

variable {b c d : Body} {p q : Pool} {code : Code} {l m k : Listing} {starts : Starts}
  {rename : Handle → Handle}

theorem lowerLine_eq_ok {n : LineEntry} {e : LineNumber} (lowered : lowerLine m n = .ok e) :
    e = ⟨(n.offset m).toUInt16, n.line⟩ ∧ e.start.toNat = n.offset m := by
  obtain ⟨start, first, lowered⟩ := bind_eq_ok lowered
  cases lowered
  have offset : n.offset m = start.toNat := by
    unfold LineEntry.offset
    rw [offset?_of_startOf first]
    rfl
  rw [offset]
  simp

theorem lowerLines_eq_ok {t : LineNumberTable}
    (lowered : lowerLines { b with listing := m } = .ok t) :
    List.Forall₂ (fun n e => lowerLine m n = .ok e) (sortedLines m b.lines.values)
      t.entries.toList := by
  obtain ⟨entries, found, lowered⟩ := bind_eq_ok lowered
  have each := mapM_eq_ok_iff.mp found
  cases lowered
  let number (n : LineEntry) : LineNumber := ⟨(n.offset m).toUInt16, n.line⟩
  have known (n : LineEntry) (member : n ∈ b.lines.values) :
      lowerLine m n = .ok (number n) ∧ (number n).start.toNat = n.offset m := by
    obtain ⟨e, _, lowered⟩ := exists_right_of_forall₂ each member
    obtain ⟨rfl, start⟩ := lowerLine_eq_ok lowered
    exact ⟨lowered, start⟩
  have same : b.lines.values.map number = entries.map id :=
    map_eq_map_of_forall₂ (each.imp fun n e lowered => (lowerLine_eq_ok lowered).1.symm)
  have sorted : (sortedLines m b.lines.values).map number =
      entries.mergeSort fun a b => a.start ≤ b.start := by
    rw [List.map_id] at same
    rw [← same]
    refine List.map_mergeSort fun n member n' member' => decide_eq_decide.mpr ?_
    rw [UInt16.le_iff_toNat_le, (known n member).2, (known n' member').2]
  rw [List.toList_toArray, ← sorted, List.forall₂_map_right_iff, List.forall₂_same]
  exact fun n member => (known n (List.mem_mergeSort.mp member)).1

theorem lowerScopes_eq_ok {t : LocalVariableTable} (made : lowerScopes m b = .ok t) :
    List.Forall₂ (fun v e => lowerVariable m v = .ok e) b.scopes.values t.entries := by
  unfold lowerScopes at made
  cases lowered : b.scopes.values.mapM (lowerVariable m) with
  | error e =>
    rw [lowered] at made
    cases made
  | ok entries =>
    rw [lowered] at made
    cases made
    exact mapM_eq_ok_iff.mp lowered

theorem Tables.comeBack {α β γ : Type} {step : Body → α → Except LiftFailure Body}
    {make : α → Except LiftFailure β} {wrap : β → Entry} {lowerOne : γ → Except Error α}
    {image : γ → β} {ys : List γ} {xs : List α} (tables : Tables step make wrap)
    (coherent : d.Coherent) (same : k.Reindexed d.listing)
    (lowered : List.Forall₂ (fun y x => lowerOne y = .ok x) ys xs)
    (each : ∀ y ∈ ys, ∀ x, lowerOne y = .ok x →
      make x = .ok (image y) ∧ (wrap (image y)).Fits k) :
    ∃ c, xs.foldlM step d = .ok c ∧ d.Gains ((ys.map image).map wrap) [] c := by
  refine tables.run coherent ?_ fun z member => ?_
  · rw [List.forall₂_map_right_iff]
    refine forall₂_join lowered (S := Eq) (List.forall₂_same.mpr fun y _ => rfl) ?_
    rintro y x _ member lowered rfl
    exact (each y member x lowered).1
  · obtain ⟨y, listed, rfl⟩ := List.mem_map.mp member
    obtain ⟨x, _, lowered⟩ := exists_right_of_forall₂ lowered listed
    exact (each y listed x lowered).2.reindex same

def IsKept (p : Pool) (a : Attribute) : Prop :=
  ∃ title, a.title p = .ok title ∧ title ≠ AttributeKind.title LineNumberTable ∧
    title ≠ AttributeKind.title LocalVariableTable ∧ title ≠ stackMapTitle

variable {a : Attribute} {as : List Attribute}

theorem liftAttribute_lines {t : LineNumberTable}
    (title : a.title p = .ok (AttributeKind.title LineNumberTable))
    (value : a.value LineNumberTable = .ok t) :
    liftAttribute p starts d a = t.entries.toList.foldlM (liftLine starts) d := by
  unfold liftAttribute
  simp only [title, value, bind, Except.bind, Except.mapError, if_pos]

theorem liftAttribute_scopes {t : LocalVariableTable}
    (title : a.title p = .ok (AttributeKind.title LocalVariableTable))
    (value : a.value LocalVariableTable = .ok t) :
    liftAttribute p starts d a = t.entries.foldlM (liftVariable starts) d := by
  have other : AttributeKind.title LocalVariableTable ≠ AttributeKind.title LineNumberTable := by
    decide
  unfold liftAttribute
  simp only [title, value, bind, Except.bind, Except.mapError, if_neg other, if_pos]

theorem IsKept.liftAttribute (kept : IsKept p a) :
    liftAttribute p starts d a = .ok { d with attributes := d.attributes ++ [a] } := by
  obtain ⟨title, named, noLines, noScopes, noMap⟩ := kept
  unfold Body.liftAttribute
  rw [named]
  exact (if_neg noLines).trans ((if_neg noScopes).trans (if_neg noMap))

theorem IsKept.follows (kept : IsKept p a) (lawful : p.Lawful) (follows : p.Follows q) :
    IsKept q a := by
  obtain ⟨title, named, others⟩ := kept
  exact ⟨title, follows.getUtf8 lawful named, others⟩

theorem exists_lift_kept (starts : Starts) (coherent : d.Coherent) (kept : ∀ a ∈ as, IsKept p a) :
    ∃ c, as.foldlM (liftAttribute p starts) d = .ok c ∧ d.Gains [] as c := by
  induction as generalizing d with
  | nil => exact ⟨d, rfl, .refl coherent⟩
  | cons a as ih =>
    obtain ⟨here, others⟩ := List.forall_mem_cons.mp kept
    have gains := gains_attribute coherent a
    obtain ⟨c, done, gains'⟩ := ih gains.coherent others
    refine ⟨c, ?_, gains.trans gains'⟩
    rw [List.foldlM_cons, here.liftAttribute]
    exact done

section Entries

variable (traces : l.Traces m k starts rename) (coherent : d.Coherent)
  (same : k.Reindexed d.listing)
include traces coherent same

theorem exists_lift_lines
    (holds : Holds b.lines.isEmpty (lowerLines { b with listing := m }) p as) :
    ∃ c, as.foldlM (liftAttribute p starts) d = .ok c ∧
      d.Gains (((sortedLines m b.lines.values).map (·.map rename)).map .line) [] c := by
  cases full : b.lines.isEmpty with
  | true =>
    rw [holds.absent full, Numbered.values_of_isEmpty full, sortedLines, List.mergeSort_nil]
    exact ⟨d, rfl, .refl coherent⟩
  | false =>
    obtain ⟨t, a, made, rfl, title, value⟩ := holds.present full
    obtain ⟨c, done, gains⟩ := (tables_liftLine starts).comeBack coherent same
      (lowerLines_eq_ok made) fun n _ e => lineOf_of_lowerLine traces
    refine ⟨c, ?_, gains⟩
    rw [List.foldlM_cons, liftAttribute_lines title value, done]
    rfl

theorem exists_lift_scopes
    (forward : ∀ v ∈ b.scopes.values, ∀ last ∈ v.last?, l.InOrder v.start last)
    (holds : Holds b.scopes.isEmpty (lowerScopes m b) p as) :
    ∃ c, as.foldlM (liftAttribute p starts) d = .ok c ∧
      d.Gains ((b.scopes.values.map (·.map rename)).map .scope) [] c := by
  cases full : b.scopes.isEmpty with
  | true =>
    rw [holds.absent full, Numbered.values_of_isEmpty full]
    exact ⟨d, rfl, .refl coherent⟩
  | false =>
    obtain ⟨t, a, made, rfl, title, value⟩ := holds.present full
    obtain ⟨c, done, gains⟩ := (tables_liftVariable starts).comeBack coherent same
      (lowerScopes_eq_ok made) fun v listed e => scopeOf_of_lowerVariable traces (forward v listed)
    refine ⟨c, ?_, gains⟩
    rw [List.foldlM_cons, liftAttribute_scopes title value, done]
    rfl

end Entries

/-- All ranges and scopes of a body end where they start or later. -/
structure Forward (b : Body) : Prop where
  ranges : ∀ r ∈ b.handlers.values, b.listing.InOrder r.start r.last
  scopes : ∀ v ∈ b.scopes.values, ∀ last ∈ v.last?, b.listing.InOrder v.start last

/-- The body `c` is the body `b` with its handles renamed, but for constants that are loaded with
wider instructions, and lines, which are in the order of their offsets in `m`. -/
structure Relifts (b : Body) (m : Listing) (rename : Handle → Handle) (c : Body) : Prop where
  order : c.listing.order.toList = b.listing.order.toList.map rename
  nodup : c.listing.order.toList.Nodup
  instructions : c.listing.toList =
    b.listing.toList.map fun x => (rename x.1, (x.2.map rename).reread)
  ranges : c.handlers.values = b.handlers.values.map (·.map rename)
  scopes : c.scopes.values = b.scopes.values.map (·.map rename)
  lines : c.lines.values = (sortedLines m b.lines.values).map (·.map rename)
  maxStack : c.maxStack = b.maxStack
  maxLocals : c.maxLocals = b.maxLocals
  attributes : c.attributes = b.attributes

theorem exists_lift_of_lowers (nodup : b.listing.order.toList.Nodup) (lawful : p.Lawful)
    (forward : b.Forward) (kept : ∀ a ∈ b.attributes, IsKept p a)
    (lowers : b.Lowers p code q m) (id : Nat) : ∃ rename l starts c,
      b.listing.Traces m l starts rename ∧ lift id q code = .ok c ∧
        (opened id code.maxStack code.maxLocals l).Gains
          ((b.handlers.values.map (·.map rename)).map .range ++
            ((sortedLines m b.lines.values).map (·.map rename)).map .line ++
            (b.scopes.values.map (·.map rename)).map .scope) b.attributes c := by
  obtain ⟨l, starts, decoded, traces⟩ := Listing.traces_of_encode nodup lowers.encoded id
  obtain ⟨lines, scopes, attributes, holds, holds'⟩ := lowers.attributes
  have coherent := coherent_opened code.maxStack code.maxLocals decoded
  obtain ⟨b₁, first, ranges⟩ := (tables_liftHandler starts).comeBack coherent (.refl l)
    lowers.handlers fun r listed e => rangeOf_of_lowerHandler traces (forward.ranges r listed)
  obtain ⟨b₂, second, gains⟩ := exists_lift_lines traces ranges.coherent ranges.listing holds
  have more := ranges.trans gains
  obtain ⟨b₃, third, gains⟩ :=
    exists_lift_scopes traces more.coherent more.listing forward.scopes holds'
  have more := more.trans gains
  obtain ⟨c, fourth, gains⟩ := exists_lift_kept starts more.coherent fun a member =>
    (kept a member).follows lawful lowers.follows
  refine ⟨b.listing.renamed id, l, starts, c, traces, ?_, ?_⟩
  · unfold lift
    rw [decoded, attributes]
    change (code.handlers.foldlM (liftHandler starts)
      (opened id code.maxStack code.maxLocals l) >>= _) = _
    rw [first]
    change (lines ++ scopes ++ b.attributes).foldlM (liftAttribute q starts) b₁ = _
    rw [List.foldlM_append, List.foldlM_append, second]
    change ((scopes.foldlM (liftAttribute q starts) b₂) >>= _) = _
    rw [third]
    exact fourth
  · have all := more.trans gains
    rwa [List.append_nil] at all

theorem exists_relifts (nodup : b.listing.order.toList.Nodup) (lawful : p.Lawful)
    (forward : b.Forward) (kept : ∀ a ∈ b.attributes, IsKept p a)
    (lowers : b.Lowers p code q m) (id : Nat) :
    ∃ rename c, lift id q code = .ok c ∧ b.Relifts m rename c := by
  obtain ⟨rename, l, starts, c, traces, lifted, gains⟩ :=
    exists_lift_of_lowers nodup lawful forward kept lowers id
  refine ⟨rename, c, lifted, ?_, gains.coherent.listing.nodup, ?_, ?_, ?_, ?_, ?_, ?_,
    gains.attributes⟩
  · obtain ⟨index, same⟩ := gains.listing
    rw [same]
    exact traces.order
  · rw [gains.listing.toList_eq]
    exact traces.instructions
  · rw [gains.ranges]
    simp only [List.filterMap_append, Entry.filterMap_range?]
    simp [Entry.range?, Function.comp_def, opened, empty]
  · rw [gains.scopes]
    simp only [List.filterMap_append, Entry.filterMap_scope?]
    simp [Entry.scope?, Function.comp_def, opened, empty]
  · rw [gains.lines]
    simp only [List.filterMap_append, Entry.filterMap_line?]
    simp [Entry.line?, Function.comp_def, opened, empty]
  · exact gains.maxStack.trans lowers.maxStack
  · exact gains.maxLocals.trans lowers.maxLocals

/-- Bodies whose limits and attributes are set at will between edits. -/
inductive Assembled : Body → Prop where
  | reached {b : Body} (reachable : b.Reachable) : Assembled b
  | edited {b : Body} (c : Command) (before : Assembled b) : Assembled (c.run b)
  | limits {b : Body} (maxStack maxLocals : UInt16) (before : Assembled b) :
      Assembled { b with maxStack := maxStack, maxLocals := maxLocals }
  | attributes {b : Body} (as : List Attribute) (before : Assembled b) :
      Assembled { b with attributes := as }

theorem coherent_of_assembled (assembled : b.Assembled) : b.Coherent := by
  induction assembled with
  | reached reachable => exact coherent_of_reachable reachable
  | edited c _ ih => exact (follows_run c ih).coherent
  | limits _ _ _ ih | attributes _ _ ih => exact ⟨ih.listing, ih.given, ih.distinct⟩

/-- A body that is lowered comes back when it is lifted, if its ranges and scopes go forward and
its attributes are none of those that lifting has a use for. -/
theorem relifts_of_lower (assembled : b.Assembled) (built : p.Built) (forward : b.Forward)
    (kept : ∀ a ∈ b.attributes, IsKept p a) (lowered : lower b p = .ok code q) (id : Nat) :
    ∃ m rename c, Listing.encode b.listing = .ok code.bytes m ∧ lift id q code = .ok c ∧
      b.Relifts m rename c := by
  have lawful := Pool.lawful_of_built built
  obtain ⟨m, lowers⟩ := lowers_of_lower lawful lowered
  have nodup := (coherent_of_assembled assembled).listing.nodup
  obtain ⟨rename, c, lifted, relifts⟩ := exists_relifts nodup lawful forward kept lowers id
  exact ⟨m, rename, c, lowers.encoded, lifted, relifts⟩

/-- Entries of all kinds: the lines are not in order, and a variable is in scope nowhere. -/
def loopEntries : List Entry := [
  .range ⟨⟨0, 0⟩, ⟨0, 1⟩, ⟨0, 0⟩, none⟩,
  .scope ⟨⟨0, 0⟩, some ⟨0, 1⟩, 1, 1, 0⟩,
  .scope ⟨⟨0, 1⟩, none, 1, 1, 1⟩,
  .line ⟨⟨0, 1⟩, 7⟩,
  .line ⟨⟨0, 0⟩, 8⟩]

def loopBody : Body := { empty 0 1 2 with listing := .loop }

def fullLoop : Body :=
  { loopBody.after (loopEntries.map .add) with attributes := [⟨1, [1, 2, 3]⟩] }

def loopPool : Pool :=
  .ofConstants [.utf8 "Custom", .utf8 "LineNumberTable", .utf8 "LocalVariableTable"]

theorem reachable_loopBody : loopBody.Reachable := by
  have reachable : Reachable ((Command.listing (.append (.branch .goto ⟨0, 0⟩))).run
      ((Command.listing (.append (.bipush 1))).run (empty 0 1 2))) :=
    .edited _ (.edited _ (.empty 0 1 2))
  rwa [run_listing, run_listing] at reachable

theorem run_add {e : Entry} (fits : e.Fits b.listing) : (Command.add e).run b = b.plus e := by
  change left e.add b = _
  unfold left
  rw [add_of_fits fits]

theorem gains_after_add {es : List Entry} (coherent : b.Coherent)
    (fits : ∀ e ∈ es, e.Fits b.listing) : b.Gains es [] (b.after (es.map .add)) := by
  induction es generalizing b with
  | nil => exact .refl coherent
  | cons e es ih =>
    obtain ⟨here, others⟩ := List.forall_mem_cons.mp fits
    have gains := gains_plus coherent here
    have later := ih gains.coherent fun f member => (others f member).reindex gains.listing
    rw [← run_add here] at gains later
    exact gains.trans later

theorem order_loop : Listing.loop.order.toList = [⟨0, 0⟩, ⟨0, 1⟩] := by
  rw [Listing.loop_eq, Listing.order_placeAll]
  rfl

theorem inOrder_loop : Listing.loop.InOrder ⟨0, 0⟩ ⟨0, 1⟩ := by
  have nodup := (coherent_of_reachable reachable_loopBody).listing.nodup
  have first : Listing.loop.order.toList[0]? = some ⟨0, 0⟩ := by rw [order_loop]; rfl
  have second : Listing.loop.order.toList[1]? = some ⟨0, 1⟩ := by rw [order_loop]; rfl
  exact ⟨0, 1, Listing.position?_eq nodup first, Listing.position?_eq nodup second, by decide⟩

theorem gains_fullLoop : loopBody.Gains loopEntries [⟨1, [1, 2, 3]⟩] fullLoop := by
  have coherent := coherent_of_reachable reachable_loopBody
  have listed : ∀ e ∈ loopEntries, ∀ h ∈ e.handles, h ∈ [(⟨0, 0⟩ : Handle), ⟨0, 1⟩] := by decide
  have checked := Listing.checkRange_eq_ok_iff.mpr inOrder_loop
  have fits : ∀ e ∈ loopEntries, e.Fits loopBody.listing := by
    refine fun e member => ⟨fun h mentioned => ?_, ?_⟩
    · have present := listed e member h mentioned
      rw [← order_loop] at present
      exact (coherent.listing.stored h).mp present
    · obtain rfl | rfl | rfl | rfl | rfl : e = _ ∨ e = _ ∨ e = _ ∨ e = _ ∨ e = _ := by
        simpa [loopEntries] using member
      · exact checked
      · exact checked
      all_goals rfl
  have gains := gains_after_add coherent fits
  have none : (loopBody.after (loopEntries.map .add)).attributes = [] := gains.attributes
  have gains' := gains_attribute gains.coherent ⟨1, [1, 2, 3]⟩
  rw [none] at gains'
  exact gains.trans gains'

theorem relifts_of_lower_fullLoop : fullLoop.Assembled ∧ loopPool.Built ∧ fullLoop.Forward ∧
    (∀ a ∈ fullLoop.attributes, IsKept loopPool a) ∧
    ∃ code, lower fullLoop loopPool = .ok code loopPool ∧
      ∃ m rename c, Listing.encode fullLoop.listing = .ok code.bytes m ∧
        lift 1 loopPool code = .ok c ∧ fullLoop.Relifts m rename c := by
  have gains := gains_fullLoop
  have assembled : fullLoop.Assembled :=
    .attributes _ (.reached (reachable_after _ reachable_loopBody))
  have built : loopPool.Built :=
    Pool.built_ofConstants (by decide) (by decide +kernel) (by decide)
  have ordered : fullLoop.listing.InOrder ⟨0, 0⟩ ⟨0, 1⟩ := by
    unfold Listing.InOrder
    rw [gains.listing.position?_eq]
    exact inOrder_loop
  have forward : fullLoop.Forward := by
    refine ⟨fun r listed => ?_, fun v listed last ends => ?_⟩
    · rw [gains.ranges] at listed
      obtain rfl : r = ⟨⟨0, 0⟩, ⟨0, 1⟩, ⟨0, 0⟩, none⟩ := List.mem_singleton.mp listed
      exact ordered
    · rw [gains.scopes] at listed
      obtain rfl | rfl : v = ⟨⟨0, 0⟩, some ⟨0, 1⟩, 1, 1, 0⟩ ∨ v = ⟨⟨0, 1⟩, none, 1, 1, 1⟩ := by
        exact List.mem_pair.mp listed
      · cases ends
        exact ordered
      · cases ends
  have kept : ∀ a ∈ fullLoop.attributes, IsKept loopPool a := by
    rintro a listed
    obtain rfl := List.mem_singleton.mp listed
    exact ⟨"Custom", by decide +kernel, by decide, by decide, by decide⟩
  obtain ⟨code, lowered⟩ : ∃ code, lower fullLoop loopPool = .ok code loopPool := by
    obtain ⟨_, encoded⟩ := Listing.encode_loop
    obtain ⟨m, encoded⟩ := gains.listing.encode encoded
    have lawful := Pool.lawful_of_built built
    have index (c : Constant) : loopPool.index[c]? = _ := lawful.index
    refine (coherent_of_assembled assembled).exists_lower encoded ?_ ?_
      ⟨2, Pool.add_of_index (by decide) ?_⟩ ⟨3, Pool.add_of_index (by decide) ?_⟩
    · rw [gains.lines]
      decide
    · rw [gains.scopes]
      decide
    · rw [index, loopPool, Pool.constants_ofConstants]
      decide +kernel
    · rw [index, loopPool, Pool.constants_ofConstants]
      decide +kernel
  exact ⟨assembled, built, forward, kept, code, lowered,
    relifts_of_lower assembled built forward kept lowered 1⟩

end Body

end JvmClass
