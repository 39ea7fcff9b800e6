import JvmClass.Proofs.Code.Halting
import JvmClass.Proofs.Code.ProgramOrder
import JvmClass.Proofs.Code.Relifting

/-! Ranges that are lowered.  An entry of the exception table covers code just when its range goes
forward in program order, and without such entries only the code of the range's own last
instruction is in its place.  So the code of a body can be lifted again just when all of its ranges
go forward, which redirecting alone can change. -/

namespace JvmClass

namespace Body

open Listing (Traces Starts)

variable {b c : Body} {p q : Pool} {code : Code} {l m k : Listing} {s : Starts}
  {rename : Handle → Handle} {h start last : Handle} {x y : UInt16} {id : Nat}

section Traces

variable (traces : l.Traces m k s rename)
include traces

theorem isStart_of_startOf (found : startOf m h = .ok x) : s.IsStart x.toNat :=
  exists_startAt_iff.mp ⟨_, startAt_of_startOf traces found⟩

theorem isStop_of_stopOf (found : stopOf m h = .ok y) : s.IsStop y.toNat := by
  obtain ⟨offset, i, known, stored, stop⟩ := exists_of_stopOf found
  obtain ⟨n, here⟩ := List.mem_iff_getElem?.mp (traces.located h _ known)
  obtain ⟨_, _, known', stored', _, stops⟩ := traces.found n h here
  cases known.symm.trans known'
  cases stored.symm.trans stored'
  rw [stop, ← stops]
  obtain ends | another := Starts.at?_stopOf (k := n) traces.increasing
  · exact .inl ends
  · exact .inr (Option.isSome_iff_exists.mp another)

theorem lt_iff_inOrder (nodup : l.order.toList.Nodup) (first : startOf m start = .ok x)
    (ends : stopOf m last = .ok y) : x < y ↔ l.InOrder start last := by
  refine ⟨fun more => ?_, fun ordered => (lastBefore_of_stopOf traces ordered first ends).1⟩
  obtain ⟨offset, i, known, stored, stop⟩ := exists_of_stopOf ends
  have known' := offset?_of_startOf first
  obtain ⟨a, here, position⟩ := Listing.exists_position nodup (traces.located start _ known')
  obtain ⟨z, there, position'⟩ := Listing.exists_position nodup (traces.located last _ known)
  refine ⟨a, z, position, position', Nat.le_of_not_lt fun before => ?_⟩
  obtain ⟨_, _, again, _, entry, _⟩ := traces.found a start here
  obtain ⟨_, _, again', stored', _, stops⟩ := traces.found z last there
  cases known'.symm.trans again
  cases known.symm.trans again'
  cases stored.symm.trans stored'
  -- the instruction behind the last one does not start after the first one
  obtain ⟨next, listed⟩ : ∃ next, s.table[z + 1]? = some next := by
    have bound := (Array.getElem?_eq_some_iff.mp entry).1
    exact ⟨_, Array.getElem?_eq_getElem (by omega)⟩
  have ends : y.toNat = next.1 := by
    rw [stop, ← stops, Starts.stopOf, listed, Option.elim_some]
  have more : x.toNat < y.toNat := more
  obtain same | before := Nat.eq_or_lt_of_le (Nat.succ_le_of_lt before)
  · have same : z + 1 = a := same
    rw [same, entry] at listed
    cases listed
    omega
  · have := traces.increasing.lt before listed entry
    dsimp only at this
    omega

theorem placed_iff_of_lowerHandler {r : ExceptionRange} {e : ExceptionEntry}
    (nodup : l.order.toList.Nodup) (lowered : lowerHandler m r = .ok e) :
    (Placed s e ↔ l.InOrder r.start r.last) ∧ (e.start < e.stop ↔ l.InOrder r.start r.last) := by
  obtain ⟨x, first, lowered⟩ := bind_eq_ok lowered
  obtain ⟨y, ends, lowered⟩ := bind_eq_ok lowered
  obtain ⟨z, target, lowered⟩ := bind_eq_ok lowered
  cases lowered
  have order := lt_iff_inOrder traces nodup first ends
  refine ⟨⟨fun placed => order.mp placed.forward, fun ordered => ?_⟩, order⟩
  exact ⟨isStart_of_startOf traces first, isStop_of_stopOf traces ends, order.mpr ordered,
    isStart_of_startOf traces target⟩

theorem exists_scopeOf_of_lowerVariable {v : VariableScope} {e : LocalVariable}
    (reads : k.Reads s) (lowered : lowerVariable m v = .ok e) : ∃ x, scopeOf s e = .ok x := by
  obtain ⟨x, first, lowered⟩ := bind_eq_ok lowered
  have starts := isStart_of_startOf traces first
  obtain ⟨start, last?, name, descriptor, slot⟩ := v
  cases last? with
  | none =>
    cases lowered
    exact (exists_scopeOf_iff reads).mpr ⟨starts, .inl rfl⟩
  | some last =>
    obtain ⟨y, ends, lowered⟩ := bind_eq_ok lowered
    cases lowered
    refine (exists_scopeOf_iff reads).mpr ⟨starts, ?_⟩
    dsimp only
    split
    · exact .inl rfl
    · rename_i forward
      have forward : x ≤ y := UInt16.not_lt.mp forward
      have sum : x.toNat + (y - x).toNat = y.toNat := by
        rw [UInt16.toNat_sub_of_le _ _ forward]
        exact Nat.add_sub_of_le forward
      rw [sum]
      exact .inr (isStop_of_stopOf traces ends)

theorem exists_lift_all_scopes {as : List Attribute} (reads : k.Reads s) (coherent : c.Coherent)
    (same : k.Reindexed c.listing) (holds : Holds b.scopes.isEmpty (lowerScopes m b) p as) :
    ∃ d es, as.foldlM (liftAttribute p s) c = .ok d ∧ c.Gains es [] d := by
  cases full : b.scopes.isEmpty with
  | true =>
    rw [holds.absent full]
    exact ⟨c, [], rfl, .refl coherent⟩
  | false =>
    obtain ⟨t, a, made, rfl, title, value⟩ := holds.present full
    obtain ⟨d, done⟩ := ((tables_liftVariable s).exists_run_iff _ coherent same
      fun v x => fits_scopeOf reads).mpr fun e member => by
        obtain ⟨v, _, lowered⟩ := exists_left_of_forall₂ (lowerScopes_eq_ok made) member
        exact exists_scopeOf_of_lowerVariable traces reads lowered
    obtain ⟨vs, _, gains⟩ := (tables_liftVariable s).gains coherent done
    refine ⟨d, _, ?_, gains⟩
    rw [List.foldlM_cons, liftAttribute_scopes title value, done]
    rfl

end Traces

theorem forward_iff : b.RangesForward ↔
    ∀ r ∈ b.handlers.values, b.listing.InOrder r.start r.last := by
  constructor
  · intro forward r listed
    obtain ⟨id, found⟩ := Numbered.exists_of_mem_values listed
    exact forward id r found
  · intro forward id r found
    refine forward r ?_
    rw [Numbered.values_eq, List.mem_map]
    exact ⟨(id, r), Std.TreeMap.mem_toList_iff_getElem?_eq_some.mpr found, rfl⟩

section Lowers

variable (lawful : p.Lawful) (nodup : b.listing.order.toList.Nodup) (lowers : b.Lowers p code q m)
include nodup lowers

theorem entries_forward_iff : (∀ e ∈ code.handlers, e.start < e.stop) ↔ b.RangesForward := by
  obtain ⟨l, s, _, traces⟩ := Listing.traces_of_encode nodup lowers.encoded 0
  rw [forward_iff]
  constructor
  · intro forward r listed
    obtain ⟨e, member, lowered⟩ := exists_right_of_forall₂ lowers.handlers listed
    exact (placed_iff_of_lowerHandler traces nodup lowered).2.mp (forward e member)
  · intro forward e member
    obtain ⟨r, listed, lowered⟩ := exists_left_of_forall₂ lowers.handlers member
    exact (placed_iff_of_lowerHandler traces nodup lowered).2.mpr (forward r listed)

include lawful

/-- What has been lowered is lifted again just when its ranges go forward. -/
theorem exists_lift_iff (kept : ∀ a ∈ b.attributes, IsKept p a) :
    (∃ c, lift id q code = .ok c) ↔ b.RangesForward := by
  obtain ⟨l, s, decoded, traces⟩ := Listing.traces_of_encode nodup lowers.encoded id
  have reads := Listing.reads_of_decode decoded
  have coherent := coherent_opened code.maxStack code.maxLocals decoded
  have handlers := (tables_liftHandler s).exists_run_iff code.handlers coherent (.refl l)
    fun e r => fits_rangeOf reads
  simp only [exists_rangeOf_iff reads] at handlers
  have ran : lift id q code =
      code.handlers.foldlM (liftHandler s) (opened id code.maxStack code.maxLocals l) >>=
        code.attributes.foldlM (liftAttribute q s) := by
    unfold lift
    rw [decoded]
    rfl
  rw [ran, forward_iff]
  constructor
  · rintro ⟨c, lifted⟩ r listed
    obtain ⟨d, first, _⟩ := bind_eq_ok lifted
    obtain ⟨e, member, lowered⟩ := exists_right_of_forall₂ lowers.handlers listed
    exact (placed_iff_of_lowerHandler traces nodup lowered).1.mp (handlers.mp ⟨d, first⟩ e member)
  · intro forward
    obtain ⟨d, first⟩ := handlers.mpr fun e member => by
      obtain ⟨r, listed, lowered⟩ := exists_left_of_forall₂ lowers.handlers member
      exact (placed_iff_of_lowerHandler traces nodup lowered).1.mpr (forward r listed)
    obtain ⟨rs, _, gains⟩ := (tables_liftHandler s).gains coherent first
    obtain ⟨lines, scopes, attributes, holds, holds'⟩ := lowers.attributes
    obtain ⟨b₂, second, gains'⟩ :=
      exists_lift_lines traces gains.coherent gains.listing holds
    have more := gains.trans gains'
    obtain ⟨b₃, es, third, gains'⟩ :=
      exists_lift_all_scopes traces reads more.coherent more.listing holds'
    obtain ⟨c, fourth, _⟩ := exists_lift_kept s gains'.coherent fun a member =>
      (kept a member).follows lawful lowers.follows
    refine ⟨c, ?_⟩
    rw [first, attributes]
    change (lines ++ scopes ++ b.attributes).foldlM (liftAttribute q s) d = _
    rw [List.foldlM_append, List.foldlM_append, second]
    change (scopes.foldlM (liftAttribute q s) b₂ >>= _) = _
    rw [third]
    exact fourth

end Lowers

/-- A body that is empty, or that is lifted with a pool of which `p` is a later state. -/
inductive Origin (p : Pool) : Body → Prop where
  | empty (id : Nat) (maxStack maxLocals : UInt16) : Origin p (empty id maxStack maxLocals)
  | lifted {id : Nat} {p₀ : Pool} {code : Code} {b : Body} (built : p₀.Built)
      (follows : p₀.Follows p) (lifted : lift id p₀ code = .ok b) : Origin p b

theorem forward_of_lift (lifted : lift id p code = .ok b) : b.RangesForward := by
  obtain ⟨l, s, decoded, lifts⟩ := lifts_of_lift lifted
  rw [forward_iff]
  intro r listed
  obtain ⟨e, _, made⟩ := exists_left_of_forall₂ lifts.ranges listed
  have fits := fits_rangeOf (Listing.reads_of_decode decoded) made
  exact lifts.listing.inOrder (Listing.checkRange_eq_ok_iff.mp fits.ordered)

theorem kept_of_lift (lifted : lift id p code = .ok b) : ∀ a ∈ b.attributes, IsKept p a := by
  obtain ⟨l, s, _, lifts⟩ := lifts_of_lift lifted
  intro a member
  rw [lifts.attributes, keptIn] at member
  obtain ⟨listed, unused⟩ := List.mem_filter.mp member
  obtain ⟨title, named⟩ := lifts.titled a listed
  have unused : title ∉ usedTitles := by simpa [named] using unused
  have ne {x : String} (used : x ∈ usedTitles) : title ≠ x := fun same => unused (same ▸ used)
  exact ⟨title, named, ne (by decide), ne (by decide), ne (by decide)⟩

namespace Origin

theorem reachable (origin : b.Origin p) : b.Reachable := by
  cases origin with
  | empty id maxStack maxLocals => exact .empty id maxStack maxLocals
  | lifted _ _ lifted => exact .lifted lifted

theorem forward (origin : b.Origin p) : b.RangesForward := by
  cases origin with
  | empty id maxStack maxLocals => exact fun id r found => absurd found (by simp [Body.empty])
  | lifted _ _ lifted => exact forward_of_lift lifted

theorem kept (origin : b.Origin p) : ∀ a ∈ b.attributes, IsKept p a := by
  cases origin with
  | empty id maxStack maxLocals => exact fun a member => absurd member List.not_mem_nil
  | lifted built follows lifted =>
    exact fun a member => (kept_of_lift lifted a member).follows (Pool.lawful_of_built built) follows

end Origin

/-- The ranges of a body go forward for as long as no edit reverses one.  What the body is lowered
to has entries that cover code, and can be lifted again, just when they do. -/
theorem forward_ranges_of_after (built : p.Built) (origin : b.Origin p) (cs : List Command) :
    ((∀ k, (b.after (cs.take k)).RangesForward) ↔
        ∀ (k : Nat) c, cs[k]? = some c → ¬ c.Reverses (b.after (cs.take k))) ∧
      ∀ code q, lower (b.after cs) p = .ok code q →
        ((∀ e ∈ code.handlers, e.start < e.stop) ↔ (b.after cs).RangesForward) ∧
          ∀ id, (∃ c, lift id q code = .ok c) ↔ (b.after cs).RangesForward := by
  have coherent := coherent_of_reachable origin.reachable
  refine ⟨forward_after_iff cs coherent origin.forward, fun code q lowered => ?_⟩
  have lawful := Pool.lawful_of_built built
  obtain ⟨m, lowers⟩ := lowers_of_lower lawful lowered
  have nodup := (follows_after cs coherent).coherent.listing.nodup
  have kept : ∀ a ∈ (b.after cs).attributes, IsKept p a := by
    rw [attributes_after cs coherent]
    exact origin.kept
  exact ⟨entries_forward_iff nodup lowers, fun id => exists_lift_iff lawful nodup lowers kept⟩

def nops : List Command := List.replicate 3 (.listing (.append (.plain ⟨0⟩)))

def firstTwo : ExceptionRange := ⟨⟨0, 0⟩, ⟨0, 1⟩, ⟨0, 0⟩, none⟩

def guardedNops : Body := (empty 0 0 0).after (nops ++ [.add (.range firstTwo)])

def reversedNops : Body := guardedNops.after [.redirectTargeters ⟨0, 0⟩ ⟨0, 2⟩]

structure HasNops (l : Listing) : Prop where
  order : l.order.toList = [⟨0, 0⟩, ⟨0, 1⟩, ⟨0, 2⟩]
  stored : ∀ h ∈ l.order.toList, l.get? h = some (.plain ⟨0⟩)

theorem hasNops : HasNops ((empty 0 0 0).after nops).listing := by
  have same : ((empty 0 0 0).after nops).listing =
      Listing.placeAll (List.replicate 3 (.plain ⟨0⟩)) (.empty 0) := rfl
  rw [same]
  have order := Listing.order_placeAll (List.replicate 3 (.plain ⟨0⟩)) (.empty 0)
  have stored := Listing.get?_placeAll (List.replicate 3 (.plain ⟨0⟩)) (.empty 0)
  refine ⟨order, fun h member => ?_⟩
  rw [order] at member
  obtain ⟨i, listed, found⟩ := exists_right_of_forall₂ stored member
  rw [found, List.eq_of_mem_replicate listed]

theorem HasNops.nodup (nops : HasNops l) : l.order.toList.Nodup := by
  rw [nops.order]
  decide

theorem HasNops.position?_eq (nops : HasNops l) {n : Nat} (inside : n < 3) :
    l.position? ⟨0, n⟩ = some n := by
  refine Listing.position?_eq nops.nodup ?_
  rw [nops.order]
  obtain rfl | rfl | rfl : n = 0 ∨ n = 1 ∨ n = 2 := by omega
  all_goals rfl

theorem encodeOne_nop {o : Offsets} {offset : Nat} (here : l.get? h = some (.plain ⟨0⟩))
    (start : o.starts[h]? = some offset) : l.encodeOne o h = .ok [0] := by
  have shaped : (Instruction.plain ⟨0⟩ : Instruction Int32).checkShape = .ok () := by
    decide +kernel
  have written : Instruction.encodeAt offset (.plain ⟨0⟩) = .ok [0] := by
    simp only [Instruction.encodeAt, shaped]
    rfl
  simp only [Listing.encodeOne, here, Listing.offsetOf, start, Instruction.mapM, bind, Except.bind,
    written]

theorem HasNops.encode (nops : HasNops l) : ∃ m, Listing.encode l = .ok [0, 0, 0] m := by
  have stored : List.Forall₂ (fun h i => l.get? h = some i) l.order.toList
      (List.replicate 3 (.plain ⟨0⟩)) := by
    have each := nops.stored
    rw [nops.order] at each ⊢
    exact .cons (each _ (by decide)) (.cons (each _ (by decide)) (.cons (each _ (by decide)) .nil))
  obtain ⟨o, laid, length, _, located⟩ := Listing.layOut_eq_ok (o := ⟨∅, 0⟩) stored nops.nodup
  refine ⟨_, Listing.encode_of_pieces [[0], [0], [0]] laid ?_ ?_⟩
  · rw [length]
    decide +kernel
  · rw [nops.order] at located ⊢
    obtain _ | ⟨⟨start, here⟩, _ | ⟨⟨start', here'⟩, _ | ⟨⟨start'', here''⟩, _⟩⟩⟩ := located
    exact .cons (encodeOne_nop here start) (.cons (encodeOne_nop here' start')
      (.cons (encodeOne_nop here'' start'') .nil))

theorem guardedNops_eq : guardedNops = ((empty 0 0 0).after nops).plus (.range firstTwo) := by
  have coherent := coherent_of_reachable (reachable_after nops (.empty 0 0 0))
  have listed : ∀ h ∈ firstTwo.handles, h ∈ [(⟨0, 0⟩ : Handle), ⟨0, 1⟩, ⟨0, 2⟩] := by decide
  have fits : (Entry.range firstTwo).Fits ((empty 0 0 0).after nops).listing := by
    refine ⟨fun h member => (coherent.listing.stored h).mp ?_, ?_⟩
    · rw [hasNops.order]
      exact listed h member
    · exact Listing.checkRange_eq_ok_iff.mpr
        ⟨0, 1, hasNops.position?_eq (by decide), hasNops.position?_eq (by decide), by decide⟩
  unfold guardedNops after
  rw [List.foldl_append]
  exact run_add fits

theorem reachable_guardedNops : guardedNops.Reachable := reachable_after _ (.empty 0 0 0)

structure Guards (b : Body) (r : ExceptionRange) : Prop where
  coherent : b.Coherent
  nops : HasNops b.listing
  range : b.handlers[0]? = some r
  attributes : b.attributes = []
  scopes : ∀ id, b.item? (.localVariable id) = none
  lines : ∀ id, b.item? (.lineNumber id) = none

theorem guards_guardedNops : guardedNops.Guards firstTwo := by
  have coherent := coherent_of_reachable reachable_guardedNops
  rw [guardedNops_eq] at coherent ⊢
  exact ⟨coherent, ⟨hasNops.order, hasNops.stored⟩, Std.TreeMap.getElem?_insert_self, rfl,
    fun _ => rfl, fun _ => rfl⟩

theorem guards_reversedNops : reversedNops.Guards ⟨⟨0, 2⟩, ⟨0, 1⟩, ⟨0, 2⟩, none⟩ := by
  have guards := guards_guardedNops
  have known : guardedNops.listing.contains ⟨0, 2⟩ := by
    refine (guards.coherent.listing.stored _).mp ?_
    rw [guards.nops.order]
    decide
  obtain ⟨_, redirected⟩ | ⟨unknown, _⟩ :=
    left_redirectTargeters ⟨0, 0⟩ ⟨0, 2⟩ guards.coherent
  · change Redirected ⟨0, 0⟩ ⟨0, 2⟩ guardedNops reversedNops at redirected
    refine ⟨coherent_of_reachable (reachable_after _ reachable_guardedNops), ⟨?_, ?_⟩, ?_,
      redirected.attributes.trans guards.attributes, ?_, ?_⟩
    · rw [redirected.order]
      exact guards.nops.order
    · intro h member
      rw [redirected.order] at member
      rw [redirected.get?_eq, guards.nops.stored h member]
      rfl
    · rw [redirected.handlers_eq, guards.range]
      rfl
    · intro id
      rw [redirected.swapped _ trivial, guards.scopes]
      rfl
    · intro id
      rw [redirected.swapped _ trivial, guards.lines]
      rfl
  · exact absurd known unknown

theorem Guards.exists_lower {r : ExceptionRange} (guards : b.Guards r) (p : Pool) :
    ∃ code, lower b p = .ok code p := by
  obtain ⟨m, encoded⟩ := guards.nops.encode
  refine guards.coherent.exists_lower_of_isEmpty encoded ?_ ?_
  · refine Std.TreeMap.isEmpty_iff_forall_not_mem.mpr fun id present => ?_
    have none := Option.map_eq_none_iff.mp (guards.lines id)
    simp [Std.TreeMap.mem_iff_isSome_getElem?, none] at present
  · refine Std.TreeMap.isEmpty_iff_forall_not_mem.mpr fun id present => ?_
    have none := Option.map_eq_none_iff.mp (guards.scopes id)
    simp [Std.TreeMap.mem_iff_isSome_getElem?, none] at present

/-- The range covers code as long as it is not redirected. -/
theorem forward_ranges_of_after_guardedNops : Pool.empty.Built ∧ (empty 0 0 0).Origin .empty ∧
    ∃ code, lower guardedNops .empty = .ok code .empty ∧
      (∀ e ∈ code.handlers, e.start < e.stop) ∧ ∃ c, lift 1 .empty code = .ok c := by
  have origin : (empty 0 0 0).Origin .empty := .empty 0 0 0
  obtain ⟨code, lowered⟩ := guards_guardedNops.exists_lower .empty
  have ⟨always, ranges⟩ :=
    forward_ranges_of_after .empty origin (nops ++ [.add (.range firstTwo)])
  obtain ⟨entries, lifted⟩ := ranges code .empty lowered
  have forward : guardedNops.RangesForward := by
    refine always.mpr (fun k c here => ?_) 4
    obtain member | member := List.mem_append.mp (List.mem_of_getElem? here)
    · rw [List.eq_of_mem_replicate member]
      exact fun reverses => reverses
    · rw [List.mem_singleton.mp member]
      exact fun reverses => reverses
  exact ⟨.empty, origin, code, lowered, entries.mpr forward, (lifted 1).mpr forward⟩

/-- Redirecting the start of a range behind its last instruction: nothing refuses it, the entry
that the range is lowered to covers no code, and what has been lowered cannot be lifted. -/
theorem range_fails_reversedNops : reversedNops.Reachable ∧
    (∃ r : ExceptionRange, reversedNops.handlers[0]? = some r ∧
      ¬ reversedNops.listing.InOrder r.start r.last) ∧
    ∃ code, lower reversedNops .empty = .ok code .empty ∧
      (∃ e ∈ code.handlers, ¬ e.start < e.stop) ∧ ∀ id c, lift id .empty code ≠ .ok c := by
  have guards := guards_reversedNops
  have nodup := guards.coherent.listing.nodup
  have backward : ¬ reversedNops.listing.InOrder ⟨0, 2⟩ ⟨0, 1⟩ := by
    rintro ⟨p, q, first, second, ordered⟩
    rw [guards.nops.position?_eq (by decide)] at first second
    cases first
    cases second
    exact absurd ordered (by decide)
  have reversed : ¬ reversedNops.RangesForward := fun forward => backward (forward 0 _ guards.range)
  obtain ⟨code, lowered⟩ := guards.exists_lower .empty
  obtain ⟨m, lowers⟩ := lowers_of_lower Pool.lawful_empty lowered
  refine ⟨reachable_after _ reachable_guardedNops, ⟨_, guards.range, backward⟩, code, lowered,
    ?_, fun id c lifted => reversed ?_⟩
  · by_contra none
    refine reversed ((entries_forward_iff nodup lowers).mp fun e member => ?_)
    by_contra backward
    exact none ⟨e, member, backward⟩
  · refine (exists_lift_iff Pool.lawful_empty nodup lowers ?_).mp ⟨c, lifted⟩
    rw [guards.attributes]
    exact fun a member => absurd member List.not_mem_nil

end Body

end JvmClass
