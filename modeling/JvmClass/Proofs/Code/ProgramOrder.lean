import JvmClass.Proofs.Code.Redirection
import JvmClass.Proofs.Code.Traces
import Mathlib.Order.Monotone.Basic

/-! Program order under edits.  Instructions move when others are put in or taken out, but those
that stay keep their order.  So a range of a body goes forward as long as its handles stay the
same, and only redirecting gives it other ones. -/

namespace JvmClass

namespace Listing

variable {entries : Targeter → List Handle} {l m : Listing} {h start last old new : Handle}
  {i : Instruction Handle} {p : Nat}

/-- The instructions of `l` that are in `m` stand there in the same order. -/
def KeepsOrder (l m : Listing) : Prop :=
  ∃ moved : Nat → Nat, Monotone moved ∧
    ∀ (k : Nat) h, l.order.toList[k]? = some h → m.contains h → m.order.toList[moved k]? = some h

theorem InOrder.kept (ordered : l.InOrder start last) (keeps : l.KeepsOrder m)
    (nodup : m.order.toList.Nodup) (first : m.contains start) (second : m.contains last) :
    m.InOrder start last := by
  obtain ⟨p, q, here, there, before⟩ := ordered
  obtain ⟨moved, monotone, stays⟩ := keeps
  have here' := stays p start (getElem?_of_position? here) first
  have there' := stays q last (getElem?_of_position? there) second
  exact ⟨moved p, moved q, position?_eq nodup here', position?_eq nodup there', monotone before⟩

theorem keepsOrder_of_order_eq (same : m.order = l.order) : l.KeepsOrder m :=
  ⟨fun k => k, monotone_id, fun k h here _ => by rwa [same]⟩

theorem getElem?_insertIdx_moved (xs : List Handle) (p k : Nat) (h : Handle) :
    (xs.insertIdx p h)[if k < p then k else k + 1]? = xs[k]? := by
  by_cases before : k < p
  · rw [if_pos before, List.getElem?_insertIdx, if_pos before]
  · rw [if_neg before, List.getElem?_insertIdx, if_neg (by omega), if_neg (by omega),
      Nat.add_sub_cancel]

theorem getElem?_eraseIdx_of_ne {xs : List Handle} {k : Nat} (other : k ≠ p) :
    (xs.eraseIdx p)[if k < p then k else k - 1]? = xs[k]? := by
  by_cases before : k < p
  · rw [if_pos before, List.getElem?_eraseIdx, if_pos before]
  · rw [if_neg before, List.getElem?_eraseIdx, if_neg (by omega), Nat.sub_add_cancel (by omega)]

theorem keepsOrder_place : l.KeepsOrder (l.place p i).2 := by
  refine ⟨fun k => if k < p then k else k + 1, fun j k before => ?_, fun k h here _ => ?_⟩
  · dsimp only
    split <;> split <;> omega
  · change (l.order.insertIdxIfInBounds p ⟨l.id, l.fresh⟩).toList[_]? = _
    rw [toList_insert, getElem?_insertIdx_moved]
    exact here

theorem keepsOrder_insertAt : l.KeepsOrder (left (insertAt p i) l) := by
  unfold left insertAt
  cases l.checkTargets i with
  | error e => exact keepsOrder_of_order_eq rfl
  | ok _ => exact keepsOrder_place

theorem keepsOrder_insertBefore : l.KeepsOrder (left (insertBefore h i) l) := by
  unfold left insertBefore
  cases l.position h with
  | error e => exact keepsOrder_of_order_eq rfl
  | ok p => exact keepsOrder_insertAt

theorem keepsOrder_insertAfter : l.KeepsOrder (left (insertAfter h i) l) := by
  unfold left insertAfter
  cases l.position h with
  | error e => exact keepsOrder_of_order_eq rfl
  | ok p => exact keepsOrder_insertAt

theorem order_replace : (left (replace h i) l).order = l.order := by
  unfold left replace
  cases l.get? h with
  | none => rfl
  | some j => cases l.checkTargets i <;> rfl

theorem keepsOrder_eraseIdx (gone : l.order.toList[p]? = some h) (absent : ¬ m.contains h)
    (order : m.order = l.order.eraseIdxIfInBounds p) : l.KeepsOrder m := by
  refine ⟨fun k => if k < p then k else k - 1, fun j k before => ?_, fun k h' here stays => ?_⟩
  · dsimp only
    split <;> split <;> omega
  · have other : k ≠ p := by
      rintro rfl
      cases gone.symm.trans here
      exact absent stays
    rw [order, Array.toList_eraseIdxIfInBounds, getElem?_eraseIdx_of_ne other]
    exact here

theorem keepsOrder_remove : l.KeepsOrder (left (remove h) l) := by
  unfold left
  cases found : l.position h with
  | error e =>
    rw [remove_of_unknown found]
    exact keepsOrder_of_order_eq rfl
  | ok p =>
    by_cases others : l.otherTargeters h = []
    · have gone := position_eq_ok found
      rw [remove_of_alone found others]
      cases stored : l.get? h with
      | none =>
        have absent : ¬ l.contains h := by simp [contains_iff, stored]
        exact keepsOrder_eraseIdx gone absent rfl
      | some i =>
        have absent : ¬ (l.without p h i).contains h := fun present =>
          ((contains_of_erase (l := l) rfl).mp present).1 rfl
        exact keepsOrder_eraseIdx gone absent rfl
    · rw [remove_of_targeted found others]
      exact keepsOrder_of_order_eq rfl

theorem order_updateTarget {branch : Handle} :
    (left (updateTarget branch old new) l).order = l.order := by
  unfold left updateTarget
  by_cases known : l.contains new
  · rw [if_pos known]
    cases l.get? branch with
    | none => rfl
    | some i =>
      dsimp only
      by_cases mentioned : i.targets.contains old
      · rw [if_pos mentioned]
      · rw [if_neg mentioned]
  · rw [if_neg known]

theorem order_redirectBranches : (left (redirectBranches old new) l).order = l.order :=
  leads_redirectBranches (R := fun l m => m.order = l.order) (fun _ => rfl)
    (fun _ _ _ first second => second.trans first) (fun _ _ => order_updateTarget) l

theorem order_resolve : (left resolve l).order = l.order := by
  unfold left resolve
  cases l.layout <;> rfl

theorem keepsOrder_run (c : Command) (l : Listing) : l.KeepsOrder (c.run l) := by
  cases c with
  | append i => exact keepsOrder_insertAt
  | insertBefore h i => exact keepsOrder_insertBefore
  | insertAfter h i => exact keepsOrder_insertAfter
  | replace h i => exact keepsOrder_of_order_eq order_replace
  | remove h => exact keepsOrder_remove
  | updateTarget branch old new => exact keepsOrder_of_order_eq order_updateTarget
  | redirectBranches old new => exact keepsOrder_of_order_eq order_redirectBranches
  | resolve => exact keepsOrder_of_order_eq order_resolve
  | encode =>
    change l.KeepsOrder (left Listing.encode l)
    rw [left_encode]
    exact keepsOrder_of_order_eq order_resolve

end Listing

namespace Body

variable {b c d : Body} {old new : Handle}

def RangesForward (b : Body) : Prop :=
  ∀ (id : Nat) (r : ExceptionRange), b.handlers[id]? = some r → b.listing.InOrder r.start r.last

/-- From `b` to `c` the instructions keep their order, and a range that was not there before goes
forward. -/
structure KeepsRanges (b c : Body) : Prop where
  order : b.listing.KeepsOrder c.listing
  ranges : ∀ (id : Nat) (r : ExceptionRange), c.handlers[id]? = some r →
    b.handlers[id]? = some r ∨ c.listing.InOrder r.start r.last
  attributes : c.attributes = b.attributes

structure SameRanges (b c : Body) : Prop where
  order : c.listing.order = b.listing.order
  handlers : c.handlers = b.handlers
  attributes : c.attributes = b.attributes

theorem SameRanges.refl (b : Body) : b.SameRanges b := ⟨rfl, rfl, rfl⟩

theorem SameRanges.trans (first : b.SameRanges c) (second : c.SameRanges d) : b.SameRanges d where
  order := second.order.trans first.order
  handlers := second.handlers.trans first.handlers
  attributes := second.attributes.trans first.attributes

theorem SameRanges.keeps (same : b.SameRanges c) : b.KeepsRanges c where
  order := Listing.keepsOrder_of_order_eq same.order
  ranges _ _ found := .inl (same.handlers ▸ found)
  attributes := same.attributes

theorem RangesForward.kept (forward : b.RangesForward) (keeps : b.KeepsRanges c)
    (coherent : c.Coherent) : c.RangesForward := by
  intro id r found
  obtain old | new := keeps.ranges id r found
  · obtain ⟨first, second, _⟩ := coherent.exact.handlers id r found
    exact (forward id r old).kept keeps.order coherent.listing.nodup first second
  · exact new

theorem keepsRanges_onListing (c : Listing.Command) (b : Body) :
    b.KeepsRanges (left (onListing c.edit) b) := by
  rw [left_onListing]
  exact ⟨Listing.keepsOrder_run c b.listing, fun _ _ found => .inl found, rfl⟩

theorem sameRanges_enter {hs : List Handle} {make : Nat → Targeter} {store : Nat → Body → Body}
    (stored : ∀ id c, SameRanges c (store id c)) :
    b.SameRanges (left (enter hs make store) b) := by
  unfold left
  obtain ⟨e, run⟩ | ⟨_, run⟩ := enter_cases hs make store b
  · rw [run]
    exact ⟨rfl, rfl, rfl⟩
  · rw [run]
    have entered : b.SameRanges (entered hs (make b.fresh) b) := ⟨rfl, rfl, rfl⟩
    exact entered.trans (stored b.fresh _)

theorem keepsRanges_add (e : Entry) (b : Body) : b.KeepsRanges (left e.add b) := by
  have run := add_eq e b
  cases checked : e.check b.listing with
  | error fault =>
    rw [checked] at run
    unfold left
    rw [run]
    exact (SameRanges.refl b).keeps
  | ok _ =>
    rw [checked] at run
    have same : left e.add b =
        left (enter e.handles (fun id => e.targeter id) (fun id => e.store id)) b := by
      unfold left
      rw [run]
    rw [same]
    cases e with
    | scope v =>
      have stored (id : Nat) (c : Body) : c.SameRanges ((Entry.scope v).store id c) :=
        ⟨rfl, rfl, rfl⟩
      exact (sameRanges_enter stored).keeps
    | line n =>
      have stored (id : Nat) (c : Body) : c.SameRanges ((Entry.line n).store id c) :=
        ⟨rfl, rfl, rfl⟩
      exact (sameRanges_enter stored).keeps
    | range r =>
      unfold left
      obtain ⟨fault, run⟩ | ⟨_, run⟩ := enter_cases (Entry.range r).handles
        (fun id => (Entry.range r).targeter id) (fun id => (Entry.range r).store id) b
      · rw [run]
        exact SameRanges.keeps ⟨rfl, rfl, rfl⟩
      · rw [run]
        refine ⟨Listing.keepsOrder_of_order_eq rfl, fun id r' found => ?_, rfl⟩
        change (b.handlers.insert b.fresh r)[id]? = some r' at found
        rw [Std.TreeMap.getElem?_insert] at found
        split at found
        · cases found
          exact .inr (Listing.checkRange_eq_ok_iff.mp checked)
        · exact .inl found

theorem order_unregister (hs : List Handle) (t : Targeter) (l : Listing) :
    (unregister hs t l).order = l.order := by
  rw [unregister_eq]

theorem keepsRanges_removeHandler (id : Nat) (b : Body) : b.KeepsRanges (b.removeHandler id).2 := by
  unfold removeHandler
  cases b.handlers[id]? with
  | none => exact (SameRanges.refl b).keeps
  | some r =>
    refine ⟨Listing.keepsOrder_of_order_eq (order_unregister _ _ _), fun k r' found => .inl ?_, rfl⟩
    change (b.handlers.erase id)[k]? = some r' at found
    rw [Std.TreeMap.getElem?_erase] at found
    split at found
    · cases found
    · exact found

theorem sameRanges_removeVariable (id : Nat) (b : Body) :
    b.SameRanges (b.removeVariable id).2 := by
  unfold removeVariable
  cases b.scopes[id]? with
  | none => exact .refl b
  | some v => exact ⟨order_unregister _ _ _, rfl, rfl⟩

theorem sameRanges_removeLine (id : Nat) (b : Body) : b.SameRanges (b.removeLine id).2 := by
  unfold removeLine
  cases b.lines[id]? with
  | none => exact .refl b
  | some n => exact ⟨order_unregister _ _ _, rfl, rfl⟩

theorem sameRanges_removeVariables (b : Body) : b.SameRanges b.removeVariables := by
  unfold removeVariables
  generalize b.scopes.keys = ids
  induction ids generalizing b with
  | nil => exact .refl b
  | cons id ids ih => exact (sameRanges_removeVariable id b).trans (ih _)

/-- Redirecting makes a range end before it starts. -/
def Command.Reverses (b : Body) : Command → Prop
  | redirectTargeters old new => b.listing.contains new ∧
      ∃ (id : Nat) (r : ExceptionRange), b.handlers[id]? = some r ∧ ¬ b.listing.InOrder
        (Listing.swapHandle old new r.start) (Listing.swapHandle old new r.last)
  | _ => False

theorem left_redirectTargeters (old new : Handle) (coherent : b.Coherent) :
    b.listing.contains new ∧ Redirected old new b (left (redirectTargeters old new) b) ∨
      ¬ b.listing.contains new ∧ left (redirectTargeters old new) b = b := by
  unfold left
  by_cases known : b.listing.contains new
  · obtain ⟨c, run⟩ : ∃ c, redirectTargeters old new b = .ok () c :=
      exists_redirectTargeters coherent known
    rw [run]
    exact .inl ⟨known, swaps_redirectTargeters coherent run⟩
  · refine .inr ⟨known, ?_⟩
    unfold redirectTargeters
    rw [if_neg known]

theorem Swaps.inOrder_iff (redirected : Redirected old new b c) {start last : Handle} :
    c.listing.InOrder start last ↔ b.listing.InOrder start last := by
  unfold Listing.InOrder Listing.position?
  rw [redirected.order]

theorem forward_redirectTargeters_iff (coherent : b.Coherent) (forward : b.RangesForward) :
    (left (redirectTargeters old new) b).RangesForward ↔
      ¬ (Command.redirectTargeters old new).Reverses b := by
  obtain ⟨known, redirected⟩ | ⟨unknown, same⟩ :=
    left_redirectTargeters old new coherent
  · constructor
    · rintro ordered ⟨_, id, r, found, reversed⟩
      have after := redirected.handlers_eq id
      rw [found, Option.map_some] at after
      exact reversed (redirected.inOrder_iff.mp (ordered id _ after))
    · intro orderly id r' after
      rw [redirected.handlers_eq, Option.map_eq_some_iff] at after
      obtain ⟨r, found, rfl⟩ := after
      rw [redirected.inOrder_iff]
      by_contra reversed
      exact orderly ⟨known, id, r, found, reversed⟩
  · rw [same]
    exact iff_of_true forward fun reverses => unknown reverses.1

theorem keepsRanges_or_redirects (c : Command) (b : Body) :
    b.KeepsRanges (c.run b) ∧ ¬ c.Reverses b ∨ ∃ old new, c = .redirectTargeters old new := by
  cases c with
  | listing c => exact .inl ⟨keepsRanges_onListing c b, fun reverses => reverses⟩
  | add e => exact .inl ⟨keepsRanges_add e b, fun reverses => reverses⟩
  | removeHandler id => exact .inl ⟨keepsRanges_removeHandler id b, fun reverses => reverses⟩
  | removeVariable id =>
    exact .inl ⟨(sameRanges_removeVariable id b).keeps, fun reverses => reverses⟩
  | removeLine id => exact .inl ⟨(sameRanges_removeLine id b).keeps, fun reverses => reverses⟩
  | removeVariables => exact .inl ⟨(sameRanges_removeVariables b).keeps, fun reverses => reverses⟩
  | redirectTargeters old new => exact .inr ⟨old, new, rfl⟩

theorem forward_run_iff (c : Command) (coherent : b.Coherent) (forward : b.RangesForward) :
    (c.run b).RangesForward ↔ ¬ c.Reverses b := by
  obtain ⟨keeps, orderly⟩ | ⟨old, new, rfl⟩ := keepsRanges_or_redirects c b
  · exact iff_of_true (forward.kept keeps (follows_run c coherent).coherent) orderly
  · exact forward_redirectTargeters_iff coherent forward

theorem attributes_run (c : Command) (coherent : b.Coherent) :
    (c.run b).attributes = b.attributes := by
  obtain ⟨keeps, _⟩ | ⟨old, new, rfl⟩ := keepsRanges_or_redirects c b
  · exact keeps.attributes
  · obtain ⟨_, redirected⟩ | ⟨_, same⟩ :=
      left_redirectTargeters old new coherent
    · exact redirected.attributes
    · exact congrArg Body.attributes same

theorem attributes_after (cs : List Command) (coherent : b.Coherent) :
    (b.after cs).attributes = b.attributes := by
  induction cs generalizing b with
  | nil => rfl
  | cons c cs ih =>
    exact (ih (follows_run c coherent).coherent).trans (attributes_run c coherent)

theorem after_take_succ {c : Command} {cs : List Command} {k : Nat} (here : cs[k]? = some c) :
    b.after (cs.take (k + 1)) = c.run (b.after (cs.take k)) := by
  unfold after
  rw [List.take_add_one, here, Option.toList_some, List.foldl_append]
  rfl

theorem forward_after_iff (cs : List Command) (coherent : b.Coherent) (forward : b.RangesForward) :
    (∀ k, (b.after (cs.take k)).RangesForward) ↔
      ∀ (k : Nat) c, cs[k]? = some c → ¬ c.Reverses (b.after (cs.take k)) := by
  have step {k : Nat} {c : Command} (here : cs[k]? = some c)
      (ordered : (b.after (cs.take k)).RangesForward) :
      (b.after (cs.take (k + 1))).RangesForward ↔ ¬ c.Reverses (b.after (cs.take k)) := by
    rw [after_take_succ here]
    exact forward_run_iff c (follows_after (cs.take k) coherent).coherent ordered
  constructor
  · intro always k c here
    exact (step here (always k)).mp (always (k + 1))
  · intro orderly k
    induction k with
    | zero => exact forward
    | succ k ih =>
      cases here : cs[k]? with
      | some c => exact (step here ih).mpr (orderly k c here)
      | none => rwa [List.take_add_one, here, Option.toList_none, List.append_nil]

end Body

end JvmClass
