import JvmClass.Constant.Basic
import JvmClass.Proofs.Search
import JvmClass.Total
import Mathlib.Data.List.Induction

/-! Sequences by slot are lists.  Whatever is pushed, popped, put behind or cleared, a sequence is its
items laid out from the first slot on, each behind those before it, as long as slot numbers do not run
out.  So an item is found at a slot just when the widths before it add up to the slot, and a pop leads
back to where its item was pushed.  A push that needs a number past the last starts over at 0, and then
the sequence is no list from its first slot on. -/

namespace JvmClass.Slotted

open Width (width)

variable {α : Type} [Width α] {v : Slotted α} {first s k : Nat} {a : α} {as : List α}

theorem push_eq_put (room : v.next + width a < slotCount) : v.push a = v.put a := by
  change (v.next, Slotted.mk v.first ((v.next + width a) % slotCount) _) = _
  rw [Nat.mod_eq_of_lt room]
  rfl

theorem extend_eq_putAll (room : v.next + total width as < slotCount) :
    v.extend as = v.putAll as := by
  induction as generalizing v with
  | nil => rfl
  | cons a as ih =>
    rw [total_cons, ← Nat.add_assoc] at room
    change (v.push a).2.extend as = (v.put a).2.putAll as
    rw [push_eq_put (Nat.lt_of_le_of_lt (Nat.le_add_right ..) room), ih room]

omit [Width α] in
theorem span_eq_used (order : v.first ≤ v.next) (room : v.next < slotCount) : v.span = v.used := by
  rw [span, used, Nat.sub_add_comm order, Nat.add_mod_right]
  exact Nat.mod_eq_of_lt (Nat.lt_of_le_of_lt (Nat.sub_le ..) room)

theorem size_entries_ofList (first : Nat) (as : List α) : (ofList first as).entries.size = as.length := by
  have entries := congrArg List.length (toList_ofList first as)
  rwa [toList, List.length_map, Array.length_toList] at entries

def slotOf (first : Nat) (as : List α) (k : Nat) : Nat := first + total width (as.take k)

theorem getElem?_ofList :
    (ofList first as).entries[k]? = as[k]?.map fun a => (slotOf first as k, a) := by
  induction as using List.reverseRecOn with
  | nil => simp [ofList, putAll, startingAt]
  | append_singleton as a ih =>
    have entries : (ofList first (as ++ [a])).entries =
        (ofList first as).entries.push (first + total width as, a) := by
      rw [← next_ofList, ofList, putAll_concat]
      rfl
    rw [entries, Array.getElem?_push, size_entries_ofList]
    obtain before | rfl | after := Nat.lt_trichotomy k as.length
    · rw [if_neg (Nat.ne_of_lt before), ih, List.getElem?_append_left before, slotOf, slotOf,
        List.take_append_of_le_length (Nat.le_of_lt before)]
    · simp [slotOf]
    · have outside : (as ++ [a]).length ≤ k := by rwa [List.length_append]
      rw [if_neg (Nat.ne_of_gt after), ih, List.getElem?_eq_none (Nat.le_of_lt after),
        List.getElem?_eq_none outside]
      rfl

theorem slotOf_mono {j : Nat} (before : j ≤ k) : slotOf first as j ≤ slotOf first as k := by
  obtain ⟨n, rfl⟩ := Nat.exists_eq_add_of_le before
  simp [slotOf, List.take_add]

theorem slotOf_succ (here : as[k]? = some a) :
    slotOf first as (k + 1) = slotOf first as k + width a := by
  simp [slotOf, List.take_add_one, here, Nat.add_assoc]

theorem slotOf_length : slotOf first as as.length = (ofList first as).next := by
  rw [slotOf, List.take_length, next_ofList]

def Solid (as : List α) : Prop := ∀ a ∈ as, 1 ≤ width a

theorem slotOf_lt (solid : Solid as) {j : Nat} (here : as[j]? = some a) (before : j < k) :
    slotOf first as j < slotOf first as k := by
  have wide := solid a (List.mem_of_getElem? here)
  have later : slotOf first as (j + 1) ≤ slotOf first as k := slotOf_mono before
  rw [slotOf_succ here] at later
  omega

theorem increasing_ofList (first : Nat) (solid : Solid as) :
    Search.Increasing (·.1) (ofList first as).entries := by
  refine List.pairwise_iff_getElem.mpr fun i j inside inside' before => ?_
  have here : (ofList first as).entries[i]? = _ := getElem?_ofList
  have there : (ofList first as).entries[j]? = _ := getElem?_ofList
  rw [Array.getElem?_eq_getElem (by simpa using inside)] at here
  rw [Array.getElem?_eq_getElem (by simpa using inside')] at there
  obtain ⟨x, listed, same⟩ := Option.map_eq_some_iff.mp here.symm
  obtain ⟨y, _, same'⟩ := Option.map_eq_some_iff.mp there.symm
  rw [Array.getElem_toList, Array.getElem_toList, ← same, ← same']
  exact slotOf_lt solid listed before

/-- Searching finds the items at the slots that they start at, and nothing at other slots. -/
theorem at?_ofList (solid : Solid as) :
    (ofList first as).at? s = some a ↔ ∃ k, as[k]? = some a ∧ s = slotOf first as k := by
  have found (entry : Nat × α) := Search.at?_eq_some_iff (k := s) (x := entry)
    (increasing_ofList first solid)
  unfold at?
  simp only [Option.map_eq_some_iff, found, Array.mem_iff_getElem?, getElem?_ofList]
  constructor
  · rintro ⟨_, ⟨⟨k, b, listed, rfl⟩, rfl⟩, rfl⟩
    exact ⟨k, listed, rfl⟩
  · rintro ⟨k, listed, rfl⟩
    exact ⟨_, ⟨⟨k, a, listed, rfl⟩, rfl⟩, rfl⟩

theorem at?_within (solid : Solid as) (here : as[k]? = some a) (start : slotOf first as k < s)
    (stop : s < slotOf first as k + width a) : (ofList first as).at? s = none := by
  refine Option.eq_none_iff_forall_ne_some.mpr fun b found => ?_
  obtain ⟨j, _, rfl⟩ := (at?_ofList solid).mp found
  obtain before | after := Nat.lt_or_ge k j
  · have later : slotOf first as (k + 1) ≤ slotOf first as j := slotOf_mono before
    rw [slotOf_succ here] at later
    omega
  · have earlier : slotOf first as j ≤ slotOf first as k := slotOf_mono after
    omega

theorem at?_outside (solid : Solid as) (outside : s < first ∨ (ofList first as).next ≤ s) :
    (ofList first as).at? s = none := by
  refine Option.eq_none_iff_forall_ne_some.mpr fun b found => ?_
  obtain ⟨j, listed, rfl⟩ := (at?_ofList solid).mp found
  obtain below | beyond := outside
  · exact absurd below (Nat.not_lt_of_le (Nat.le_add_right ..))
  · have inside := (List.getElem?_eq_some_iff.mp listed).1
    have less : slotOf first as j < slotOf first as as.length := slotOf_lt solid listed inside
    rw [slotOf_length] at less
    omega

inductive Command (α : Type) where
  | push (a : α)
  | pop
  | extend (as : List α)
  | clear

namespace Command

def items : Command α → List α
  | push a => [a]
  | extend as => as
  | pop | clear => []

def run : Command α → Slotted α → Slotted α
  | push a, v => (v.push a).2
  | pop, v => v.pop?.elim v (·.2)
  | extend as, v => v.extend as
  | clear, v => v.clear

def onList : Command α → List α → List α
  | push a, as => as ++ [a]
  | pop, as => as.dropLast
  | extend bs, as => as ++ bs
  | clear, _ => []

theorem run_ofList (x : Command α) (room : first + total width (x.onList as) < slotCount) :
    x.run (ofList first as) = ofList first (x.onList as) := by
  cases x with
  | push a =>
    have next : (ofList first as).next + width a < slotCount := by
      rw [onList, total_append, total_cons, total_nil] at room
      rw [next_ofList]
      omega
    exact congrArg Prod.snd ((push_eq_put next).trans (put_ofList first as a))
  | pop =>
    induction as using List.reverseRecOn with
    | nil => rfl
    | append_singleton as a _ =>
      change (ofList first (as ++ [a])).pop?.elim _ _ = ofList first (as ++ [a]).dropLast
      rw [pop?_concat, List.dropLast_concat]
      rfl
  | extend bs =>
    have next : (ofList first as).next + total width bs < slotCount := by
      rwa [next_ofList, Nat.add_assoc, ← total_append]
    exact (extend_eq_putAll next).trans List.foldl_append.symm
  | clear => exact congrArg startingAt (first_putAll (startingAt first) as)

theorem solid_onList {x : Command α} (solid : Solid as) (items : Solid x.items) :
    Solid (x.onList as) := by
  cases x with
  | push a | extend bs =>
    exact fun b member => (List.mem_append.mp member).elim (solid b) (items b)
  | pop => exact fun b member => solid b (List.dropLast_subset as member)
  | clear => exact fun b member => absurd member List.not_mem_nil

end Command

def after (v : Slotted α) (xs : List (Command α)) : Slotted α := xs.foldl (fun v x => x.run v) v

def listAfter (as : List α) (xs : List (Command α)) : List α := xs.foldl (fun as x => x.onList as) as

/-- Slot numbers last: before and after every command the slot behind all items has one. -/
def Fits (first : Nat) (as : List α) (xs : List (Command α)) : Prop :=
  ∀ n, first + total width (listAfter as (xs.take n)) < slotCount

variable {xs : List (Command α)}

theorem fits_nil_iff : Fits first as [] ↔ first + total width as < slotCount := by
  simp [Fits, listAfter]

theorem fits_cons_iff {x : Command α} :
    Fits first as (x :: xs) ↔ first + total width as < slotCount ∧ Fits first (x.onList as) xs := by
  constructor
  · intro fits
    exact ⟨fits 0, fun n => fits (n + 1)⟩
  · rintro ⟨now, later⟩ n
    cases n with
    | zero => exact now
    | succ n => exact later n

theorem Fits.finally (fits : Fits first as xs) :
    first + total width (listAfter as xs) < slotCount := by
  have all := fits xs.length
  rwa [List.take_length] at all

theorem after_ofList (fits : Fits first as xs) :
    (ofList first as).after xs = ofList first (listAfter as xs) := by
  induction xs generalizing as with
  | nil => rfl
  | cons x xs ih =>
    change (x.run (ofList first as)).after xs = _
    have later := (fits_cons_iff.mp fits).2
    rw [x.run_ofList (later 0), ih later]
    rfl

theorem solid_listAfter (solid : Solid as) (items : ∀ x ∈ xs, Solid x.items) :
    Solid (listAfter as xs) := by
  induction xs generalizing as with
  | nil => exact solid
  | cons x xs ih =>
    obtain ⟨here, later⟩ := List.forall_mem_cons.mp items
    exact ih (Command.solid_onList solid here) later

/-- A sequence that cannot be told from a plain list with a first slot. -/
structure IsList (v : Slotted α) (first : Nat) (as : List α) : Prop where
  toList : v.toList = as
  size : v.size = as.length
  starts : ∀ k, v.entries[k]? = as[k]?.map fun a => (slotOf first as k, a)
  next : v.next = first + total width as
  span : v.span = v.next - first
  push : ∀ a, (v.push a).1 = v.next
  pop : v.pop?.map (·.1) = as.getLast?
  /-- Whatever happens above an item, popping it leads back to where it was pushed. -/
  restores : ∀ a xs, Fits first as (.push a :: xs) → listAfter as (.push a :: xs) = as ++ [a] →
    (v.after (.push a :: xs)).pop? = some (a, v)
  at? : ∀ s a, v.at? s = some a ↔ ∃ k, as[k]? = some a ∧ s = slotOf first as k
  within : ∀ k a s, as[k]? = some a → slotOf first as k < s → s < slotOf first as k + width a →
    v.at? s = none
  outside : ∀ s, s < first ∨ v.next ≤ s → v.at? s = none

theorem isList_ofList (solid : Solid as) (room : first + total width as < slotCount) :
    (ofList first as).IsList first as where
  toList := toList_ofList first as
  size := size_entries_ofList first as
  starts _ := getElem?_ofList
  next := next_ofList first as
  span := by
    have origin : (ofList first as).first = first := first_putAll (startingAt first) as
    have order : (ofList first as).first ≤ (ofList first as).next := by
      rw [origin, next_ofList]
      exact Nat.le_add_right ..
    rw [← next_ofList] at room
    rw [span_eq_used order room, used, origin]
  push _ := rfl
  pop := by
    induction as using List.reverseRecOn with
    | nil => rfl
    | append_singleton as a _ => rw [pop?_concat, List.getLast?_concat, Option.map_some]
  restores a xs fits same := by rw [after_ofList fits, same, pop?_concat]
  at? _ _ := at?_ofList solid
  within _ _ _ := at?_within solid
  outside _ := at?_outside solid

/-- Whatever is done to a sequence while slot numbers last, it is the plain list to which the same was
done. -/
theorem isList_after (items : ∀ x ∈ xs, Solid x.items) (fits : Fits first [] xs) :
    ((startingAt first).after xs).IsList first (listAfter [] xs) := by
  change ((ofList first []).after xs).IsList first (listAfter [] xs)
  rw [after_ofList fits]
  exact isList_ofList (solid_listAfter (List.forall_mem_nil _) items) fits.finally

/-- Constants at the last slots there are: of two wide ones the second is given up again. -/
theorem isList_after_wide :
    let first := slotCount - 5
    let xs : List (Command Constant) :=
      [.push (.integer 7), .clear, .extend [.long 1, .double 2], .pop, .push (.integer 3)]
    (∀ x ∈ xs, Solid x.items) ∧ Fits first [] xs ∧
      ((startingAt first).after xs).IsList first [.long 1, .integer 3] := by
  intro first xs
  have items : ∀ x ∈ xs, Solid x.items := by simp [xs, Solid, Command.items, width]
  have fits : Fits first [] xs := by
    simp only [xs, fits_cons_iff, fits_nil_iff]
    decide
  exact ⟨items, fits, isList_after items fits⟩

/-- One constant at the last slot is too many: the slot behind it has no number. -/
theorem not_isList_last :
    let xs : List (Command Constant) := [.push (.integer 7)]
    (∀ x ∈ xs, Solid x.items) ∧
      ¬ ((startingAt (slotCount - 1)).after xs).IsList (slotCount - 1) (listAfter [] xs) := by
  intro xs
  refine ⟨by simp [xs, Solid, Command.items, width], fun isList => ?_⟩
  have wrapped : ((startingAt (slotCount - 1)).after xs).next = 0 := by decide
  have next := wrapped.symm.trans isList.next
  exact absurd next (by decide)

end JvmClass.Slotted
