import JvmClass.Search
import JvmClass.Total

/-!
Sequences addressed by slot.  Every entry starts at the slot after the end of the entry before
it, so an entry of width two leaves a slot that nothing starts at.  Constant pools, whose first
slot is 1, and operand stacks are laid out in this way.
-/

namespace JvmClass

class Width (α : Type) where
  width : α → Nat

/-- The entries with the slot each starts at, and the slot after the last one. -/
structure Slotted (α : Type) where
  first : Nat
  next : Nat
  entries : Array (Nat × α)
  deriving DecidableEq, Repr

namespace Slotted

open Width (width)

variable {α : Type}

def startingAt (first : Nat) : Slotted α := ⟨first, first, #[]⟩

def size (v : Slotted α) : Nat := v.entries.size

def isEmpty (v : Slotted α) : Bool := v.entries.isEmpty

def used (v : Slotted α) : Nat := v.next - v.first

def put [Width α] : Slotted α → α → Nat × Slotted α
  | ⟨first, next, entries⟩, a => (next, ⟨first, next + width a, entries.push (next, a)⟩)

def putAll [Width α] (v : Slotted α) (xs : List α) : Slotted α :=
  xs.foldl (fun w a => (w.put a).2) v

def pop? : Slotted α → Option (α × Slotted α)
  | ⟨first, _, entries⟩ =>
    match entries.back? with
    | none => none
    | some (slot, a) => some (a, ⟨first, slot, entries.pop⟩)

def last? (v : Slotted α) : Option α := v.entries.back?.map (·.2)

def clear (v : Slotted α) : Slotted α := startingAt v.first

def at? (v : Slotted α) (slot : Nat) : Option α :=
  (Search.at? (·.1) v.entries slot).map (·.2)

def toList (v : Slotted α) : List α := v.entries.toList.map (·.2)

/-- How many slot numbers there are: they are words of 64 bits. -/
def slotCount : Nat := UInt64.size

/-- Puts an entry behind the others where numbers may run out.  A sum that is no slot number starts
over at 0; short of that this is `put`, which serves for sequences that stay far below. -/
def push [Width α] (v : Slotted α) (a : α) : Nat × Slotted α :=
  match v.put a with
  | (slot, w) => (slot, { w with next := w.next % slotCount })

def extend [Width α] (v : Slotted α) (xs : List α) : Slotted α :=
  xs.foldl (fun w a => (w.push a).2) v

def span (v : Slotted α) : Nat := (v.next + slotCount - v.first) % slotCount

/-- Two sequences are equal when they hold equal entries at equal slots. -/
instance [BEq α] : BEq (Slotted α) := ⟨fun v w => v.entries == w.entries⟩

def describe (entry : α → String) (v : Slotted α) : String :=
  "[" ++ ", ".intercalate (v.entries.toList.map fun (slot, a) => s!"#{slot} = {entry a}") ++ "]"

@[simp] theorem toList_startingAt (first : Nat) : (startingAt first : Slotted α).toList = [] := rfl

@[simp] theorem toList_put [Width α] (v : Slotted α) (a : α) :
    (v.put a).2.toList = v.toList ++ [a] := by
  simp [put, toList]

@[simp] theorem next_put [Width α] (v : Slotted α) (a : α) :
    (v.put a).2.next = v.next + width a := rfl

@[simp] theorem toList_clear (v : Slotted α) : v.clear.toList = [] := rfl

@[simp] theorem toList_putAll [Width α] (v : Slotted α) (xs : List α) :
    (v.putAll xs).toList = v.toList ++ xs := by
  induction xs generalizing v with
  | nil => simp [putAll]
  | cons a xs ih => simpa [putAll] using ih (v.put a).2

theorem putAll_concat [Width α] (v : Slotted α) (xs : List α) (a : α) :
    v.putAll (xs ++ [a]) = ((v.putAll xs).put a).2 := by
  simp [putAll]

@[simp] theorem first_putAll [Width α] (v : Slotted α) (xs : List α) :
    (v.putAll xs).first = v.first := by
  induction xs generalizing v with
  | nil => rfl
  | cons a xs ih => exact ih (v.put a).2

theorem pop?_put [Width α] (v : Slotted α) (a : α) : (v.put a).2.pop? = some (a, v) := by
  simp [put, pop?]

@[simp] theorem next_putAll [Width α] (v : Slotted α) (xs : List α) :
    (v.putAll xs).next = v.next + total width xs := by
  induction xs generalizing v with
  | nil => rfl
  | cons a xs ih =>
    change ((v.put a).2.putAll xs).next = _
    rw [ih, next_put, total_cons, Nat.add_assoc]

def ofList [Width α] (first : Nat) (xs : List α) : Slotted α := (startingAt first).putAll xs

@[simp] theorem toList_ofList [Width α] (first : Nat) (xs : List α) :
    (ofList first xs).toList = xs := by
  simp [ofList]

theorem next_ofList [Width α] (first : Nat) (xs : List α) :
    (ofList first xs).next = first + total width xs := next_putAll ..

theorem put_ofList [Width α] (first : Nat) (xs : List α) (a : α) :
    (ofList first xs).put a = ((ofList first xs).next, ofList first (xs ++ [a])) := by
  rw [ofList, ofList, putAll_concat]
  rfl

theorem pop?_concat [Width α] (first : Nat) (xs : List α) (a : α) :
    (ofList first (xs ++ [a])).pop? = some (a, ofList first xs) := by
  rw [ofList, putAll_concat]
  exact pop?_put _ a

/-- Entries one behind the other from slot 0 on. -/
def IsStack [Width α] (v : Slotted α) : Prop := v = ofList 0 v.toList

theorem isStack_ofList [Width α] (xs : List α) : (ofList 0 xs).IsStack := by
  rw [IsStack, toList_ofList]

namespace IsStack

variable [Width α] {v w : Slotted α} {a : α}

protected theorem put (stack : v.IsStack) (a : α) : (v.put a).2.IsStack := by
  rw [IsStack, toList_put, ofList, putAll_concat, ← ofList, ← stack]

protected theorem pop (stack : v.IsStack) (popped : v.pop? = some (a, w)) : w.IsStack := by
  rw [stack] at popped
  obtain nil | ⟨xs, b, concat⟩ := List.eq_nil_or_concat v.toList
  · rw [nil] at popped
    cases popped
  · rw [concat, List.concat_eq_append, pop?_concat] at popped
    cases popped
    exact isStack_ofList xs

theorem clear_putAll (stack : v.IsStack) (xs : List α) : (v.clear.putAll xs).IsStack := by
  rw [stack, clear, ofList, first_putAll]
  exact isStack_ofList xs

end IsStack

end Slotted

end JvmClass
