/-!
Totals: a measure added up over a list, as the slots of parameters and of operand stacks are.
`total_set_add` compares the totals before and after one entry changes.
-/

namespace JvmClass

variable {α : Type}

/-- The sum of the measures.  The zero is named, because there may be several in scope. -/
def total (measure : α → Nat) (xs : List α) : Nat := @List.sum Nat _ ⟨0⟩ (xs.map measure)

@[simp] theorem total_nil (measure : α → Nat) : total measure [] = 0 := rfl

@[simp] theorem total_cons (measure : α → Nat) (x : α) (xs : List α) :
    total measure (x :: xs) = measure x + total measure xs := rfl

@[simp] theorem total_append (measure : α → Nat) (xs ys : List α) :
    total measure (xs ++ ys) = total measure xs + total measure ys := by
  rw [total, List.map_append]
  exact List.sum_append_nat

theorem total_map {β : Type} (f : α → β) (measure : β → Nat) (xs : List α) :
    total measure (xs.map f) = total (fun x => measure (f x)) xs := by
  rw [total, List.map_map]
  rfl

theorem total_replicate (measure : α → Nat) (n : Nat) (x : α) :
    total measure (List.replicate n x) = n * measure x := by
  rw [total, List.map_replicate]
  exact List.sum_replicate_nat

theorem total_reverse (measure : α → Nat) (xs : List α) :
    total measure xs.reverse = total measure xs := by
  rw [total, List.map_reverse]
  exact List.sum_reverse_nat _

theorem total_set_add (measure : α → Nat) {xs : List α} {i : Nat} {old : α} (new : α)
    (h : xs[i]? = some old) :
    total measure (xs.set i new) + measure old = total measure xs + measure new := by
  induction xs generalizing i with
  | nil => simp at h
  | cons x xs ih =>
    cases i with
    | zero =>
      simp only [List.getElem?_cons_zero, Option.some.injEq] at h
      subst h
      simp only [List.set_cons_zero, total_cons]
      omega
    | succ i =>
      simp only [List.getElem?_cons_succ] at h
      have := ih h
      simp only [List.set_cons_succ, total_cons]
      omega

end JvmClass
