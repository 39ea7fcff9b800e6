/-!
Search by halving in an array that is sorted by a key.
`upTo` counts the entries whose key is at most a bound, `lastUpTo?` is the last of them,
and `at?` is that one when its key is the bound itself.
-/

namespace JvmClass.Search

variable {α : Type}

/-- Entries below `lo` have a key of at most `bound`, entries from `hi` on have a larger one. -/
def upToWithin (key : α → Nat) (xs : Array α) (bound lo hi : Nat) : Nat :=
  if lo < hi then
    let mid := (lo + hi) / 2
    match xs[mid]? with
    | none => lo
    | some x =>
      if key x ≤ bound then upToWithin key xs bound (mid + 1) hi
      else upToWithin key xs bound lo mid
  else lo
termination_by hi - lo

def upTo (key : α → Nat) (xs : Array α) (bound : Nat) : Nat :=
  upToWithin key xs bound 0 xs.size

def lastUpTo? (key : α → Nat) (xs : Array α) (bound : Nat) : Option α :=
  match upTo key xs bound with
  | 0 => none
  | n + 1 => xs[n]?

def at? (key : α → Nat) (xs : Array α) (k : Nat) : Option α :=
  (lastUpTo? key xs k).filter fun x => key x == k

end JvmClass.Search
