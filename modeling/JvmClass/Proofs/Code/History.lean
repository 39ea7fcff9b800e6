import JvmClass.Proofs.Code.Linking

/-! The listings that there can be: an empty one or one made of a code array, followed by any
edits.  All of them are coherent. -/

namespace JvmClass.Listing

inductive Command where
  | append (i : Instruction Handle)
  | insertBefore (h : Handle) (i : Instruction Handle)
  | insertAfter (h : Handle) (i : Instruction Handle)
  | replace (h : Handle) (i : Instruction Handle)
  | remove (h : Handle)
  | updateTarget (branch old new : Handle)
  | redirectBranches (old new : Handle)
  | resolve
  | encode

def Command.Result : Command → Type
  | append _ | insertBefore _ _ | insertAfter _ _ => Handle
  | replace _ _ | remove _ => Instruction Handle
  | updateTarget _ _ _ | redirectBranches _ _ | resolve => Unit
  | encode => List UInt8

def Command.edit : (c : Command) → Edit c.Result
  | append i => Listing.append i
  | insertBefore h i => Listing.insertBefore h i
  | insertAfter h i => Listing.insertAfter h i
  | replace h i => Listing.replace h i
  | remove h => Listing.remove h
  | updateTarget branch old new => Listing.updateTarget branch old new
  | redirectBranches old new => Listing.redirectBranches old new
  | resolve => Listing.resolve
  | encode => Listing.encode

def Command.run (c : Command) : Listing → Listing := left c.edit

inductive Reachable : Listing → Prop where
  | empty (id : Nat) : Reachable (empty id)
  | decoded {id : Nat} {code : List UInt8} {l : Listing} {starts : Starts}
      (decoded : decode id code = .ok (l, starts)) : Reachable l
  | edited {l : Listing} (c : Command) (before : Reachable l) : Reachable (c.run l)

variable {entries : Targeter → List Handle} {l : Listing}

theorem follows_run (c : Command) (coherent : l.Coherent entries) :
    Follows entries l (c.run l) := by
  cases c with
  | append i => exact follows_append coherent
  | insertBefore h i => exact follows_insertBefore coherent
  | insertAfter h i => exact follows_insertAfter coherent
  | replace h i => exact follows_replace coherent
  | remove h => exact follows_remove coherent
  | updateTarget branch old new => exact follows_updateTarget coherent
  | redirectBranches old new => exact follows_redirectBranches coherent
  | resolve => exact follows_resolve coherent
  | encode =>
    change Follows entries l (left Listing.encode l)
    rw [left_encode]
    exact follows_resolve coherent

theorem coherent_of_reachable (reachable : l.Reachable) : l.Coherent fun _ => [] := by
  induction reachable with
  | empty id => exact coherent_empty id
  | decoded decoded => exact coherent_decode decoded
  | edited c _ ih => exact (follows_run c ih).coherent

end JvmClass.Listing
