import Std.Data.TreeSet

/-!
Handles name the instructions of a listing whatever their offsets become.  A handle knows the
listing it belongs to, so a handle of another listing is never taken for one's own.
A targeter is something that points at an instruction: a branch or switch, or an entry of one of
the three tables that go with a method body.
-/

namespace JvmClass

structure Handle where
  listing : Nat
  number : Nat
  deriving DecidableEq, Repr, Hashable

inductive Targeter where
  | instruction (h : Handle)
  | exceptionHandler (id : Nat)
  | localVariable (id : Nat)
  | lineNumber (id : Nat)
  deriving DecidableEq, Repr, Hashable

def Handle.label (h : Handle) : String := s!"h{h.number}"

namespace Targeter

def label : Targeter → String
  | instruction h => s!"Instruction({h.label})"
  | exceptionHandler id => s!"ExceptionHandler({id})"
  | localVariable id => s!"LocalVariable({id})"
  | lineNumber id => s!"LineNumber({id})"

def rank : Targeter → Nat
  | instruction _ => 0
  | exceptionHandler _ => 1
  | localVariable _ => 2
  | lineNumber _ => 3

def owner : Targeter → Nat
  | instruction h => h.listing
  | _ => 0

def number : Targeter → Nat
  | instruction h => h.number
  | exceptionHandler id | localVariable id | lineNumber id => id

instance : Ord Targeter :=
  ⟨compareLex (compareOn rank) (compareLex (compareOn owner) (compareOn number))⟩

instance : Std.TransOrd Targeter :=
  inferInstanceAs (Std.TransCmp
    (compareLex (compareOn rank) (compareLex (compareOn owner) (compareOn number))))

theorem eq_of_parts {a b : Targeter} (hr : a.rank = b.rank) (ho : a.owner = b.owner)
    (hn : a.number = b.number) : a = b := by
  cases a <;> cases b <;> simp_all [rank, owner, number]
  rename_i a b
  cases a; cases b; simp_all

instance : Std.LawfulEqOrd Targeter where
  eq_of_compare {a b} h := by
    change (compareOn rank a b).then ((compareOn owner a b).then (compareOn number a b)) = .eq at h
    simp only [Ordering.then_eq_eq, compareOn, Nat.compare_eq_eq] at h
    exact eq_of_parts h.1 h.2.1 h.2.2

end Targeter

abbrev TargeterSet := Std.TreeSet Targeter compare

end JvmClass
