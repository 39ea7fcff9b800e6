import JvmClass.Verify.ClassRules
import JvmClass.Verify.FlowRules
import JvmClass.Verify.Loading
import JvmClass.Verify.Repository

/-!
Verifiers.  A verifier puts one class through passes, each of which takes the one before it for
granted: loading, the rules for the class, the rules for the code of each method, and the flow of
types through each method.  It remembers the verdict of every pass that it has run.  A pass that
is asked for behind one that rejects answers with that rejection and does not run.
-/

namespace JvmClass

structure Settings where
  /-- The newest class file major version that is accepted. -/
  newestMajor : UInt16
  /-- Whether the flow of types is part of a full verification. -/
  checksFlow : Bool
  deriving DecidableEq, Repr

def Settings.standard : Settings := ⟨65, true⟩

inductive Pass where
  | loading
  | classRules
  | codeRules (method : Nat)
  | flow (method : Nat)
  deriving DecidableEq, Repr, Hashable

inductive Verdict where
  | accepted
  | rejected (why : Rejection)
  deriving DecidableEq, Repr

structure Verifier where
  /-- In internal form. -/
  className : String
  settings : Settings
  class? : Option ClassFile
  verdicts : Std.HashMap Pass Verdict
  executed : Array Pass

structure Session where
  repository : Repository
  verifier : Verifier

/-- Requests to a verifier.  They have an answer unless everything comes to a halt. -/
abbrev Request := StateT Session (Except Halt)

def Pass.label : Pass → String
  | loading => "pass 1"
  | classRules => "pass 2"
  | codeRules i => s!"pass 3a (method #{i})"
  | flow i => s!"pass 3b (method #{i})"

namespace Verdict

def isAccepted : Verdict → Bool
  | accepted => true
  | rejected _ => false

def ofExcept : Except Rejection Unit → Verdict
  | .ok () => accepted
  | .error e => rejected e

def message : Verdict → String
  | accepted => "All Okay."
  | rejected why => why.message

def describe (v : Verdict) : String :=
  (if v.isAccepted then "VERIFIED_OK: " else "VERIFIED_REJECTED: ") ++ v.message

end Verdict

namespace Verifier

def named (name : String) (settings : Settings) : Verifier :=
  ⟨Name.internalForm name, settings, none, ∅, #[]⟩

def load (name : String) (newest : UInt16) (r : Repository) :
    Except Rejection ClassFile × Repository :=
  match r.lookup name with
  | .error e r => (.error (.error e), r)
  | .ok none r => (.error (.missing name), r)
  | .ok (some c) r => ((c.checkLoaded name newest).map fun () => c, r)

def record (pass : Pass) (v : Verdict) : Request Verdict := do
  modify fun s =>
    { s with verifier := { s.verifier with
      verdicts := s.verifier.verdicts.insert pass v
      executed := s.verifier.executed.push pass } }
  return v

def remembered (pass : Pass) (run : Request Verdict) : Request Verdict := do
  match (← get).verifier.verdicts[pass]? with
  | some v => return v
  | none => run

/-- Runs a pass on the class if the pass before it accepts. -/
def behind (previous : Request Verdict) (pass : Pass)
    (check : ClassFile → Except Halt (Except Rejection Unit)) : Request Verdict :=
  remembered pass do
    let v ← previous
    match v, (← get).verifier.class? with
    | .accepted, some c => record pass (.ofExcept (← check c))
    | v, _ => return v

def loading : Request Verdict := remembered .loading do
  let s ← get
  match load s.verifier.className s.verifier.settings.newestMajor s.repository with
  | (.error e, r) =>
    set { s with repository := r }
    record .loading (.rejected e)
  | (.ok c, r) =>
    set (Session.mk r { s.verifier with class? := some c })
    record .loading .accepted

def classRules : Request Verdict :=
  behind loading .classRules fun c => .ok (c.checkRules.mapError .inClass)

def codeRules (method : Nat) : Request Verdict :=
  behind classRules (.codeRules method) fun c =>
    (c.checkCode method).map fun x =>
      x.mapError fun e => .inCode (c.methodLabel method) e.offset? e.why

def flow (method : Nat) : Request Verdict :=
  behind (codeRules method) (.flow method) fun c => .ok (c.checkFlow method)

/-- Makes requests one after the other up to the first rejection. -/
def firstRejection : List (Request Verdict) → Request Verdict
  | [] => return .accepted
  | r :: rs => do
    match ← r with
    | .accepted => firstRejection rs
    | v => return v

/-- All passes: the rules for the class, those for the code of every method, and then the flow of
types through every method if the settings ask for it. -/
def verify : Request Verdict := do
  match ← classRules with
  | .accepted =>
    let v := (← get).verifier
    let methods := List.range (v.class?.elim 0 (·.methods.length))
    firstRejection (methods.map codeRules ++ if v.settings.checksFlow then methods.map flow else [])
  | v => return v

end Verifier

end JvmClass
