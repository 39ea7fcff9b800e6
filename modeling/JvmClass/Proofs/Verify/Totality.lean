import JvmClass.Proofs.ClassFile.Rereading
import JvmClass.Proofs.Code.Halting
import JvmClass.Proofs.Verify.Members
import JvmClass.Proofs.Verify.Sessions

/-! Which requests have an answer.  Only the rules for code can come to a halt, and they do just
when an exception range that ends before it starts is the first one that is not in order.  The
rules for the class come first, so every class that breaks one of them has all its answers. -/

namespace JvmClass

namespace ClassFile

variable {c : ClassFile} {m : Nat}

/-- The method has code that can be read, and lifting it comes to a halt at a range that ends
before it starts. -/
def Reverses (c : ClassFile) (m : Nat) : Prop :=
  ∃ code l s e, c.codeToCheck? m = .ok (some code) ∧
    Listing.decode 0 code.bytes = .ok (l, s) ∧ Body.HaltsAt s code e

theorem reverses_iff : c.Reverses m ↔ ∃ h, c.checkCode m = .error h := by
  unfold checkCode
  constructor
  · rintro ⟨code, l, s, e, found, decoded, first⟩
    have lifted : Body.lift 0 c.pool code = .error (.halt ⟨e.start.toNat, e.stop.toNat⟩) :=
      Body.lift_eq_halt_iff.mpr ⟨l, s, decoded, e, first, rfl⟩
    exact ⟨⟨e.start.toNat, e.stop.toNat⟩, by rw [found]; dsimp only; rw [lifted]⟩
  · rintro ⟨h, halts⟩
    split at halts
    · cases halts
    · cases halts
    · rename_i code found
      split at halts
      · rename_i lifted
        obtain ⟨l, s, decoded, e, first, _⟩ := Body.lift_eq_halt_iff.mp lifted
        exact ⟨code, l, s, e, found, decoded, first⟩
      · cases halts
      · cases halts

end ClassFile

namespace Verifier

variable {found : Except Rejection ClassFile} {settings : Settings} {c : ClassFile} {m : Nat}
  {h : Halt}

theorem answerBehind_of_accepted (check : ClassFile → Except Halt (Except Rejection Unit)) :
    answerBehind (.ok c) (.ok .accepted) check = (check c).map .ofExcept := rfl

theorem classAnswer_of_found : classAnswer (.ok c) =
    .ok (.ofExcept (c.checkRules.mapError .inClass)) := rfl

theorem answerBehind_of_rejected {why : Rejection}
    {check : ClassFile → Except Halt (Except Rejection Unit)} :
    answerBehind found (.ok (.rejected why)) check = .ok (.rejected why) := by
  cases found <;> rfl

theorem classAnswer_of_rules (rules : c.checkRules = .ok ()) :
    classAnswer (.ok c) = .ok .accepted := by
  rw [classAnswer_of_found, rules]
  rfl

theorem accepted_or_rejected (found : Except Rejection ClassFile) :
    (∃ c, found = .ok c ∧ c.checkRules = .ok ()) ∨
      ∃ why, classAnswer found = .ok (.rejected why) := by
  cases found with
  | error e => exact .inr ⟨e, rfl⟩
  | ok c =>
    cases rules : c.checkRules with
    | ok u => exact .inl ⟨c, rfl, rules⟩
    | error e => exact .inr ⟨.inClass e, by rw [classAnswer_of_found, rules]; rfl⟩

theorem codeAnswer_of_rules (rules : c.checkRules = .ok ()) : codeAnswer (.ok c) m =
    (c.checkCode m).map fun x =>
      .ofExcept (x.mapError fun e => .inCode (c.methodLabel m) e.offset? e.why) := by
  unfold codeAnswer
  rw [classAnswer_of_rules rules, answerBehind_of_accepted]
  unfold rulesOfCode
  cases c.checkCode m <;> rfl

theorem codeAnswer_eq_error_iff (rules : c.checkRules = .ok ()) :
    codeAnswer (.ok c) m = .error h ↔ c.checkCode m = .error h := by
  rw [codeAnswer_of_rules rules]
  cases c.checkCode m <;> simp [Except.map]

theorem codeAnswer_eq_accepted_iff (rules : c.checkRules = .ok ()) :
    codeAnswer (.ok c) m = .ok .accepted ↔ c.checkCode m = .ok (.ok ()) := by
  rw [codeAnswer_of_rules rules]
  cases c.checkCode m with
  | error h => simp [Except.map]
  | ok x => cases x <;> simp [Except.map, Except.mapError, Verdict.ofExcept]

theorem flowAnswer_eq_error_iff (rules : c.checkRules = .ok ()) :
    flowAnswer (.ok c) m = .error h ↔ c.checkCode m = .error h := by
  rw [← codeAnswer_eq_error_iff rules]
  unfold flowAnswer
  cases codeAnswer (.ok c) m with
  | error h' => rfl
  | ok v => cases v <;> simp [answerBehind, rulesOfFlow, Except.map]

theorem firstAnswer_of_ne {a : Except Halt Verdict} {answers : List (Except Halt Verdict)}
    (other : a ≠ .ok .accepted) : firstAnswer (a :: answers) = a := by
  cases a with
  | error h => rfl
  | ok v =>
    cases v with
    | accepted => exact absurd rfl other
    | rejected why => rfl

theorem firstAnswer_eq_iff {a : Except Halt Verdict} {answers : List (Except Halt Verdict)}
    (other : a ≠ .ok .accepted) : firstAnswer answers = a ↔
      ∃ k : Nat, answers[k]? = some a ∧ ∀ j < k, answers[j]? = some (.ok .accepted) := by
  induction answers with
  | nil => exact iff_of_false other.symm fun ⟨k, here, _⟩ => by simp at here
  | cons b answers ih =>
    by_cases accepts : b = .ok .accepted
    · subst accepts
      rw [firstAnswer, ih]
      constructor
      · rintro ⟨k, here, earlier⟩
        refine ⟨k + 1, here, fun j before => ?_⟩
        cases j with
        | zero => rfl
        | succ j => exact earlier j (Nat.lt_of_succ_lt_succ before)
      · rintro ⟨k, here, earlier⟩
        cases k with
        | zero => exact absurd (Option.some.inj here).symm other
        | succ k => exact ⟨k, here, fun j before => earlier (j + 1) (Nat.succ_lt_succ before)⟩
    · rw [firstAnswer_of_ne accepts]
      constructor
      · rintro rfl
        exact ⟨0, rfl, nofun⟩
      · rintro ⟨k, here, earlier⟩
        cases k with
        | zero => exact Option.some.inj here
        | succ k => exact absurd (Option.some.inj (earlier 0 (Nat.succ_pos k))) accepts

def FirstToHalt (c : ClassFile) (m : Nat) : Prop :=
  m < c.methods.length ∧ c.Reverses m ∧ ∀ k < m, c.checkCode k = .ok (.ok ())

section Methods

variable {n k : Nat} {a : Except Halt Verdict}

theorem getElem?_answers_of_lt (inside : k < n) :
    ((methodPasses settings (List.range n)).map (answer found))[k]? = some (codeAnswer found k) := by
  unfold methodPasses
  rw [List.map_append, List.getElem?_append_left (by simpa using inside)]
  simp [inside, answer]

theorem flowAnswer_of_getElem?_answers (behind : n ≤ k)
    (here : ((methodPasses settings (List.range n)).map (answer found))[k]? = some a) :
    ∃ m < n, a = flowAnswer found m := by
  unfold methodPasses at here
  rw [List.map_append, List.getElem?_append_right (by simpa using behind)] at here
  obtain ⟨p, member, rfl⟩ := List.mem_map.mp (List.mem_of_getElem? here)
  split at member
  · obtain ⟨m, inside, rfl⟩ := List.mem_map.mp member
    exact ⟨m, List.mem_range.mp inside, rfl⟩
  · cases member

/-- The first answer that is a halt is one of the rules for code: where they accept a method, its
flow of types does not come to a halt. -/
theorem lt_of_first_halt (rules : c.checkRules = .ok ())
    (here : ((methodPasses settings (List.range n)).map (answer (.ok c)))[k]? = some (.error h))
    (earlier : ∀ j < k, ((methodPasses settings (List.range n)).map (answer (.ok c)))[j]? =
      some (.ok .accepted)) : k < n := by
  by_contra outside
  have behind : n ≤ k := Nat.le_of_not_lt outside
  obtain ⟨m, inside, halts⟩ := flowAnswer_of_getElem?_answers behind here
  rw [eq_comm, flowAnswer_eq_error_iff rules, ← codeAnswer_eq_error_iff rules] at halts
  have accepted := earlier m (Nat.lt_of_lt_of_le inside behind)
  rw [getElem?_answers_of_lt inside, halts] at accepted
  cases accepted

end Methods

theorem fullAnswer_of_rules (rules : c.checkRules = .ok ()) :
    fullAnswer (.ok c) settings = firstAnswer
      ((methodPasses settings (List.range c.methods.length)).map (answer (.ok c))) := by
  unfold fullAnswer
  rw [classAnswer_of_rules rules]
  rfl

theorem fullAnswer_halts_iff (rules : c.checkRules = .ok ()) :
    (∃ h, fullAnswer (.ok c) settings = .error h) ↔ ∃ m, FirstToHalt c m := by
  have first (answers : List (Except Halt Verdict)) (h : Halt) :
      firstAnswer answers = .error h ↔ _ := firstAnswer_eq_iff nofun
  rw [fullAnswer_of_rules rules]
  simp only [first]
  constructor
  · rintro ⟨h, k, here, earlier⟩
    have inside := lt_of_first_halt rules here earlier
    rw [getElem?_answers_of_lt inside, Option.some.injEq, codeAnswer_eq_error_iff rules] at here
    refine ⟨k, inside, ClassFile.reverses_iff.mpr ⟨h, here⟩, fun j before => ?_⟩
    have accepted := earlier j before
    rwa [getElem?_answers_of_lt (Nat.lt_trans before inside), Option.some.injEq,
      codeAnswer_eq_accepted_iff rules] at accepted
  · rintro ⟨m, inside, reverses, earlier⟩
    obtain ⟨h, halts⟩ := ClassFile.reverses_iff.mp reverses
    refine ⟨h, m, ?_, fun k before => ?_⟩
    · rw [getElem?_answers_of_lt inside, (codeAnswer_eq_error_iff rules).mpr halts]
    · rw [getElem?_answers_of_lt (Nat.lt_trans before inside),
        (codeAnswer_eq_accepted_iff rules).mpr (earlier k before)]

/-- The request comes to a halt for this class, if the rules for the class accept it. -/
def Demand.Halts (c : ClassFile) : Demand → Prop
  | full => ∃ m, FirstToHalt c m
  | pass (.codeRules m) | pass (.flow m) => c.Reverses m
  | pass .loading | pass .classRules => False

theorem Demand.exists_reverses_of_halts {d : Demand} (halts : d.Halts c) : ∃ m, c.Reverses m := by
  cases d with
  | full =>
    obtain ⟨m, _, reverses, _⟩ := halts
    exact ⟨m, reverses⟩
  | pass p =>
    cases p with
    | loading | classRules => exact False.elim halts
    | codeRules m | flow m => exact ⟨m, halts⟩

theorem Demand.exists_answer_of_rejected {why : Rejection}
    (rejected : classAnswer found = .ok (.rejected why)) (d : Demand) :
    ∃ v, d.answer found settings = .ok v := by
  have code (m : Nat) : codeAnswer found m = .ok (.rejected why) := by
    unfold codeAnswer
    rw [rejected, answerBehind_of_rejected]
  cases d with
  | full =>
    refine ⟨.rejected why, ?_⟩
    change fullAnswer found settings = _
    unfold fullAnswer
    rw [rejected]
  | pass p =>
    cases p with
    | loading => exact ⟨_, rfl⟩
    | classRules => exact ⟨_, rejected⟩
    | codeRules m => exact ⟨_, code m⟩
    | flow m =>
      refine ⟨.rejected why, ?_⟩
      change flowAnswer found m = _
      unfold flowAnswer
      rw [code, answerBehind_of_rejected]

theorem Demand.halts_iff (d : Demand) : (∃ h, d.answer found settings = .error h) ↔
    ∃ c, found = .ok c ∧ c.checkRules = .ok () ∧ d.Halts c := by
  obtain ⟨c, rfl, rules⟩ | ⟨why, rejected⟩ := accepted_or_rejected found
  · have only : (∃ c', Except.ok (ε := Rejection) c = .ok c' ∧ c'.checkRules = .ok () ∧
        d.Halts c') ↔ d.Halts c :=
      ⟨fun ⟨_, same, _, halts⟩ => by cases same; exact halts, fun halts => ⟨c, rfl, rules, halts⟩⟩
    rw [only]
    cases d with
    | full => exact fullAnswer_halts_iff rules
    | pass p =>
      cases p with
      | loading => exact iff_of_false nofun id
      | classRules => exact iff_of_false nofun id
      | codeRules m =>
        change (∃ h, codeAnswer (.ok c) m = .error h) ↔ c.Reverses m
        simp only [codeAnswer_eq_error_iff rules, ClassFile.reverses_iff]
      | flow m =>
        change (∃ h, flowAnswer (.ok c) m = .error h) ↔ c.Reverses m
        simp only [flowAnswer_eq_error_iff rules, ClassFile.reverses_iff]
  · obtain ⟨v, known⟩ : ∃ v, d.answer found settings = .ok v :=
      d.exists_answer_of_rejected rejected
    refine iff_of_false ?_ ?_
    · rintro ⟨h, halts⟩
      cases known.symm.trans halts
    · rintro ⟨c, rfl, rules, _⟩
      cases rejected.symm.trans (classAnswer_of_rules rules)

theorem agrees_start (r : Repository) (name : String) (settings : Settings) :
    Agrees (load (Name.internalForm name) settings.newestMajor r).1 settings
      ⟨r, named name settings⟩ where
  settings := rfl
  verdicts p v here := by
    change (∅ : Std.HashMap Pass Verdict)[p]? = some v at here
    rw [Std.HashMap.getElem?_empty] at here
    cases here
  loaded p v here := by
    change (∅ : Std.HashMap Pass Verdict)[p]? = some v at here
    rw [Std.HashMap.getElem?_empty] at here
    cases here
  fresh _ := ⟨rfl, rfl⟩

/-- Whatever is asked of a verifier, and however often, every request is answered, unless the class
keeps its rules and one of the requests gets to code that cannot be lifted because of a range that
ends before it starts. -/
theorem exists_answers_iff (r : Repository) (name : String) (settings : Settings)
    (ds : List Demand) :
    (∃ vs s, ds.mapM Demand.request ⟨r, named name settings⟩ = .ok (vs, s)) ↔
      ∀ c, (load (Name.internalForm name) settings.newestMajor r).1 = .ok c →
        c.checkRules = .ok () → ∀ d ∈ ds, ¬ d.Halts c := by
  have answered (d : Demand) (found : Except Rejection ClassFile) :
      (∃ v, d.answer found settings = .ok v) ↔ ¬ ∃ h, d.answer found settings = .error h := by
    cases d.answer found settings <;> simp
  rw [exists_run_iff (agrees_start r name settings)]
  simp only [answered, Demand.halts_iff]
  constructor
  · intro none c loaded rules d member halts
    exact none d member ⟨c, loaded, rules, halts⟩
  · rintro none d member ⟨c, loaded, rules, halts⟩
    exact none c loaded rules d member halts

open ClassFile

theorem parse_of_writable {bytes : List UInt8} (writable : c.Writable)
    (written : c.toBytes = .ok bytes) : parse bytes = .ok c := by
  obtain ⟨form, means, same⟩ :=
    writes_classFile _ _ writable (Output.toExcept_eq_ok_iff.mp written)
  exact parse_eq_ok_iff.mpr ⟨form, means, same⟩

theorem load_add {r : Repository} {name : String} {newest : UInt16} {bytes : List UInt8}
    (internal : Name.internalForm name = name) (parsed : parse bytes = .ok c)
    (loaded : c.checkLoaded name newest = .ok ()) :
    (load name newest (r.add name bytes)).1 = .ok c := by
  have source : (r.add name bytes).sources[name]? = some bytes := by
    simp [Repository.add, internal]
  have absent : (r.add name bytes).decoded[name]? = none := by
    simp [Repository.add, internal]
  unfold load Repository.lookup
  simp only [internal, absent, source, parsed, loaded]
  rfl

def reversedInfo : List UInt8 :=
  [0, 0, 0, 0, 0, 0, 0, 2, 0, 0xB1, 0, 1, 0, 1, 0, 0, 0, 0, 0, 0, 0, 0]

/-- A class that keeps its rules.  The code of its method has two instructions and a range that ends in
front of its start. -/
def reversed : ClassFile where
  version := ⟨52, 0⟩
  pool := .ofConstants [.utf8 "a/Foo", .classInfo 1, .utf8 "java/lang/Object", .classInfo 3,
    .utf8 "Code", .utf8 "f", .utf8 "()V"]
  flags := ⟨0x0021⟩
  thisClass := 2
  superClass := some 4
  interfaces := []
  fields := []
  methods := [⟨⟨0x0009⟩, 6, 7, [⟨5, reversedInfo⟩]⟩]
  attributes := []

def reversedBytes : List UInt8 :=
  [0xCA, 0xFE, 0xBA, 0xBE, 0, 0, 0, 52, 0, 8, 1, 0, 5, 0x61, 0x2F, 0x46, 0x6F, 0x6F, 7, 0, 1,
    1, 0, 16, 0x6A, 0x61, 0x76, 0x61, 0x2F, 0x6C, 0x61, 0x6E, 0x67, 0x2F, 0x4F, 0x62, 0x6A, 0x65,
    0x63, 0x74, 7, 0, 3, 1, 0, 4, 0x43, 0x6F, 0x64, 0x65, 1, 0, 1, 0x66, 1, 0, 3, 0x28, 0x29, 0x56,
    0, 0x21, 0, 2, 0, 4, 0, 0, 0, 0, 0, 1, 0, 9, 0, 6, 0, 7, 0, 1, 0, 5, 0, 0, 0, 22] ++
    reversedInfo ++ [0, 0]

theorem parse_reversed : parse reversedBytes = .ok reversed := by
  have built : reversed.pool.Built :=
    Pool.built_ofConstants (by decide) (by decide +kernel) (by decide)
  have writable : reversed.Writable :=
    ⟨⟨by decide, by decide, by decide⟩, Pool.lawful_of_built built, by decide⟩
  exact parse_of_writable writable (by decide +kernel)

theorem checkRules_reversed : reversed.checkRules = .ok () := by
  have rules : MethodRules reversed 0 ⟨⟨0x0009⟩, 6, 7, [⟨5, reversedInfo⟩]⟩ "f" "()V" ⟨[], none⟩ :=
    by decide +kernel
  exact checkRules_of_method (by decide +kernel) (by decide +kernel) (by decide +kernel) rfl rules

def reversedRepository : Repository := .add "a/Foo" reversedBytes .empty

theorem internalForm_reversed : Name.internalForm "a/Foo" = "a/Foo" := by decide +kernel

theorem load_reversed : (load "a/Foo" 65 reversedRepository).1 = .ok reversed :=
  load_add internalForm_reversed parse_reversed (by decide +kernel)

/-- The first method of the class is the one that comes to a halt. -/
theorem verify_halts_reversed : parse reversedBytes = .ok reversed ∧ reversed.checkRules = .ok () ∧
    verify ⟨reversedRepository, named "a/Foo" .standard⟩ = .error ⟨1, 0⟩ := by
  refine ⟨parse_reversed, checkRules_reversed, ?_⟩
  have code : reversed.checkCode 0 = .error ⟨1, 0⟩ := by decide +kernel
  have answers : Answers (.ok reversed) .standard verify (fullAnswer (.ok reversed) .standard) :=
    answers_verify
  have halts : fullAnswer (.ok reversed) .standard = .error ⟨1, 0⟩ := by
    have first : codeAnswer (.ok reversed) 0 = .error ⟨1, 0⟩ :=
      (codeAnswer_eq_error_iff checkRules_reversed).mpr code
    unfold fullAnswer
    rw [classAnswer_of_rules checkRules_reversed]
    change firstAnswer (codeAnswer (.ok reversed) 0 :: _) = _
    rw [first]
    rfl
  rw [halts] at answers
  refine answers _ ?_
  have agrees := agrees_start reversedRepository "a/Foo" .standard
  rw [internalForm_reversed] at agrees
  exact load_reversed ▸ agrees

end Verifier

end JvmClass
