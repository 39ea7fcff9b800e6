import JvmClass.Proofs.Verify.Totality

/-! The passes that a verifier has run.  A request runs passes one after the other, each of them for
the first time, and only if the pass that it takes for granted has accepted.  So no pass is run
twice, whatever is asked, and in which order; and as a class that has been looked up is found again,
every answer is that of a verifier which is asked for nothing else. -/

namespace JvmClass

namespace Repository

variable {name : String} {r r' : Repository}

theorem lookup_of_ok {c? : Option ClassFile} (found : lookup name r = .ok c? r') :
    lookup name r' = .ok c? r' := by
  unfold lookup at found
  dsimp only at found
  split at found
  · rename_i c here
    cases found
    unfold lookup
    simp only [here]
  · rename_i absent
    split at found
    · rename_i missing
      cases found
      unfold lookup
      simp only [absent, missing]
    · rename_i bytes source
      split at found
      · cases found
      · cases found
        unfold lookup
        simp only [Std.HashMap.getElem?_insert_self]

theorem lookup_of_error {e : Error} (failed : lookup name r = .error e r') : r' = r := by
  unfold lookup at failed
  dsimp only at failed
  split at failed
  · cases failed
  · split at failed
    · cases failed
    · split at failed
      · cases failed
        rfl
      · cases failed

end Repository

def Pass.previous? : Pass → Option Pass
  | loading => none
  | classRules => some loading
  | codeRules _ => some classRules
  | flow method => some (codeRules method)

def Pass.rank : Pass → Nat
  | loading => 0
  | classRules => 1
  | codeRules _ => 2
  | flow _ => 3

theorem Pass.rank_of_previous? {p q : Pass} (previous : p.previous? = some q) :
    p.rank = q.rank + 1 := by
  cases p with
  | loading => cases previous
  | classRules | codeRules _ | flow _ =>
    cases previous
    rfl

theorem Pass.rank_le (p : Pass) : p.rank ≤ 3 := by
  cases p <;> simp [rank]

namespace Verifier

variable {found : Except Rejection ClassFile} {settings : Settings} {s t u : Session}
  {request : Request Verdict} {p q : Pass} {v w : Verdict} {n m : Nat}
  {check : ClassFile → Except Halt (Except Rejection Unit)}

theorem load_again (name : String) (newest : UInt16) (r : Repository) :
    (load name newest (load name newest r).2).1 = (load name newest r).1 := by
  cases run : r.lookup name with
  | error e r' =>
    have first : load name newest r = (.error (.error e), r') := by
      unfold load
      rw [run]
    rw [first, Repository.lookup_of_error run, first]
  | ok c? r' =>
    have again := Repository.lookup_of_ok run
    unfold load
    cases c? <;> simp only [run, again]

/-- From `s` to `t` a pass is run that has not been run, and before which the pass that it takes
for granted has accepted. -/
structure Runs (p : Pass) (s t : Session) : Prop where
  new : s.verifier.verdicts[p]? = none
  previous : ∀ q, p.previous? = some q → s.verifier.verdicts[q]? = some .accepted
  verdicts : ∃ v, t.verifier.verdicts = s.verifier.verdicts.insert p v
  executed : t.verifier.executed = s.verifier.executed.push p
  className : t.verifier.className = s.verifier.className
  found : toBeLoaded t = toBeLoaded s

theorem Runs.getElem?_of_ne (runs : Runs p s t) (other : q ≠ p) :
    t.verifier.verdicts[q]? = s.verifier.verdicts[q]? := by
  obtain ⟨v, verdicts⟩ := runs.verdicts
  rw [verdicts, Std.HashMap.getElem?_insert, if_neg (by simpa using other.symm)]

theorem Runs.remembers (runs : Runs p s t) (known : s.verifier.verdicts[q]? = some v) :
    t.verifier.verdicts[q]? = some v := by
  rw [runs.getElem?_of_ne, known]
  rintro rfl
  cases runs.new.symm.trans known

/-- From `s` to `t` passes are run one after the other, none of a higher rank than `n`. -/
inductive Grows (n : Nat) (s : Session) : Session → Prop where
  | stop : Grows n s s
  | step {t u : Session} {p : Pass} (before : Grows n s t) (runs : Runs p t u) (low : p.rank ≤ n) :
      Grows n s u

namespace Grows

theorem mono (grows : Grows m s t) (low : m ≤ n) : Grows n s t := by
  induction grows with
  | stop => exact .stop
  | step _ runs lower ih => exact .step ih runs (Nat.le_trans lower low)

theorem trans (first : Grows n s t) (second : Grows n t u) : Grows n s u := by
  induction second with
  | stop => exact first
  | step _ runs low ih => exact .step ih runs low

theorem getElem?_eq (grows : Grows n s t) (high : n < p.rank) :
    t.verifier.verdicts[p]? = s.verifier.verdicts[p]? := by
  induction grows with
  | stop => rfl
  | step _ runs low ih =>
    rw [runs.getElem?_of_ne, ih]
    rintro rfl
    omega

theorem found_eq (grows : Grows n s t) : toBeLoaded t = toBeLoaded s := by
  induction grows with
  | stop => rfl
  | step _ runs _ ih => exact runs.found.trans ih

theorem className_eq (grows : Grows n s t) : t.verifier.className = s.verifier.className := by
  induction grows with
  | stop => rfl
  | step _ runs _ ih => exact runs.className.trans ih

end Grows

theorem Answers.of_ok {a : Except Halt Verdict} (answers : Answers found settings request a)
    (agrees : Agrees found settings s) (ran : request s = .ok (v, t)) :
    a = .ok v ∧ Agrees found settings t ∧ Loaded found t := by
  cases a with
  | error h => cases ran.symm.trans (answers s agrees)
  | ok w =>
    obtain ⟨u, ran', agrees', loaded⟩ := answers s agrees
    cases ran.symm.trans ran'
    exact ⟨rfl, agrees', loaded⟩

def RunsUpTo (found : Except Rejection ClassFile) (settings : Settings) (request : Request Verdict)
    (p : Pass) : Prop :=
  ∀ s v t, Agrees found settings s → request s = .ok (v, t) →
    Grows p.rank s t ∧ (v = .accepted → t.verifier.verdicts[p]? = some .accepted)

theorem runsUpTo_remembered (runs : ∀ s v t, Agrees found settings s →
      s.verifier.verdicts[p]? = none → remembered p request s = .ok (v, t) →
        Grows p.rank s t ∧ (v = .accepted → t.verifier.verdicts[p]? = some .accepted)) :
    RunsUpTo found settings (remembered p request) p := by
  intro s v t agrees ran
  cases there : s.verifier.verdicts[p]? with
  | none => exact runs s v t agrees there ran
  | some w =>
    rw [remembered_apply, there] at ran
    cases ran
    exact ⟨.stop, fun same => same ▸ there⟩

theorem grows_record_loading {r : Repository} {class? : Option ClassFile}
    (absent : s.verifier.verdicts[Pass.loading]? = none)
    (same : toBeLoaded ⟨r, { s.verifier with class? := class? }⟩ = toBeLoaded s)
    (ran : record .loading w ⟨r, { s.verifier with class? := class? }⟩ = .ok (v, t)) :
    Grows 0 s t ∧ (v = .accepted → t.verifier.verdicts[Pass.loading]? = some .accepted) := by
  cases ran
  refine ⟨.step .stop ⟨absent, nofun, ⟨_, rfl⟩, rfl, rfl, same⟩ (Nat.le_refl 0), ?_⟩
  rintro rfl
  exact Std.HashMap.getElem?_insert_self

theorem runsUpTo_loading : RunsUpTo found settings loading .loading := by
  refine runsUpTo_remembered fun s v t agrees absent ran => ?_
  change loading s = _ at ran
  rw [loading_apply absent] at ran
  have again := load_again s.verifier.className s.verifier.settings.newestMajor s.repository
  cases run : load s.verifier.className s.verifier.settings.newestMajor s.repository with
  | mk result r =>
    have same (class? : Option ClassFile) :
        toBeLoaded ⟨r, { s.verifier with class? := class? }⟩ = toBeLoaded s := by
      rw [run] at again
      unfold toBeLoaded
      rw [run]
      exact again
    rw [run] at ran
    cases result with
    | error e => exact grows_record_loading absent (same s.verifier.class?) ran
    | ok c => exact grows_record_loading absent (same (some c)) ran

theorem answer_of_error (e : Rejection) (p : Pass) :
    answer (.error e) p = .ok (.rejected e) := by
  cases p <;> rfl

theorem runsUpTo_behind (before : RunsUpTo found settings request q)
    (answers : Answers found settings request (answer found q)) (previous : p.previous? = some q) :
    RunsUpTo found settings (behind request p check) p := by
  refine runsUpTo_remembered fun s v t agrees absent ran => ?_
  change behind request p check s = _ at ran
  rw [behind_apply absent] at ran
  obtain ⟨⟨w, u⟩, first, ran⟩ := bind_eq_ok ran
  have rank := Pass.rank_of_previous? previous
  obtain ⟨grows, accepts⟩ := before s w u agrees first
  obtain ⟨known, _, loaded⟩ := answers.of_ok agrees first
  have higher : Grows p.rank s u := grows.mono (by omega)
  cases w with
  | rejected why =>
    cases ran
    exact ⟨higher, nofun⟩
  | accepted =>
    cases found with
    | error e => cases known.symm.trans (answer_of_error e q)
    | ok c =>
      rw [loaded.class?] at ran
      obtain ⟨x, _, ran⟩ := bind_eq_ok (x := check c) ran
      cases ran
      have new : u.verifier.verdicts[p]? = none := by
        rw [grows.getElem?_eq (by omega), absent]
      have accepted : ∀ q', p.previous? = some q' → u.verifier.verdicts[q']? = some .accepted := by
        intro q' same
        cases previous.symm.trans same
        exact accepts rfl
      refine ⟨.step higher ⟨new, accepted, ⟨_, rfl⟩, rfl, rfl, rfl⟩ (Nat.le_refl _), ?_⟩
      intro same
      rw [← same]
      exact Std.HashMap.getElem?_insert_self

theorem runsUpTo_ask (p : Pass) : RunsUpTo found settings (ask p) p := by
  have rules : RunsUpTo found settings classRules .classRules :=
    runsUpTo_behind runsUpTo_loading answers_loading rfl
  have code (method : Nat) : RunsUpTo found settings (codeRules method) (.codeRules method) :=
    runsUpTo_behind rules answers_classRules rfl
  cases p with
  | loading => exact runsUpTo_loading
  | classRules => exact rules
  | codeRules method => exact code method
  | flow method => exact runsUpTo_behind (code method) (answers_codeRules method) rfl

theorem grows_ask (agrees : Agrees found settings s) (ran : ask p s = .ok (v, t)) : Grows 3 s t :=
  (runsUpTo_ask p s v t agrees ran).1.mono p.rank_le

theorem grows_firstRejection {ps : List Pass} (agrees : Agrees found settings s)
    (ran : firstRejection (ps.map ask) s = .ok (v, t)) : Grows 3 s t := by
  induction ps generalizing s with
  | nil =>
    cases ran
    exact .stop
  | cons p ps ih =>
    rw [List.map_cons, firstRejection_apply] at ran
    obtain ⟨⟨w, u⟩, first, ran⟩ := bind_eq_ok ran
    have grows := grows_ask agrees first
    cases w with
    | rejected why =>
      cases ran
      exact grows
    | accepted =>
      obtain ⟨_, agrees', _⟩ := (answers_ask p).of_ok agrees first
      exact grows.trans (ih agrees' ran)

theorem grows_verify (agrees : Agrees found settings s) (ran : verify s = .ok (v, t)) :
    Grows 3 s t := by
  rw [verify_apply] at ran
  obtain ⟨⟨w, u⟩, first, ran⟩ := bind_eq_ok ran
  have grows : Grows 3 s u := grows_ask (p := .classRules) agrees first
  cases w with
  | rejected why =>
    cases ran
    exact grows
  | accepted =>
    obtain ⟨_, agrees', _⟩ := answers_classRules.of_ok agrees first
    exact grows.trans (grows_firstRejection agrees' ran)

theorem grows_request {d : Demand} (agrees : Agrees found settings s)
    (ran : d.request s = .ok (v, t)) : Grows 3 s t := by
  cases d with
  | full => exact grows_verify agrees ran
  | pass p => exact grows_ask agrees ran

theorem grows_run {ds : List Demand} {vs : List Verdict} (agrees : Agrees found settings s)
    (ran : ds.mapM Demand.request s = .ok (vs, t)) :
    List.Forall₂ (fun d v => Demand.answer found settings d = .ok v) ds vs ∧ Grows 3 s t ∧
      Agrees found settings t ∧ (ds ≠ [] → Loaded found t) := by
  induction ds generalizing s vs with
  | nil =>
    cases ran
    exact ⟨.nil, .stop, agrees, fun some => absurd rfl some⟩
  | cons d ds ih =>
    rw [mapM_request_apply] at ran
    obtain ⟨⟨v, u⟩, first, ran⟩ := bind_eq_ok ran
    obtain ⟨⟨vs, u'⟩, others, ran⟩ := bind_eq_ok ran
    cases ran
    obtain ⟨known, agrees', loaded⟩ := (answers_request d).of_ok agrees first
    obtain ⟨each, grows, agrees'', loaded'⟩ := ih agrees' others
    refine ⟨.cons known each, (grows_request agrees first).trans grows, agrees'', fun _ => ?_⟩
    cases ds with
    | nil =>
      cases others
      exact loaded
    | cons d ds => exact loaded' (List.cons_ne_nil d ds)

structure Orderly (v : Verifier) : Prop where
  nodup : v.executed.toList.Nodup
  known : ∀ p, p ∈ v.executed.toList ↔ (v.verdicts[p]?).isSome = true
  behind : ∀ (k : Nat) p q, v.executed[k]? = some p → p.previous? = some q →
    ∃ j < k, v.executed[j]? = some q ∧ v.verdicts[q]? = some .accepted

theorem orderly_named (name : String) (settings : Settings) : Orderly (named name settings) where
  nodup := .nil
  known p := by simp [named]
  behind k p q here := by simp [named] at here

theorem Runs.orderly (runs : Runs p s t) (orderly : Orderly s.verifier) : Orderly t.verifier where
  nodup := by
    have absent : p ∉ s.verifier.executed.toList := by
      rw [orderly.known, runs.new]
      exact Bool.false_ne_true
    rw [runs.executed, Array.toList_push, ← List.concat_eq_append]
    exact orderly.nodup.concat absent
  known q := by
    obtain ⟨v, verdicts⟩ := runs.verdicts
    rw [runs.executed, Array.toList_push, List.mem_append, orderly.known, List.mem_singleton,
      verdicts, Std.HashMap.getElem?_insert]
    by_cases same : p = q
    · simp [same]
    · simp [same, Ne.symm same]
  behind k q q' here previous := by
    -- what was accepted is still so, at its old place
    have stays {j : Nat} (there : s.verifier.executed[j]? = some q')
        (accepted : s.verifier.verdicts[q']? = some .accepted) :
        t.verifier.executed[j]? = some q' ∧ t.verifier.verdicts[q']? = some .accepted := by
      refine ⟨?_, runs.remembers accepted⟩
      have inside := (Array.getElem?_eq_some_iff.mp there).1
      rw [runs.executed, Array.getElem?_push, if_neg (Nat.ne_of_lt inside), there]
    rw [runs.executed, Array.getElem?_push] at here
    split at here
    · rename_i last
      cases here
      have accepted := runs.previous q' previous
      obtain ⟨j, there⟩ := List.mem_iff_getElem?.mp ((orderly.known q').mpr (by rw [accepted]; rfl))
      rw [Array.getElem?_toList] at there
      refine ⟨j, ?_, stays there accepted⟩
      rw [last]
      exact (Array.getElem?_eq_some_iff.mp there).1
    · obtain ⟨j, before, there, accepted⟩ := orderly.behind k q q' here previous
      exact ⟨j, before, stays there accepted⟩

theorem Grows.orderly (grows : Grows n s t) (orderly : Orderly s.verifier) :
    Orderly t.verifier := by
  induction grows with
  | stop => exact orderly
  | step _ runs _ ih => exact runs.orderly ih

theorem Orderly.first {v : Verifier} (orderly : Orderly v)
    (done : (v.verdicts[Pass.loading]?).isSome = true) : v.executed[0]? = some .loading := by
  have member := (orderly.known .loading).mpr done
  obtain ⟨p, ps, split⟩ := List.exists_cons_of_ne_nil (List.ne_nil_of_mem member)
  have here : v.executed[0]? = some p := by
    rw [← Array.getElem?_toList, split]
    rfl
  cases previous : p.previous? with
  | none =>
    cases p with
    | loading => exact here
    | classRules | codeRules _ | flow _ => cases previous
  | some q =>
    obtain ⟨j, before, _⟩ := orderly.behind 0 p q here previous
    exact absurd before (Nat.not_lt_zero j)

/-- All passes of a full verification of a class with so many methods, in order. -/
def fullPasses (settings : Settings) (methods : Nat) : List Pass :=
  .loading :: .classRules :: methodPasses settings (List.range methods)

/-- All passes accept, or the verdict is the first rejection. -/
def FirstVerdict (answer : Pass → Except Halt Verdict) (passes : List Pass) : Verdict → Prop
  | .accepted => ∀ p ∈ passes, answer p = .ok .accepted
  | .rejected why => ∃ (k : Nat) (p : Pass), passes[k]? = some p ∧
      answer p = .ok (.rejected why) ∧
        ∀ j < k, ∃ q, passes[j]? = some q ∧ answer q = .ok .accepted

theorem firstAnswer_eq_accepted_iff {answers : List (Except Halt Verdict)} :
    firstAnswer answers = .ok .accepted ↔ ∀ a ∈ answers, a = .ok .accepted := by
  induction answers with
  | nil => exact iff_of_true rfl (List.forall_mem_nil _)
  | cons a answers ih =>
    rw [List.forall_mem_cons]
    by_cases accepts : a = .ok .accepted
    · subst accepts
      rw [firstAnswer, ih]
      exact (and_iff_right rfl).symm
    · rw [firstAnswer_of_ne accepts]
      exact iff_of_false accepts fun both => accepts both.1

theorem firstAnswer_eq_ok_iff {answer : Pass → Except Halt Verdict} {passes : List Pass} :
    firstAnswer (passes.map answer) = .ok v ↔ FirstVerdict answer passes v := by
  cases v with
  | accepted => rw [firstAnswer_eq_accepted_iff, List.forall_mem_map, FirstVerdict]
  | rejected why =>
    have rejects : (.ok (.rejected why) : Except Halt Verdict) ≠ .ok .accepted := nofun
    rw [firstAnswer_eq_iff rejects]
    simp only [List.getElem?_map, Option.map_eq_some_iff, FirstVerdict, ← and_assoc,
      exists_and_right]

theorem fullAnswer_eq (found : Except Rejection ClassFile) (settings : Settings) :
    fullAnswer found settings = firstAnswer
      ((fullPasses settings (found.toOption.elim 0 (·.methods.length))).map (answer found)) := by
  cases found with
  | error e => rfl
  | ok c =>
    change fullAnswer (.ok c) settings = firstAnswer (classAnswer (.ok c) :: _)
    unfold fullAnswer
    split
    · rename_i accepted
      rw [accepted]
      rfl
    · rename_i other
      rw [firstAnswer_of_ne other]

section Alone

variable {r : Repository} {name : String} {d : Demand} {ds : List Demand} {vs : List Verdict}

def alone (r : Repository) (name : String) (settings : Settings) (d : Demand) :
    Except Halt Verdict :=
  (d.request ⟨r, named name settings⟩).map (·.1)

theorem alone_eq (r : Repository) (name : String) (settings : Settings) (d : Demand) :
    alone r name settings d =
      d.answer (load (Name.internalForm name) settings.newestMajor r).1 settings := by
  have agrees := agrees_start r name settings
  generalize (load (Name.internalForm name) settings.newestMajor r).1 = found at agrees ⊢
  have answers : Answers found settings d.request (d.answer found settings) := answers_request d
  unfold alone
  cases known : d.answer found settings with
  | error h =>
    rw [known] at answers
    rw [answers _ agrees]
    rfl
  | ok v =>
    rw [known] at answers
    obtain ⟨t, ran, _⟩ := answers _ agrees
    rw [ran]
    rfl

def methodCount (r : Repository) (name : String) (settings : Settings) : Nat :=
  (load (Name.internalForm name) settings.newestMajor r).1.toOption.elim 0 (·.methods.length)

/-- What has happened when requests have been made one after the other: their answers are those of
verifiers that are asked for nothing else, before as well as afterwards, and so is all that is
remembered; and passes have been run once, behind those that they take for granted. -/
structure Consistent (r : Repository) (name : String) (settings : Settings) (ds : List Demand)
    (vs : List Verdict) (s : Session) : Prop where
  answers : List.Forall₂ (fun d v => alone r name settings d = .ok v ∧
    alone s.repository name settings d = .ok v) ds vs
  remembered : ∀ (p : Pass) v, s.verifier.verdicts[p]? = some v →
    alone r name settings (.pass p) = .ok v
  nodup : s.verifier.executed.toList.Nodup
  first : ds ≠ [] → s.verifier.executed[0]? = some .loading
  behind : ∀ (k : Nat) p q, s.verifier.executed[k]? = some p → p.previous? = some q →
    ∃ j < k, s.verifier.executed[j]? = some q ∧ s.verifier.verdicts[q]? = some .accepted

theorem consistent_of_run (ran : ds.mapM Demand.request ⟨r, named name settings⟩ = .ok (vs, s)) :
    Consistent r name settings ds vs s := by
  have agrees := agrees_start r name settings
  obtain ⟨each, grows, agrees', loaded⟩ := grows_run agrees ran
  have orderly := grows.orderly (orderly_named name settings)
  have found : (load (Name.internalForm name) settings.newestMajor s.repository).1 =
      (load (Name.internalForm name) settings.newestMajor r).1 := by
    have same := grows.found_eq
    unfold toBeLoaded at same
    rwa [grows.className_eq, agrees'.settings] at same
  refine ⟨?_, ?_, orderly.nodup, fun some => orderly.first (loaded some).done, orderly.behind⟩
  · simp only [alone_eq, found, and_self]
    exact each
  · intro p v known
    rw [alone_eq]
    exact agrees'.verdicts p v known

/-- The answers to requests do not depend on what else has been asked, and a full verification
accepts just when all of its passes do, and otherwise gives the first rejection. -/
theorem answers_alone (ran : ds.mapM Demand.request ⟨r, named name settings⟩ = .ok (vs, s)) :
    Consistent r name settings ds vs s ∧
      ∀ v, alone r name settings .full = .ok v ↔
        FirstVerdict (fun p => alone r name settings (.pass p))
          (fullPasses settings (methodCount r name settings)) v := by
  refine ⟨consistent_of_run ran, fun v => ?_⟩
  simp only [alone_eq]
  change fullAnswer _ settings = .ok v ↔ _
  rw [fullAnswer_eq, firstAnswer_eq_ok_iff]
  rfl

end Alone

open ClassFile

def idleInfo : List UInt8 := [0, 0, 0, 0, 0, 0, 0, 1, 0xB1, 0, 0, 0, 0]

def idle : ClassFile := { reversed with methods := [⟨⟨0x0009⟩, 6, 7, [⟨5, idleInfo⟩]⟩] }

def idleBytes : List UInt8 := reversedBytes.take 82 ++ [0, 0, 0, 13] ++ idleInfo ++ [0, 0]

def idleRepository : Repository := .add "a/Foo" idleBytes .empty

def idleDemands : List Demand :=
  [.pass (.flow 7), .full, .pass (.codeRules 7), .pass .classRules, .full]

theorem parse_idle : parse idleBytes = .ok idle := by
  have built : idle.pool.Built :=
    Pool.built_ofConstants (by decide) (by decide +kernel) (by decide)
  exact parse_of_writable ⟨⟨by decide, by decide, by decide⟩, Pool.lawful_of_built built, by decide⟩
    (by decide +kernel)

theorem load_idle : (load "a/Foo" 65 idleRepository).1 = .ok idle :=
  load_add internalForm_reversed parse_idle (by decide +kernel)

theorem not_reverses_idle (m : Nat) : ¬ idle.Reverses m := by
  rintro ⟨code, l, s, e, found, _, before, after, guarded, _⟩
  cases m with
  | zero =>
    have only : idle.codeToCheck? 0 = .ok (some ⟨0, 0, [0xB1], [], []⟩) := by decide +kernel
    cases found.symm.trans only
    simp at guarded
  | succ m =>
    have none : idle.codeToCheck? (m + 1) = .error (.noMethod 1) := rfl
    cases found.symm.trans none

theorem exists_answer_idle (d : Demand) : ∃ v, d.answer (.ok idle) .standard = .ok v := by
  cases known : d.answer (.ok idle) .standard with
  | ok v => exact ⟨v, rfl⟩
  | error h =>
    obtain ⟨c, same, _, halts⟩ := (Demand.halts_iff d).mp ⟨h, known⟩
    cases same
    obtain ⟨m, reverses⟩ := Demand.exists_reverses_of_halts halts
    exact absurd reverses (not_reverses_idle m)

theorem answers_alone_idle : ∃ vs s,
    idleDemands.mapM Demand.request ⟨idleRepository, named "a/Foo" .standard⟩ = .ok (vs, s) ∧
      Consistent idleRepository "a/Foo" .standard idleDemands vs s ∧
        ∀ v, alone idleRepository "a/Foo" .standard .full = .ok v ↔
          FirstVerdict (fun p => alone idleRepository "a/Foo" .standard (.pass p))
            (fullPasses .standard (methodCount idleRepository "a/Foo" .standard)) v := by
  have agrees := agrees_start idleRepository "a/Foo" .standard
  have loaded : (load "a/Foo" Settings.standard.newestMajor idleRepository).1 = .ok idle := load_idle
  rw [internalForm_reversed, loaded] at agrees
  obtain ⟨vs, s, ran⟩ := (exists_run_iff agrees).mpr fun d _ =>
    exists_answer_idle d
  exact ⟨vs, s, ran, answers_alone ran⟩

end Verifier

end JvmClass
