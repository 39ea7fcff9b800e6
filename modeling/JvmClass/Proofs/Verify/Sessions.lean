import JvmClass.Proofs.Code.Halting
import JvmClass.Verify.Verifier

/-! What a verifier answers, whatever it was asked before.  Every pass has one answer that depends
only on the class that the repository has and on the settings.  A session agrees with these answers
when all the verdicts that it remembers are among them; each request gives its answer or comes to a
halt, and leaves the session in agreement.  So a run of requests comes to a halt just when one of
them does by itself, and that is so when the code of a method cannot be lifted because of a range
that ends before it starts. -/

namespace JvmClass

namespace Verifier

def answerBehind (found : Except Rejection ClassFile) (previous : Except Halt Verdict)
    (check : ClassFile → Except Halt (Except Rejection Unit)) : Except Halt Verdict :=
  match previous, found with
  | .ok .accepted, .ok c => (check c).map .ofExcept
  | v, _ => v

def rulesOfClass (c : ClassFile) : Except Halt (Except Rejection Unit) :=
  .ok (c.checkRules.mapError .inClass)

def rulesOfCode (method : Nat) (c : ClassFile) : Except Halt (Except Rejection Unit) :=
  (c.checkCode method).map fun x =>
    x.mapError fun e => .inCode (c.methodLabel method) e.offset? e.why

def rulesOfFlow (method : Nat) (c : ClassFile) : Except Halt (Except Rejection Unit) :=
  .ok (c.checkFlow method)

section Answers

variable (found : Except Rejection ClassFile)

def loadingAnswer : Except Halt Verdict := .ok (.ofExcept (found.map fun _ => ()))

def classAnswer : Except Halt Verdict := answerBehind found (loadingAnswer found) rulesOfClass

def codeAnswer (method : Nat) : Except Halt Verdict :=
  answerBehind found (classAnswer found) (rulesOfCode method)

def flowAnswer (method : Nat) : Except Halt Verdict :=
  answerBehind found (codeAnswer found method) (rulesOfFlow method)

def answer : Pass → Except Halt Verdict
  | .loading => loadingAnswer found
  | .classRules => classAnswer found
  | .codeRules method => codeAnswer found method
  | .flow method => flowAnswer found method

def firstAnswer : List (Except Halt Verdict) → Except Halt Verdict
  | [] => .ok .accepted
  | .ok .accepted :: answers => firstAnswer answers
  | v :: _ => v

def methodPasses (settings : Settings) (methods : List Nat) : List Pass :=
  methods.map .codeRules ++ if settings.checksFlow then methods.map .flow else []

def fullAnswer (settings : Settings) : Except Halt Verdict :=
  match classAnswer found with
  | .ok .accepted =>
    let methods := List.range (found.toOption.elim 0 (·.methods.length))
    firstAnswer ((methodPasses settings methods).map (answer found))
  | v => v

end Answers

def ask : Pass → Request Verdict
  | .loading => loading
  | .classRules => classRules
  | .codeRules method => codeRules method
  | .flow method => flow method

inductive Demand where
  | full
  | pass (p : Pass)

def Demand.request : Demand → Request Verdict
  | full => verify
  | pass p => ask p

def Demand.answer (found : Except Rejection ClassFile) (settings : Settings) :
    Demand → Except Halt Verdict
  | full => fullAnswer found settings
  | pass p => Verifier.answer found p

/-- What loading finds in a session in which it has not been done yet. -/
def toBeLoaded (s : Session) : Except Rejection ClassFile :=
  (load s.verifier.className s.verifier.settings.newestMajor s.repository).1

structure Loaded (found : Except Rejection ClassFile) (s : Session) : Prop where
  done : (s.verifier.verdicts[Pass.loading]?).isSome = true
  class? : s.verifier.class? = found.toOption

/-- All that is remembered are answers, and loading was done before anything else. -/
structure Agrees (found : Except Rejection ClassFile) (settings : Settings) (s : Session) : Prop where
  settings : s.verifier.settings = settings
  verdicts : ∀ (p : Pass) v, s.verifier.verdicts[p]? = some v → answer found p = .ok v
  loaded : ∀ (p : Pass) v, s.verifier.verdicts[p]? = some v → Loaded found s
  fresh : s.verifier.verdicts[Pass.loading]? = none →
    toBeLoaded s = found ∧ s.verifier.class? = none

def Gives (found : Except Rejection ClassFile) (settings : Settings) (request : Request Verdict)
    (s : Session) (v : Verdict) : Prop :=
  ∃ t, request s = .ok (v, t) ∧ Agrees found settings t ∧ Loaded found t

/-- In all sessions that agree, the request gives this answer, or comes to this halt. -/
def Answers (found : Except Rejection ClassFile) (settings : Settings) (request : Request Verdict) :
    Except Halt Verdict → Prop
  | .ok v => ∀ s, Agrees found settings s → Gives found settings request s v
  | .error h => ∀ s, Agrees found settings s → request s = .error h

variable {found : Except Rejection ClassFile} {settings : Settings} {s t : Session}
  {request : Request Verdict} {previous a : Except Halt Verdict} {p : Pass} {v : Verdict}
  {check : ClassFile → Except Halt (Except Rejection Unit)}

theorem bind_apply {α β : Type} (x : Request α) (f : α → Request β) (s : Session) :
    (x >>= f) s = x s >>= fun p => f p.1 p.2 := rfl

theorem record_apply (p : Pass) (v : Verdict) (s : Session) :
    record p v s = .ok (v, { s with verifier := { s.verifier with
      verdicts := s.verifier.verdicts.insert p v
      executed := s.verifier.executed.push p } }) := rfl

/-- An answer is remembered when loading has been done, or just when it is. -/
theorem gives_record (same : s.verifier.settings = settings)
    (verdicts : ∀ (q : Pass) w, s.verifier.verdicts[q]? = some w → answer found q = .ok w)
    (known : answer found p = .ok v) (class? : s.verifier.class? = found.toOption)
    (done : p = .loading ∨ (s.verifier.verdicts[Pass.loading]?).isSome = true) :
    Gives found settings (record p v) s v := by
  refine ⟨_, record_apply p v s, ?_⟩
  generalize recorded : (⟨s.repository, ⟨s.verifier.className, s.verifier.settings,
    s.verifier.class?, s.verifier.verdicts.insert p v, s.verifier.executed.push p⟩⟩ : Session) = t
  have there (q : Pass) : t.verifier.verdicts[q]? =
      if p == q then some v else s.verifier.verdicts[q]? := by
    rw [← recorded]
    exact Std.HashMap.getElem?_insert
  have loaded : Loaded found t := by
    refine ⟨?_, by rw [← recorded]; exact class?⟩
    rw [there]
    split
    · rfl
    · rename_i other
      obtain rfl | done := done
      · simp at other
      · exact done
  refine ⟨⟨by rw [← recorded]; exact same, fun q w here => ?_, fun _ _ _ => loaded, ?_⟩, loaded⟩
  · rw [there] at here
    split at here
    · rename_i same
      cases here
      cases beq_iff_eq.mp same
      exact known
    · exact verdicts q w here
  · intro absent
    have done := loaded.done
    rw [absent] at done
    cases done

theorem Agrees.record (agrees : Agrees found settings s) (known : answer found p = .ok v)
    (loaded : Loaded found s) : Gives found settings (record p v) s v :=
  gives_record agrees.settings agrees.verdicts known loaded.class? (.inr loaded.done)

theorem remembered_apply (p : Pass) (request : Request Verdict) (s : Session) :
    remembered p request s =
      match s.verifier.verdicts[p]? with
      | some v => .ok (v, s)
      | none => request s := by
  change (match s.verifier.verdicts[p]? with
    | some v => pure v
    | none => request : Request Verdict) s = _
  cases s.verifier.verdicts[p]? <;> rfl

theorem answers_remembered
    (gives : ∀ v, answer found p = .ok v → ∀ s, Agrees found settings s →
      s.verifier.verdicts[p]? = none → Gives found settings (remembered p request) s v)
    (halts : ∀ h, answer found p = .error h → ∀ s, Agrees found settings s →
      s.verifier.verdicts[p]? = none → remembered p request s = .error h) :
    Answers found settings (remembered p request) (answer found p) := by
  cases known : answer found p with
  | error h =>
    intro s agrees
    cases there : s.verifier.verdicts[p]? with
    | some v => cases known.symm.trans (agrees.verdicts p v there)
    | none => exact halts h known s agrees there
  | ok v =>
    intro s agrees
    cases there : s.verifier.verdicts[p]? with
    | some w =>
      cases known.symm.trans (agrees.verdicts p w there)
      refine ⟨s, ?_, agrees, agrees.loaded p v there⟩
      rw [remembered_apply, there]
    | none => exact gives v known s agrees there

theorem loading_apply (absent : s.verifier.verdicts[Pass.loading]? = none) :
    loading s = match load s.verifier.className s.verifier.settings.newestMajor s.repository with
      | (.error e, r) => record .loading (.rejected e) { s with repository := r }
      | (.ok c, r) => record .loading .accepted ⟨r, { s.verifier with class? := some c }⟩ := by
  unfold loading
  rw [remembered_apply, absent]
  dsimp only
  rw [bind_apply]
  change (match load s.verifier.className s.verifier.settings.newestMajor s.repository with
    | (.error e, r) => (do
      set { s with repository := r }
      record .loading (.rejected e) : Request Verdict)
    | (.ok c, r) => do
      set (Session.mk r { s.verifier with class? := some c })
      record .loading .accepted) s = _
  obtain ⟨result, r⟩ := load s.verifier.className s.verifier.settings.newestMajor s.repository
  cases result <;> rfl

theorem answers_loading : Answers found settings loading (answer found .loading) := by
  refine answers_remembered (fun v known s agrees absent => ?_) fun h known => nomatch known
  obtain ⟨found', none⟩ := agrees.fresh absent
  unfold toBeLoaded at found'
  cases known
  change Gives found settings loading s _
  unfold Gives
  rw [loading_apply absent]
  cases run : load s.verifier.className s.verifier.settings.newestMajor s.repository with
  | mk result r =>
    rw [run] at found'
    cases found'
    cases result with
    | error e =>
      exact gives_record (s := { s with repository := r }) agrees.settings agrees.verdicts rfl none
        (.inl rfl)
    | ok c =>
      exact gives_record (s := ⟨r, { s.verifier with class? := some c }⟩) agrees.settings
        agrees.verdicts rfl rfl (.inl rfl)

def proceed (p : Pass) (check : ClassFile → Except Halt (Except Rejection Unit)) :
    Verdict → Option ClassFile → Session → Except Halt (Verdict × Session)
  | .accepted, some c, s => check c >>= fun x => record p (.ofExcept x) s
  | v, _, s => .ok (v, s)

theorem behind_apply (absent : s.verifier.verdicts[p]? = none) :
    behind request p check s =
      request s >>= fun r => proceed p check r.1 r.2.verifier.class? r.2 := by
  unfold behind
  rw [remembered_apply, absent]
  dsimp only
  rw [bind_apply]
  cases request s with
  | error h => rfl
  | ok r =>
    obtain ⟨v, repository, className, settings, class?, verdicts, executed⟩ := r
    cases v with
    | rejected why => rfl
    | accepted =>
      cases class? with
      | none => rfl
      | some c =>
        change (check c >>= fun x => .ok (x, _)) >>= _ =
          check c >>= fun x => record p (.ofExcept x) _
        cases check c <;> rfl

theorem proceed_of_halt {w : Verdict} {h : Halt}
    (halts : answerBehind found (.ok w) check = .error h) :
    proceed p check w found.toOption s = .error h := by
  cases w with
  | rejected why => cases halts
  | accepted =>
    cases found with
    | error e => cases halts
    | ok c =>
      change (check c).map Verdict.ofExcept = .error h at halts
      change check c >>= _ = _
      cases checked : check c with
      | error h' =>
        rw [checked] at halts
        cases halts
        rfl
      | ok x =>
        rw [checked] at halts
        cases halts

theorem proceed_of_answer {w : Verdict} (agrees : Agrees found settings s) (loaded : Loaded found s)
    (known : answer found p = .ok v) (gives : answerBehind found (.ok w) check = .ok v) :
    ∃ t, proceed p check w found.toOption s = .ok (v, t) ∧ Agrees found settings t ∧
      Loaded found t := by
  cases w with
  | rejected why =>
    cases gives
    exact ⟨s, rfl, agrees, loaded⟩
  | accepted =>
    cases found with
    | error e =>
      cases gives
      exact ⟨s, rfl, agrees, loaded⟩
    | ok c =>
      change (check c).map Verdict.ofExcept = .ok v at gives
      change ∃ t, (check c >>= _) = _ ∧ _
      cases checked : check c with
      | error h =>
        rw [checked] at gives
        cases gives
      | ok x =>
        rw [checked] at gives
        cases gives
        exact agrees.record known loaded

theorem answers_behind (before : Answers found settings request previous)
    (known : answer found p = answerBehind found previous check) :
    Answers found settings (behind request p check) (answer found p) := by
  refine answers_remembered (fun v answered s agrees absent => ?_) fun h answered s agrees absent => ?_
  · change Gives found settings (behind request p check) s v
    unfold Gives
    rw [behind_apply absent]
    cases previous with
    | error h => cases answered.symm.trans known
    | ok w =>
      obtain ⟨t, ran, agrees', loaded⟩ := before s agrees
      rw [ran]
      change ∃ u, proceed p check w t.verifier.class? t = _ ∧ _
      rw [loaded.class?]
      exact proceed_of_answer agrees' loaded answered (known.symm.trans answered)
  · change behind request p check s = .error h
    rw [behind_apply absent]
    cases previous with
    | error h' =>
      cases answered.symm.trans known
      rw [before s agrees]
      rfl
    | ok w =>
      obtain ⟨t, ran, agrees', loaded⟩ := before s agrees
      rw [ran]
      change proceed p check w t.verifier.class? t = _
      rw [loaded.class?]
      exact proceed_of_halt (known.symm.trans answered)

theorem answers_classRules : Answers found settings classRules (answer found .classRules) :=
  answers_behind answers_loading rfl

theorem answers_codeRules (method : Nat) :
    Answers found settings (codeRules method) (answer found (.codeRules method)) :=
  answers_behind answers_classRules rfl

theorem answers_flow (method : Nat) :
    Answers found settings (flow method) (answer found (.flow method)) :=
  answers_behind (answers_codeRules method) rfl

theorem firstRejection_apply (requests : List (Request Verdict)) (s : Session) :
    firstRejection (request :: requests) s = request s >>= fun r =>
      match r.1 with
      | .accepted => firstRejection requests r.2
      | v => .ok (v, r.2) := by
  conv => lhs; rw [firstRejection, bind_apply]
  cases request s with
  | error h => rfl
  | ok r =>
    obtain ⟨v, t⟩ := r
    cases v <;> rfl

section FirstRejection

variable {requests : List (Request Verdict)} {answers : List (Except Halt Verdict)}
  (each : List.Forall₂ (Answers found settings) requests answers)
include each

theorem gives_firstRejection (first : firstAnswer answers = .ok v)
    (agrees : Agrees found settings s) (loaded : Loaded found s) :
    Gives found settings (firstRejection requests) s v := by
  induction each generalizing s with
  | nil =>
    cases first
    exact ⟨s, rfl, agrees, loaded⟩
  | @cons request a requests answers here _ ih =>
    unfold Gives
    rw [firstRejection_apply]
    cases a with
    | error h => cases first
    | ok w =>
      obtain ⟨t, ran, agrees', loaded'⟩ := here s agrees
      rw [ran]
      cases w with
      | accepted => exact ih first agrees' loaded'
      | rejected why =>
        cases first
        exact ⟨t, rfl, agrees', loaded'⟩

theorem firstRejection_of_halt {h : Halt} (first : firstAnswer answers = .error h)
    (agrees : Agrees found settings s) : firstRejection requests s = .error h := by
  induction each generalizing s with
  | nil => cases first
  | @cons request a requests answers here _ ih =>
    rw [firstRejection_apply]
    cases a with
    | error h' =>
      cases first
      rw [here s agrees]
      rfl
    | ok w =>
      obtain ⟨t, ran, agrees', _⟩ := here s agrees
      rw [ran]
      cases w with
      | accepted => exact ih first agrees'
      | rejected why => cases first

end FirstRejection

theorem answers_ask (p : Pass) : Answers found settings (ask p) (answer found p) := by
  cases p with
  | loading => exact answers_loading
  | classRules => exact answers_classRules
  | codeRules method => exact answers_codeRules method
  | flow method => exact answers_flow method

theorem verify_apply (s : Session) :
    verify s = classRules s >>= fun r =>
      match r.1 with
      | .accepted => firstRejection ((methodPasses r.2.verifier.settings
          (List.range (r.2.verifier.class?.elim 0 (·.methods.length)))).map ask) r.2
      | v => .ok (v, r.2) := by
  unfold verify
  rw [bind_apply]
  cases classRules s with
  | error h => rfl
  | ok r =>
    obtain ⟨v, t⟩ := r
    cases v with
    | rejected why => rfl
    | accepted =>
      change firstRejection _ t = firstRejection _ t
      unfold methodPasses
      rw [List.map_append, List.map_map]
      split <;> simp [Function.comp_def, ask]

theorem answers_verify : Answers found settings verify (fullAnswer found settings) := by
  have rules : Answers found settings classRules (classAnswer found) := answers_classRules
  have each (methods : List Nat) : List.Forall₂ (Answers found settings)
      ((methodPasses settings methods).map ask)
      ((methodPasses settings methods).map (answer found)) := by
    rw [List.forall₂_map_left_iff, List.forall₂_map_right_iff]
    exact List.forall₂_same.mpr fun p _ => answers_ask p
  unfold fullAnswer
  cases verdict : classAnswer found with
  | error h =>
    intro s agrees
    rw [verdict] at rules
    rw [verify_apply, rules s agrees]
    rfl
  | ok w =>
    rw [verdict] at rules
    cases w with
    | rejected why =>
      intro s agrees
      obtain ⟨t, ran, agrees', loaded⟩ := rules s agrees
      unfold Gives
      rw [verify_apply, ran]
      exact ⟨t, rfl, agrees', loaded⟩
    | accepted =>
      dsimp only
      have opened (s : Session) (agrees : Agrees found settings s) : ∃ t,
          Agrees found settings t ∧ Loaded found t ∧
            verify s = firstRejection ((methodPasses settings
              (List.range (found.toOption.elim 0 (·.methods.length)))).map ask) t := by
        obtain ⟨t, ran, agrees', loaded⟩ := rules s agrees
        refine ⟨t, agrees', loaded, ?_⟩
        rw [verify_apply, ran, ← agrees'.settings, ← loaded.class?]
        rfl
      cases first : firstAnswer ((methodPasses settings
          (List.range (found.toOption.elim 0 (·.methods.length)))).map (answer found)) with
      | ok v =>
        intro s agrees
        obtain ⟨t, agrees', loaded, same⟩ := opened s agrees
        unfold Gives
        rw [same]
        exact gives_firstRejection (each _) first agrees' loaded
      | error h =>
        intro s agrees
        obtain ⟨t, agrees', _, same⟩ := opened s agrees
        rw [same]
        exact firstRejection_of_halt (each _) first agrees'

theorem answers_request (d : Demand) :
    Answers found settings d.request (d.answer found settings) := by
  cases d with
  | full => exact answers_verify
  | pass p => exact answers_ask p

theorem mapM_request_apply (d : Demand) (ds : List Demand) (s : Session) :
    (d :: ds).mapM Demand.request s = d.request s >>= fun r =>
      ds.mapM Demand.request r.2 >>= fun rest => .ok (r.1 :: rest.1, rest.2) := by
  rw [List.mapM_cons, bind_apply]
  cases d.request s with
  | error h => rfl
  | ok r => exact bind_apply (ds.mapM Demand.request) (fun vs => pure (r.1 :: vs)) r.2

theorem run_of_answers {ds : List Demand} {vs : List Verdict} (agrees : Agrees found settings s)
    (each : List.Forall₂ (fun d v => Demand.answer found settings d = .ok v) ds vs) :
    ∃ t, ds.mapM Demand.request s = .ok (vs, t) ∧ Agrees found settings t := by
  induction each generalizing s with
  | nil => exact ⟨s, rfl, agrees⟩
  | @cons d v ds vs known _ ih =>
    have first : Answers found settings d.request (d.answer found settings) := answers_request d
    rw [known] at first
    obtain ⟨t, ran, agrees', _⟩ := first s agrees
    obtain ⟨u, others, agrees''⟩ := ih agrees'
    refine ⟨u, ?_, agrees''⟩
    rw [mapM_request_apply, ran]
    change (ds.mapM Demand.request t >>= _) = _
    rw [others]
    rfl

theorem halts_of_answer {ds : List Demand} (agrees : Agrees found settings s) {d : Demand}
    (member : d ∈ ds) {h : Halt} (halts : d.answer found settings = .error h) :
    ∃ h, ds.mapM Demand.request s = .error h := by
  induction ds generalizing s with
  | nil => cases member
  | cons e ds ih =>
    rw [mapM_request_apply]
    have first : Answers found settings e.request (e.answer found settings) := answers_request e
    cases known : e.answer found settings with
    | error h' =>
      rw [known] at first
      rw [first s agrees]
      exact ⟨h', rfl⟩
    | ok v =>
      rw [known] at first
      obtain ⟨t, ran, agrees', _⟩ := first s agrees
      obtain rfl | member := List.mem_cons.mp member
      · cases known.symm.trans halts
      · obtain ⟨h', failed⟩ := ih agrees' member
        refine ⟨h', ?_⟩
        rw [ran]
        change (ds.mapM Demand.request t >>= _) = _
        rw [failed]
        rfl

/-- A run of requests gets to its end just when each of them has an answer. -/
theorem exists_run_iff {ds : List Demand} (agrees : Agrees found settings s) :
    (∃ vs t, ds.mapM Demand.request s = .ok (vs, t)) ↔
      ∀ d ∈ ds, ∃ v, d.answer found settings = .ok v := by
  constructor
  · rintro ⟨vs, t, ran⟩ d member
    cases known : d.answer found settings with
    | ok v => exact ⟨v, rfl⟩
    | error h =>
      obtain ⟨h', failed⟩ := halts_of_answer agrees member known
      cases ran.symm.trans failed
  · intro each
    obtain ⟨vs, known⟩ := exists_mapM each
    obtain ⟨t, ran, _⟩ := run_of_answers agrees (mapM_eq_ok_iff.mp known)
    exact ⟨vs, t, ran⟩

end Verifier

end JvmClass
