import JvmClass.Proofs.ClassNames
import JvmClass.Proofs.Results
import JvmClass.Proofs.Verify.AttributeNames
import JvmClass.Proofs.Verify.Lookups

/-! What the command line tool prints for a directory.  All classes share one repository, and what a
verifier finds there depends on nothing but the bytes under the internal form of its name.  These are
the bytes of the last class with that form, which is another class when a name has dots.  When no two
classes share a form, every class gets the verdict that it would get by itself. -/

namespace JvmClass

namespace Verifier

variable {r r' r'' : Repository} {name : String} {newest : UInt16} {settings : Settings} {p : Pass}
  {request : Request Verdict} {check : ClassFile → Except Halt (Except Rejection Unit)}

def loadedFrom (name : String) (newest : UInt16) :
    Except Error (Option ClassFile) → Except Rejection ClassFile
  | .error e => .error (.error e)
  | .ok none => .error (.missing name)
  | .ok (some c) => (c.checkLoaded name newest).map fun () => c

/-- The second repository has the bytes of the first, and keeps only what they decode to. -/
structure Preserves (r r' : Repository) : Prop where
  sources : r'.sources = r.sources
  faithful : r'.Faithful

theorem Preserves.trans (first : Preserves r r') (second : Preserves r' r'') : Preserves r r'' :=
  ⟨second.sources.trans first.sources, second.faithful⟩

theorem load_eq (faithful : r.Faithful) (name : String) (newest : UInt16) :
    (load name newest r).1 =
      loadedFrom name newest (Repository.decode r.sources[Name.internalForm name]?) := by
  obtain ⟨c?, r', found, looks⟩ | ⟨e, failed, answer⟩ := faithful.lookup_cases name
  · rw [looks.answer]
    unfold load
    rw [found]
    cases c? <;> rfl
  · rw [answer]
    unfold load
    rw [failed]
    rfl

theorem preserves_load (faithful : r.Faithful) (name : String) (newest : UInt16) :
    Preserves r (load name newest r).2 := by
  obtain ⟨c?, r', found, looks⟩ | ⟨e, failed, _⟩ := faithful.lookup_cases name
  · have same : (load name newest r).2 = r' := by
      unfold load
      rw [found]
      cases c? <;> rfl
    rw [same]
    exact ⟨looks.sources, looks.faithful faithful⟩
  · have same : (load name newest r).2 = r := by
      unfold load
      rw [failed]
    rw [same]
    exact ⟨rfl, faithful⟩

theorem alone_eq_of_faithful (faithful : r.Faithful) (name : String) (settings : Settings)
    (d : Demand) : alone r name settings d =
      d.answer (loadedFrom (Name.internalForm name) settings.newestMajor
        (Repository.decode r.sources[Name.internalForm name]?)) settings := by
  rw [alone_eq, load_eq faithful, Name.internalForm_internalForm]

def Tends (request : Request Verdict) : Prop :=
  ∀ s v t, s.repository.Faithful → request s = .ok (v, t) → Preserves s.repository t.repository

theorem tends_remembered (tends : ∀ s v t, s.repository.Faithful →
      s.verifier.verdicts[p]? = none → remembered p request s = .ok (v, t) →
        Preserves s.repository t.repository) :
    Tends (remembered p request) := by
  intro s v t faithful ran
  cases there : s.verifier.verdicts[p]? with
  | none => exact tends s v t faithful there ran
  | some w =>
    rw [remembered_apply, there] at ran
    cases ran
    exact ⟨rfl, faithful⟩

theorem tends_loading : Tends loading := by
  refine tends_remembered fun s v t faithful absent ran => ?_
  change loading s = _ at ran
  rw [loading_apply absent] at ran
  have preserves :=
    preserves_load faithful s.verifier.className s.verifier.settings.newestMajor
  cases run : load s.verifier.className s.verifier.settings.newestMajor s.repository with
  | mk result r =>
    rw [run] at ran preserves
    cases result <;> cases ran <;> exact preserves

theorem tends_behind (before : Tends request) : Tends (behind request p check) := by
  refine tends_remembered fun s v t faithful absent ran => ?_
  change behind request p check s = _ at ran
  rw [behind_apply absent] at ran
  obtain ⟨⟨w, u⟩, first, ran⟩ := bind_eq_ok ran
  have preserves := before s w u faithful first
  unfold proceed at ran
  split at ran
  · obtain ⟨x, _, ran⟩ := bind_eq_ok ran
    cases ran
    exact preserves
  · cases ran
    exact preserves

theorem tends_ask (p : Pass) : Tends (ask p) := by
  have rules : Tends classRules := tends_behind tends_loading
  have code (method : Nat) : Tends (codeRules method) := tends_behind rules
  cases p with
  | loading => exact tends_loading
  | classRules => exact rules
  | codeRules method => exact code method
  | flow method => exact tends_behind (code method)

theorem tends_firstRejection (ps : List Pass) : Tends (firstRejection (ps.map ask)) := by
  induction ps with
  | nil =>
    intro s v t faithful ran
    cases ran
    exact ⟨rfl, faithful⟩
  | cons p ps ih =>
    intro s v t faithful ran
    rw [List.map_cons, firstRejection_apply] at ran
    obtain ⟨⟨w, u⟩, first, ran⟩ := bind_eq_ok ran
    have preserves := tends_ask p s w u faithful first
    cases w with
    | rejected why =>
      cases ran
      exact preserves
    | accepted => exact preserves.trans (ih u v t preserves.faithful ran)

theorem tends_verify : Tends verify := by
  intro s v t faithful ran
  rw [verify_apply] at ran
  obtain ⟨⟨w, u⟩, first, ran⟩ := bind_eq_ok ran
  have preserves : Preserves s.repository u.repository := tends_ask .classRules s w u faithful first
  cases w with
  | rejected why =>
    cases ran
    exact preserves
  | accepted => exact preserves.trans (tends_firstRejection _ u v t preserves.faithful ran)

end Verifier

namespace Report

variable {r : Repository} {settings : Settings} {classes : List (String × List UInt8)}
  {c : String × List UInt8}

/-- What a class gets from a verifier whose repository holds nothing else. -/
def byItself (settings : Settings) (c : String × List UInt8) : Except Halt Verdict :=
  Verifier.alone (Repository.empty.add c.1 c.2) c.1 settings .full

def upToHalt : List (String × Except Halt Verdict) → List (String × Verdict) × Option Halt
  | [] => ([], none)
  | (_, .error h) :: _ => ([], some h)
  | (name, .ok v) :: answers => ((name, v) :: (upToHalt answers).1, (upToHalt answers).2)

def ofAnswers (answers : List (String × Except Halt Verdict)) : Report :=
  let (vs, h?) := upToHalt answers
  let status := if h?.isSome then haltStatus else if vs.all (·.2.isAccepted) then 0 else 1
  ⟨String.join (vs.map fun (name, v) => line name v), status⟩

def additions (classes : List (String × List UInt8)) : List Repository.Command :=
  classes.map fun c => .add c.1 c.2

/-- A class with the bytes of the last class whose name has the same internal form. -/
def overwritten (classes : List (String × List UInt8)) (c : String × List UInt8) :
    String × List UInt8 :=
  (c.1, (Repository.newest? c.1 (additions classes)).getD c.2)

theorem verdicts_eq (faithful : r.Faithful) (names : List String) :
    verdicts settings names r =
      upToHalt (names.map fun name => (name, Verifier.alone r name settings .full)) := by
  induction names generalizing r with
  | nil => rfl
  | cons name names ih =>
    rw [List.map_cons, verdicts]
    have alone : Verifier.alone r name settings .full =
        (Verifier.verify ⟨r, .named name settings⟩).map (·.1) := rfl
    cases ran : Verifier.verify ⟨r, .named name settings⟩ with
    | error h =>
      rw [alone, ran]
      rfl
    | ok result =>
      obtain ⟨v, t⟩ := result
      have preserves : Verifier.Preserves r t.repository :=
        Verifier.tends_verify _ v t faithful ran
      -- The classes that come later find the same bytes, decoded or not.
      have same (name : String) : Verifier.alone t.repository name settings .full =
          Verifier.alone r name settings .full := by
        rw [Verifier.alone_eq_of_faithful preserves.faithful, preserves.sources,
          Verifier.alone_eq_of_faithful faithful]
      rw [alone, ran]
      change ((name, v) :: (verdicts settings names t.repository).1,
        (verdicts settings names t.repository).2) = _
      rw [ih preserves.faithful]
      simp only [same]
      rfl

theorem foldl_add : classes.foldl (fun r (name, bytes) => r.add name bytes) Repository.empty =
    Repository.empty.after (additions classes) := by
  unfold Repository.after additions
  rw [List.foldl_map]
  rfl

theorem newest?_additions (member : c ∈ classes) :
    ∃ d ∈ classes, Name.internalForm d.1 = Name.internalForm c.1 ∧
      Repository.newest? c.1 (additions classes) = some d.2 := by
  cases newest : Repository.newest? c.1 (additions classes) with
  | none =>
    have none := List.findSome?_eq_none_iff.mp newest (.add c.1 c.2)
      (List.mem_reverse.mpr (List.mem_map_of_mem member))
    simp [Repository.Command.bytes?] at none
  | some bytes =>
    obtain ⟨x, listed, put⟩ := List.exists_of_findSome?_eq_some newest
    obtain ⟨d, member, rfl⟩ := List.mem_map.mp (List.mem_reverse.mp listed)
    rw [Repository.Command.bytes?] at put
    split at put
    · rename_i same
      exact ⟨d, member, same, congrArg some (Option.some.inj put).symm⟩
    · cases put

theorem alone_additions (member : c ∈ classes) :
    Verifier.alone (Repository.empty.after (additions classes)) c.1 settings .full =
      byItself settings (overwritten classes c) := by
  obtain ⟨d, _, _, newest⟩ := newest?_additions member
  have shared := Verifier.alone_eq_of_faithful
    (Repository.faithful_after (additions classes)) c.1 settings .full
  have single := Verifier.alone_eq_of_faithful
    (Repository.faithful_after [.add c.1 (overwritten classes c).2]) c.1 settings .full
  rw [Repository.sources_after, newest] at shared
  rw [Repository.sources_after, Repository.newest?_add, overwritten, newest] at single
  rw [byItself, overwritten, newest]
  exact shared.trans single.symm

theorem ofClasses_eq (settings : Settings) (classes : List (String × List UInt8)) :
    ofClasses settings classes =
      ofAnswers (classes.map fun c => (c.1, byItself settings (overwritten classes c))) := by
  have same : (classes.map (·.1)).map (fun name => (name, Verifier.alone
      (Repository.empty.after (additions classes)) name settings .full)) =
        classes.map fun c => (c.1, byItself settings (overwritten classes c)) := by
    rw [List.map_map]
    exact List.map_congr_left fun c member => Prod.ext rfl (alone_additions member)
  unfold ofClasses ofAnswers
  dsimp only
  rw [foldl_add, verdicts_eq (Repository.faithful_after _), same]

def Apart (classes : List (String × List UInt8)) : Prop :=
  ∀ c ∈ classes, ∀ d ∈ classes, Name.internalForm d.1 = Name.internalForm c.1 → d.2 = c.2

theorem Apart.overwritten_eq (apart : Apart classes) (member : c ∈ classes) :
    overwritten classes c = c := by
  obtain ⟨d, listed, same, newest⟩ := newest?_additions member
  rw [overwritten, newest]
  exact Prod.ext rfl (apart c member d listed same)

/-- The report has one line for each class, with the verdict that it gets by itself, and the status
tells whether one of them is rejected. -/
def IsOwn (settings : Settings) (classes : List (String × List UInt8)) (report : Report) : Prop :=
  ∃ vs, List.Forall₂ (fun c v => byItself settings c = .ok v) classes vs ∧
    report.text = String.join (List.zipWith line (classes.map (·.1)) vs) ∧
    report.status = if ∀ v ∈ vs, v.isAccepted = true then 0 else 1

theorem upToHalt_of_answers {vs : List Verdict}
    (each : List.Forall₂ (fun c v => byItself settings c = .ok v) classes vs) :
    upToHalt (classes.map fun c => (c.1, byItself settings c)) =
      ((classes.map (·.1)).zip vs, none) := by
  induction each with
  | nil => rfl
  | cons known _ ih =>
    rw [List.map_cons, known, upToHalt, ih]
    rfl

theorem isOwn_ofAnswers (answered : ∀ c ∈ classes, ∃ v, byItself settings c = .ok v) :
    IsOwn settings classes (ofAnswers (classes.map fun c => (c.1, byItself settings c))) := by
  obtain ⟨vs, all⟩ := exists_mapM answered
  have each := mapM_eq_ok_iff.mp all
  have verdicts : ((classes.map (·.1)).zip vs).map (·.2) = vs :=
    List.map_snd_zip (by simp [each.length_eq])
  unfold ofAnswers
  rw [upToHalt_of_answers each]
  refine ⟨vs, each, ?_, ?_⟩
  · exact congrArg String.join (List.map_zip_eq_zipWith)
  · have all : ((classes.map (·.1)).zip vs).all (·.2.isAccepted) = vs.all (·.isAccepted) := by
      rw [← verdicts, List.all_map, verdicts]
      rfl
    dsimp only
    rw [all]
    simp

def classesOf (files : List (String × List UInt8)) : List (String × List UInt8) :=
  (Target.directory files).classes none

theorem apart_of_dotless {files : List (String × List UInt8)}
    (once : (files.map fun f => Target.components f.1.toList).Nodup)
    (dotless : ∀ c ∈ classesOf files, '.' ∉ c.1.toList) : Apart (classesOf files) := by
  intro c member d member' same
  rw [Name.internalForm_of_dotless (dotless c member),
    Name.internalForm_of_dotless (dotless d member')] at same
  have clear := dotless c member
  obtain ⟨⟨path, bytes⟩, listed, named⟩ := List.mem_filterMap.mp member
  obtain ⟨⟨path', bytes'⟩, listed', named'⟩ := List.mem_filterMap.mp member'
  obtain ⟨name, found, rfl⟩ := Option.map_eq_some_iff.mp named
  obtain ⟨name', found', rfl⟩ := Option.map_eq_some_iff.mp named'
  obtain rfl : name' = name := same
  have route := Target.components_eq found' found clear
  cases List.inj_on_of_nodup_map once listed' listed route
  rfl

/-- For a directory, the tool reports on every class with the bytes of the last class whose name has
the same internal form.  When classes with the same form have the same bytes, and none of them comes
to a halt, each gets the verdict that it would get by itself. -/
theorem report_of_directory (a : Arguments) (files : List (String × List UInt8)) :
    ofTarget a (.directory files) = ofAnswers ((classesOf files).map fun c =>
      (c.1, byItself a.settings (overwritten (classesOf files) c))) ∧
    (Apart (classesOf files) → (∀ c ∈ classesOf files, ∃ v, byItself a.settings c = .ok v) →
      IsOwn a.settings (classesOf files) (ofTarget a (.directory files))) := by
  have general := ofClasses_eq a.settings (classesOf files)
  refine ⟨general, fun apart answered => ?_⟩
  have own : (classesOf files).map (fun c =>
      (c.1, byItself a.settings (overwritten (classesOf files) c))) =
        (classesOf files).map fun c => (c.1, byItself a.settings c) :=
    List.map_congr_left fun c member => by rw [apart.overwritten_eq member]
  rw [own] at general
  change IsOwn _ _ (ofClasses a.settings (classesOf files))
  rw [general]
  exact isOwn_ofAnswers answered

def plainArguments : Arguments := ⟨none, none, false, "."⟩

theorem byItself_eq (settings : Settings) (c : String × List UInt8) :
    byItself settings c = Verifier.fullAnswer (Verifier.loadedFrom (Name.internalForm c.1)
      settings.newestMajor ((ClassFile.parse c.2).map some)) settings := by
  have single := Verifier.alone_eq_of_faithful
    (Repository.faithful_after [.add c.1 c.2]) c.1 settings .full
  rw [Repository.sources_after, Repository.newest?_add] at single
  exact single

theorem byItself_of_error {e : Error} (fails : ClassFile.parse c.2 = .error e) :
    byItself settings c = .ok (.rejected (.error e)) := by
  rw [byItself_eq, fails]
  rfl

theorem byItself_nameless {name : String} (internal : Name.internalForm name = "a/Foo") :
    byItself .standard (name, Verifier.namelessBytes) = .ok .accepted := by
  have loaded : Verifier.loadedFrom "a/Foo" 65 (.ok (some Verifier.nameless)) =
      .ok Verifier.nameless := by
    have checked : Verifier.nameless.checkLoaded "a/Foo" 65 = .ok () := by decide +kernel
    rw [Verifier.loadedFrom, checked]
    rfl
  rw [byItself_eq, internal, Verifier.parse_nameless]
  exact (congrArg (Verifier.fullAnswer · .standard) loaded).trans Verifier.fullAnswer_nameless

theorem exists_byItself_empty (name : String) :
    ∃ e, byItself .standard (name, []) = .ok (.rejected e) := by
  cases parsed : ClassFile.parse [] with
  | error e => exact ⟨_, byItself_of_error parsed⟩
  | ok c =>
    have fails : (ClassFile.parse []).isOk = false := by decide +kernel
    rw [parsed] at fails
    cases fails

def separate : List (String × List UInt8) :=
  [("a/Bar.class", []), ("a/Foo.class", Verifier.namelessBytes)]

def clashing : List (String × List UInt8) :=
  [("a.Foo.class", []), ("a/Foo.class", Verifier.namelessBytes)]

theorem classesOf_separate :
    classesOf separate = [("a/Bar", []), ("a/Foo", Verifier.namelessBytes)] := by
  decide +kernel

theorem classesOf_clashing :
    classesOf clashing = [("a.Foo", []), ("a/Foo", Verifier.namelessBytes)] := by
  decide +kernel

theorem report_of_directory_separate :
    Apart (classesOf separate) ∧
    (∀ c ∈ classesOf separate, ∃ v, byItself .standard c = .ok v) ∧
    IsOwn .standard (classesOf separate) (ofTarget plainArguments (.directory separate)) := by
  have apart : Apart (classesOf separate) :=
    apart_of_dotless (by decide +kernel) (by rw [classesOf_separate]; decide +kernel)
  have answered : ∀ c ∈ classesOf separate, ∃ v, byItself .standard c = .ok v := by
    rw [classesOf_separate]
    obtain ⟨e, fails⟩ := exists_byItself_empty "a/Bar"
    exact List.forall_mem_cons.mpr ⟨⟨_, fails⟩,
      List.forall_mem_singleton.mpr ⟨_, byItself_nameless (by decide +kernel)⟩⟩
  exact ⟨apart, answered, (report_of_directory plainArguments separate).2 apart answered⟩

theorem report_clashing :
    ofTarget plainArguments (.directory clashing) = ⟨" - a.Foo [OK]\n - a/Foo [OK]\n", 0⟩ := by
  have first : overwritten (classesOf clashing) ("a.Foo", []) =
      ("a.Foo", Verifier.namelessBytes) := by
    decide +kernel
  have second : overwritten (classesOf clashing) ("a/Foo", Verifier.namelessBytes) =
      ("a/Foo", Verifier.namelessBytes) := by
    decide +kernel
  change ofClasses .standard (classesOf clashing) = _
  rw [ofClasses_eq, classesOf_clashing, List.map_cons, List.map_cons, List.map_nil,
    ← classesOf_clashing, first, second, byItself_nameless (by decide +kernel),
    byItself_nameless (by decide +kernel)]
  decide +kernel

/-- The bytes of the empty file are overwritten, and it is accepted in the place of the other. -/
theorem not_isOwn_clashing :
    ofTarget plainArguments (.directory clashing) = ⟨" - a.Foo [OK]\n - a/Foo [OK]\n", 0⟩ ∧
    (∃ e, byItself .standard ("a.Foo", []) = .ok (.rejected e)) ∧
    ¬ IsOwn .standard (classesOf clashing) (ofTarget plainArguments (.directory clashing)) := by
  obtain ⟨e, rejects⟩ := exists_byItself_empty "a.Foo"
  refine ⟨report_clashing, ⟨e, rejects⟩, ?_⟩
  rintro ⟨vs, each, _, status⟩
  rw [classesOf_clashing] at each
  obtain ⟨v, listed, known⟩ := exists_right_of_forall₂ each (List.mem_cons_self)
  rw [report_clashing] at status
  split at status
  · rename_i accepted
    have accepts := accepted v listed
    cases known.symm.trans rejects
    cases accepts
  · cases status

end Report

end JvmClass
