import JvmClass.Proofs.Code.Acceptance
import JvmClass.Proofs.Verify.Histories
import JvmClass.Proofs.Verify.Passes

/-! Which attributes have names.  A verified class has names for the attributes that are looked at
in order to find a constant value or the code, and for those inside the code.  All other attributes
may be without one: neither the class's own attributes nor those behind the one that was looked for
are asked for their names, so that it makes no difference to any verdict which of those without a
name there are. -/

namespace JvmClass

namespace Attribute

variable {p : Pool} {title : String} {a : Attribute} {as bs : List Attribute}

def IsNamed (p : Pool) (a : Attribute) : Prop := ∃ title, a.title p = .ok title

/-- Attributes have names up to the first one of a kind, and all of them if there is none. -/
def NamedUpTo (p : Pool) (title : String) (as : List Attribute) : Prop :=
  ∀ before a after, as = before ++ a :: after → (∀ b ∈ before, b.title p ≠ .ok title) → a.IsNamed p

theorem namedUpTo_nil : NamedUpTo p title [] := by simp [NamedUpTo]

theorem namedUpTo_cons : NamedUpTo p title (a :: as) ↔
    a.IsNamed p ∧ (a.title p ≠ .ok title → NamedUpTo p title as) := by
  constructor
  · intro named
    refine ⟨named [] a as rfl (by simp), fun other before b after split unseen => ?_⟩
    exact named (a :: before) b after (by rw [split]; rfl) (by simpa using ⟨other, unseen⟩)
  · rintro ⟨here, later⟩ before b after split unseen
    cases before with
    | nil =>
      cases split
      exact here
    | cons x before =>
      cases split
      obtain ⟨other, unseen⟩ := List.forall_mem_cons.mp unseen
      exact later other before b after rfl unseen

theorem exists_find?_iff : (∃ a?, find? p title as = .ok a?) ↔ NamedUpTo p title as := by
  induction as with
  | nil => exact iff_of_true ⟨none, rfl⟩ namedUpTo_nil
  | cons a as ih =>
    rw [namedUpTo_cons, ← ih, IsNamed, find?]
    cases a.title p with
    | error e => simp [bind, Except.bind]
    | ok found =>
      by_cases same : found = title <;> simp [bind, Except.bind, pure, Except.pure, same]

/-- Lists that are the same but for attributes without names, which a search for the first attribute
of a kind does not meet. -/
structure Agree (p : Pool) (title : String) (as bs : List Attribute) : Prop where
  named : as.filter (fun a => (a.title p).isOk) = bs.filter fun a => (a.title p).isOk
  found : find? p title as = find? p title bs

theorem Agree.findValue? {α : Type} [AttributeKind α] (agree : Agree p (AttributeKind.title α) as bs) :
    findValue? p α as = findValue? p α bs := by
  simp only [Attribute.findValue?, agree.found]

theorem forM_of_named {f : Attribute → Except Error Unit}
    (named : as.filter (fun a => (a.title p).isOk) = bs.filter fun a => (a.title p).isOk)
    (skips : ∀ a, (a.title p).isOk = false → f a = pure ()) : as.forM f = bs.forM f := by
  have kept (as : List Attribute) :
      (ForM.forM (as.filter fun a => (a.title p).isOk) f : Except Error Unit) = ForM.forM as f := by
    induction as with
    | nil => rfl
    | cons a as ih =>
      cases known : (a.title p).isOk with
      | true => simp [known, ih]
      | false => simp [known, ih, skips a known]
  change (ForM.forM as f : Except Error Unit) = ForM.forM bs f
  rw [← kept as, named, kept]

end Attribute

namespace Member

variable {d : Declaration} {p : Pool} {title : String}

structure Agree (p : Pool) (title : String) (m n : Member d) : Prop where
  flags : m.flags = n.flags
  name : m.name = n.name
  descriptor : m.descriptor = n.descriptor
  attributes : Attribute.Agree p title m.attributes n.attributes

variable {m n : Member d}

theorem Agree.nameIn (agree : m.Agree p title n) : m.nameIn p = n.nameIn p := by
  simp only [Member.nameIn, agree.name]

theorem Agree.descriptorIn (agree : m.Agree p title n) : m.descriptorIn p = n.descriptorIn p := by
  simp only [Member.descriptorIn, agree.descriptor]

theorem Agree.code? {m n : Method} (agree : m.Agree p (AttributeKind.title Code) n) :
    m.code? p = n.code? p :=
  agree.attributes.findValue?

end Member

namespace ClassFile

variable {c : ClassFile} {position : Nat}

/-- What verification knows of the names of attributes. -/
structure NamesAttributes (c : ClassFile) : Prop where
  fields : ∀ f ∈ c.fields,
    Attribute.NamedUpTo c.pool (AttributeKind.title ConstantValue) f.attributes
  methods : ∀ m ∈ c.methods, Attribute.NamedUpTo c.pool (AttributeKind.title Code) m.attributes
  nested : ∀ m ∈ c.methods, ∃ code?, m.code? c.pool = .ok code? ∧
    ∀ code ∈ code?, ∀ a ∈ code.attributes, a.IsNamed c.pool

theorem FieldRules.namedUpTo {f : Field} {name descriptor : String} {type : FieldType}
    {value? : Option ConstantValue} (rules : FieldRules c f name descriptor type value?) :
    Attribute.NamedUpTo c.pool (AttributeKind.title ConstantValue) f.attributes := by
  obtain ⟨a?, found, _⟩ := bind_eq_ok rules.starts
  exact Attribute.exists_find?_iff.mp ⟨a?, mapError_eq_ok_iff.mp found⟩

theorem MethodRules.namedUpTo {m : Method} {name descriptor : String} {type : MethodType}
    (rules : MethodRules c position m name descriptor type) :
    Attribute.NamedUpTo c.pool (AttributeKind.title Code) m.attributes := by
  obtain ⟨a?, found, _⟩ := bind_eq_ok rules.coded
  exact Attribute.exists_find?_iff.mp ⟨a?, ok_of_resolved found⟩

theorem namesAttributes_of_passes (rules : c.checkRules = .ok ())
    (code : ∀ m < c.methods.length, c.checkCode m = .ok (.ok ())) : c.NamesAttributes where
  fields f member := by
    obtain ⟨position, here⟩ := List.mem_iff_getElem?.mp member
    obtain ⟨_, _, _, keeps⟩ := declaresField_of_checkRules rules here
    exact keeps.namedUpTo
  methods m member := by
    obtain ⟨position, here⟩ := List.mem_iff_getElem?.mp member
    obtain ⟨_, _, keeps⟩ := declares_of_checkRules rules here
    exact keeps.namedUpTo
  nested m member := by
    obtain ⟨position, here⟩ := List.mem_iff_getElem?.mp member
    have checked := code position (List.getElem?_eq_some_iff.mp here).1
    cases found : c.codeToCheck? position with
    | error e => simp [checkCode, found] at checked
    | ok code? =>
      obtain ⟨m', here', body, _⟩ := exists_of_codeToCheck? found
      cases here.symm.trans here'
      refine ⟨code?, body, fun code isCode a listed => ?_⟩
      obtain rfl := Option.mem_def.mp isCode
      obtain ⟨b, lifted, _⟩ := exists_of_checkCode found checked
      obtain ⟨_, _, _, _, readable⟩ := Body.exists_lift_iff_readable.mp ⟨b, lifted⟩
      exact (readable a listed).titled

/-- Classes that are the same but for attributes without names, outside those that verification
knows to have one. -/
structure Agree (c c' : ClassFile) : Prop where
  version : c'.version = c.version
  pool : c'.pool = c.pool
  flags : c'.flags = c.flags
  thisClass : c'.thisClass = c.thisClass
  superClass : c'.superClass = c.superClass
  interfaces : c'.interfaces = c.interfaces
  fields : List.Forall₂ (Member.Agree c.pool (AttributeKind.title ConstantValue)) c.fields c'.fields
  methods : List.Forall₂ (Member.Agree c.pool (AttributeKind.title Code)) c.methods c'.methods
  attributes : c.attributes.filter (fun a => (a.title c.pool).isOk) =
    c'.attributes.filter fun a => (a.title c.pool).isOk

theorem isTitled_of_unnamed {p : Pool} {a : Attribute} (unnamed : (a.title p).isOk = false)
    (title : String) : isTitled p title a = false := by
  unfold isTitled
  cases known : a.title p with
  | error e => rfl
  | ok found =>
    rw [known] at unnamed
    cases unnamed

theorem checkKind_of_unnamed {p : Pool} {a : Attribute} (unnamed : (a.title p).isOk = false)
    (α : Type) [AttributeKind α] : checkKind α p a = pure () := by
  simp [checkKind, isTitled_of_unnamed unnamed]

theorem checkCodeAttribute_of_unnamed {p : Pool} {a : Attribute}
    (unnamed : (a.title p).isOk = false) : checkCodeAttribute p a = pure () := by
  simp [checkCodeAttribute, isTitled_of_unnamed unnamed]

namespace Agree

variable {c' : ClassFile}

theorem name (agree : c.Agree c') : c'.name = c.name := by
  simp only [ClassFile.name, agree.pool, agree.thisClass]

theorem method (agree : c.Agree c') (position : Nat) :
    (c.methods[position]? = none ∧ c'.methods[position]? = none) ∨
      ∃ m n, c.methods[position]? = some m ∧ c'.methods[position]? = some n ∧
        m.Agree c.pool (AttributeKind.title Code) n := by
  cases here : c.methods[position]? with
  | none =>
    have beyond := List.getElem?_eq_none_iff.mp here
    exact .inl ⟨rfl, List.getElem?_eq_none_iff.mpr (agree.methods.length_eq ▸ beyond)⟩
  | some m =>
    obtain ⟨n, there, same⟩ := getElem?_of_forall₂ agree.methods here
    exact .inr ⟨m, n, rfl, there, same⟩

theorem methodLabel (agree : c.Agree c') : c'.methodLabel position = c.methodLabel position := by
  unfold ClassFile.methodLabel
  rcases agree.method position with ⟨here, there⟩ | ⟨m, n, here, there, same⟩
  · simp [here, there]
  · simp [here, there, agree.pool, same.nameIn, same.descriptorIn]

theorem checkAttributes (agree : c.Agree c') : c'.checkAttributes = c.checkAttributes := by
  have own : c'.attributes.forM (checkKind SourceFile c.pool) =
      c.attributes.forM (checkKind SourceFile c.pool) :=
    (Attribute.forM_of_named agree.attributes fun a unnamed =>
      checkKind_of_unnamed unnamed SourceFile).symm
  have fields : (c'.fields.forM fun f => f.attributes.forM (checkKind ConstantValue c.pool)) =
      c.fields.forM fun f => f.attributes.forM (checkKind ConstantValue c.pool) :=
    (forM_congr_of_forall₂ agree.fields fun f g same =>
      Attribute.forM_of_named same.attributes.named fun a unnamed =>
        checkKind_of_unnamed unnamed ConstantValue).symm
  have methods : (c'.methods.forM fun m => m.attributes.forM fun a =>
        checkKind Exceptions c.pool a >>= fun _ => checkCodeAttribute c.pool a) =
      c.methods.forM fun m => m.attributes.forM fun a =>
        checkKind Exceptions c.pool a >>= fun _ => checkCodeAttribute c.pool a :=
    (forM_congr_of_forall₂ agree.methods fun m n same =>
      Attribute.forM_of_named same.attributes.named fun a unnamed => by
        rw [checkKind_of_unnamed unnamed, checkCodeAttribute_of_unnamed unnamed]
        rfl).symm
  unfold ClassFile.checkAttributes
  rw [agree.pool, own, fields, methods]

theorem checkLoaded (agree : c.Agree c') (requested : String) (newest : UInt16) :
    c'.checkLoaded requested newest = c.checkLoaded requested newest := by
  simp only [ClassFile.checkLoaded, checkName, checkVersion, agree.name, agree.version,
    agree.checkAttributes]

theorem checkHeader (agree : c.Agree c') : c'.checkHeader = c.checkHeader := by
  simp only [ClassFile.checkHeader, agree.name, agree.superClass, agree.pool, agree.interfaces,
    agree.flags]

theorem checkFields (agree : c.Agree c') : c'.checkFields = c.checkFields := by
  unfold ClassFile.checkFields
  refine congrArg _ (foldlM_zipIdx_congr_of_forall₂ agree.fields (fun s f g k same => ?_) ∅ 0).symm
  simp only [checkField, agree.pool, same.nameIn, same.descriptorIn, same.flags,
    same.attributes.findValue?]

theorem checkMethods (agree : c.Agree c') : c'.checkMethods = c.checkMethods := by
  unfold ClassFile.checkMethods
  refine congrArg _ (foldlM_zipIdx_congr_of_forall₂ agree.methods (fun s m n k same => ?_) ∅ 0).symm
  simp only [checkMethod, checkHasCode, checkConstructor, agree.pool, agree.flags, same.nameIn,
    same.descriptorIn, same.flags, same.attributes.found]

theorem checkRules (agree : c.Agree c') : c'.checkRules = c.checkRules := by
  simp only [ClassFile.checkRules, agree.pool, agree.checkHeader, agree.checkFields,
    agree.checkMethods]

theorem codeToCheck? (agree : c.Agree c') : c'.codeToCheck? position = c.codeToCheck? position := by
  unfold ClassFile.codeToCheck?
  rcases agree.method position with ⟨here, there⟩ | ⟨m, n, here, there, same⟩
  · simp only [here, there, agree.methods.length_eq]
  · simp only [here, there, agree.pool, same.code?, same.descriptorIn, same.flags]

theorem checkCode (agree : c.Agree c') : c'.checkCode position = c.checkCode position := by
  simp only [ClassFile.checkCode, agree.codeToCheck?, agree.pool, agree.version]

theorem flowSubject? (agree : c.Agree c') : c'.flowSubject? position = c.flowSubject? position := by
  unfold ClassFile.flowSubject?
  rcases agree.method position with ⟨here, there⟩ | ⟨m, n, here, there, same⟩
  · simp only [here, there, agree.methodLabel, agree.methods.length_eq]
  · simp only [here, there, agree.methodLabel, agree.pool, agree.name, same.code?, same.nameIn,
      same.descriptorIn, same.flags]

theorem checkFlow (agree : c.Agree c') : c'.checkFlow position = c.checkFlow position := by
  simp only [ClassFile.checkFlow, agree.flowSubject?, agree.methodLabel]

end Agree

end ClassFile

namespace Verifier

open ClassFile

variable {r : Repository} {name : String} {settings : Settings} {c c' : ClassFile} {m : Nat}
  {ds : List Demand} {vs : List Verdict} {s : Session}

theorem flowAnswer_eq_accepted_iff (rules : c.checkRules = .ok ()) :
    flowAnswer (.ok c) m = .ok .accepted ↔
      c.checkCode m = .ok (.ok ()) ∧ c.checkFlow m = .ok () := by
  rw [← codeAnswer_eq_accepted_iff rules]
  unfold flowAnswer
  cases codeAnswer (.ok c) m with
  | error h => simp [answerBehind]
  | ok v =>
    cases v with
    | rejected why => simp [answerBehind]
    | accepted =>
      cases checked : c.checkFlow m <;> simp [answerBehind, rulesOfFlow, checked, Except.map,
        Verdict.ofExcept]

theorem fullAnswer_eq_accepted_iff : fullAnswer (.ok c) settings = .ok .accepted ↔
    c.checkRules = .ok () ∧ (∀ m < c.methods.length, c.checkCode m = .ok (.ok ())) ∧
      (settings.checksFlow → ∀ m < c.methods.length, c.checkFlow m = .ok ()) := by
  have keeps : classAnswer (.ok c) = .ok .accepted ↔ c.checkRules = .ok () := by
    rw [classAnswer_of_found]
    cases c.checkRules <;> simp [Except.mapError, Verdict.ofExcept]
  have each : fullAnswer (.ok c) settings = .ok .accepted ↔ classAnswer (.ok c) = .ok .accepted ∧
      (∀ m < c.methods.length, codeAnswer (.ok c) m = .ok .accepted) ∧
        (settings.checksFlow → ∀ m < c.methods.length, flowAnswer (.ok c) m = .ok .accepted) := by
    rw [fullAnswer_eq, firstAnswer_eq_accepted_iff, List.forall_mem_map]
    cases checks : settings.checksFlow <;>
      simp [fullPasses, methodPasses, checks, answer, loadingAnswer, Except.map, Verdict.ofExcept,
        Except.toOption, or_imp, forall_and]
  rw [each, keeps]
  refine and_congr_right fun rules => ?_
  simp only [codeAnswer_eq_accepted_iff rules, flowAnswer_eq_accepted_iff rules]
  exact and_congr_right fun code => forall_congr' fun _ =>
    forall₂_congr fun m inside => and_iff_right (code m inside)

theorem fullAnswer_of_agree (agree : c.Agree c') :
    fullAnswer (.ok c') settings = .ok .accepted ↔ fullAnswer (.ok c) settings = .ok .accepted := by
  simp only [fullAnswer_eq_accepted_iff, agree.checkRules, agree.checkCode, agree.checkFlow,
    agree.methods.length_eq]

theorem exists_of_fullAnswer {found : Except Rejection ClassFile}
    (accepted : fullAnswer found settings = .ok .accepted) : ∃ c, found = .ok c := by
  cases found with
  | error e => cases accepted
  | ok c => exact ⟨c, rfl⟩

theorem checkLoaded_of_load {newest : UInt16} (found : (load name newest r).1 = .ok c) :
    c.checkLoaded name newest = .ok () := by
  unfold load at found
  split at found
  · cases found
  · cases found
  · rename_i c' _ _
    cases loaded : c'.checkLoaded name newest with
    | error e => simp [loaded, Except.map] at found
    | ok _ =>
      simp only [loaded, Except.map, Except.ok.injEq] at found
      exact found ▸ loaded

/-- When a verifier accepts a class, attributes have names in every field up to the first constant
value, in every method up to the first code, and in that code.  No more is asked for: a class that
differs in other attributes without names is accepted in the place of this one. -/
theorem names_of_accepted (ran : ds.mapM Demand.request ⟨r, named name settings⟩ = .ok (vs, s))
    (answered : (.full, .accepted) ∈ ds.zip vs) :
    ∃ c, (load (Name.internalForm name) settings.newestMajor r).1 = .ok c ∧ c.NamesAttributes ∧
      ∀ bytes c', parse bytes = .ok c' → c.Agree c' →
        alone (r.add name bytes) name settings .full = .ok .accepted := by
  have answers := (List.forall₂_iff_zip.mp (consistent_of_run ran).answers).2 answered
  have accepted : fullAnswer (load (Name.internalForm name) settings.newestMajor r).1 settings =
      .ok .accepted := (alone_eq r name settings .full).symm.trans answers.1
  obtain ⟨c, found⟩ := exists_of_fullAnswer accepted
  rw [found] at accepted
  obtain ⟨rules, code, _⟩ := fullAnswer_eq_accepted_iff.mp accepted
  refine ⟨c, found, namesAttributes_of_passes rules code, fun bytes c' read agree => ?_⟩
  have loaded : c'.checkLoaded (Name.internalForm name) settings.newestMajor = .ok () :=
    (agree.checkLoaded _ _).trans (checkLoaded_of_load found)
  have found' : (load (Name.internalForm name) settings.newestMajor (r.add name bytes)).1 =
      .ok c' := by
    rw [← Repository.add_internalForm]
    exact load_add (Name.internalForm_internalForm name) read loaded
  rw [alone_eq, found']
  exact (fullAnswer_of_agree agree).mpr accepted

/-- Without names are an attribute of the class, one behind the value of its field, and one behind the code
of its method. -/
def nameless : ClassFile where
  version := ⟨52, 0⟩
  pool := .ofConstants [.utf8 "a/Foo", .classInfo 1, .utf8 "java/lang/Object", .classInfo 3,
    .utf8 "Code", .utf8 "f", .utf8 "()V", .utf8 "ConstantValue", .utf8 "I", .integer 7]
  flags := ⟨0x0021⟩
  thisClass := 2
  superClass := some 4
  interfaces := []
  fields := [⟨⟨0x0019⟩, 6, 9, [⟨8, [0, 10]⟩, ⟨0, []⟩]⟩]
  methods := [⟨⟨0x0009⟩, 6, 7, [⟨5, idleInfo⟩, ⟨11, []⟩]⟩]
  attributes := [⟨2, []⟩]

def namelessBytes : List UInt8 :=
  [0xCA, 0xFE, 0xBA, 0xBE, 0, 0, 0, 0x34, 0, 0x0B, 1, 0, 5, 0x61, 0x2F, 0x46, 0x6F, 0x6F, 7, 0,
    1, 1, 0, 0x10, 0x6A, 0x61, 0x76, 0x61, 0x2F, 0x6C, 0x61, 0x6E, 0x67, 0x2F, 0x4F, 0x62, 0x6A,
    0x65, 0x63, 0x74, 7, 0, 3, 1, 0, 4, 0x43, 0x6F, 0x64, 0x65, 1, 0, 1, 0x66, 1, 0, 3, 0x28,
    0x29, 0x56, 1, 0, 0x0D, 0x43, 0x6F, 0x6E, 0x73, 0x74, 0x61, 0x6E, 0x74, 0x56, 0x61, 0x6C,
    0x75, 0x65, 1, 0, 1, 0x49, 3, 0, 0, 0, 7, 0, 0x21, 0, 2, 0, 4, 0, 0, 0, 1, 0, 0x19, 0, 6, 0,
    9, 0, 2, 0, 8, 0, 0, 0, 2, 0, 0x0A, 0, 0, 0, 0, 0, 0, 0, 1, 0, 9, 0, 6, 0, 7, 0, 2, 0, 5, 0,
    0, 0, 0x0D] ++ idleInfo ++ [0, 0x0B, 0, 0, 0, 0, 0, 1, 0, 2, 0, 0, 0, 0]

def namelessRepository : Repository := .add "a/Foo" namelessBytes .empty

theorem parse_nameless : parse namelessBytes = .ok nameless := by
  have built : nameless.pool.Built :=
    Pool.built_ofConstants (by decide) (by decide +kernel) (by decide)
  exact parse_of_writable ⟨⟨by decide, by decide, by decide⟩, Pool.lawful_of_built built, by decide⟩
    (by decide +kernel)

theorem load_nameless : (load "a/Foo" 65 namelessRepository).1 = .ok nameless :=
  load_add internalForm_reversed parse_nameless (by decide +kernel)

theorem fieldRules_nameless : FieldRules nameless ⟨⟨0x0019⟩, 6, 9, [⟨8, [0, 10]⟩, ⟨0, []⟩]⟩ "f" "I"
    (.base .int) (some ⟨10⟩) := by
  decide +kernel

theorem replays_nameless : nameless.Replays ⟨⟨0x0009⟩, 6, 7, [⟨5, idleInfo⟩, ⟨11, []⟩]⟩ "f" "()V"
    ⟨nameless.pool, "a/Foo", ⟨[], none⟩, false⟩ ⟨0, 0, [0xB1], [], []⟩ [(0, .plain ⟨0xB1⟩)]
    [.plain ⟨0xB1⟩] (.empty 0 0) [.empty 0 0] where
  fields := checkFields_of_field rfl fieldRules_nameless
  flows := ⟨2, by decide +kernel⟩

theorem fullAnswer_nameless : fullAnswer (.ok nameless) .standard = .ok .accepted := by
  obtain ⟨_, _, _, replayed⟩ := replays_nameless.replayed
  have only {m : Nat} (inside : m < nameless.methods.length) : m = 0 := Nat.lt_one_iff.mp inside
  refine fullAnswer_eq_accepted_iff.mpr ⟨replays_nameless.checkRules, fun m inside => ?_,
    fun _ m inside => ?_⟩
  · obtain rfl := only inside
    exact replays_nameless.checkCode
  · obtain rfl := only inside
    exact replayed.accepted

theorem agrees_nameless :
    Agrees (.ok nameless) .standard ⟨namelessRepository, named "a/Foo" .standard⟩ := by
  have agrees := agrees_start namelessRepository "a/Foo" .standard
  rw [internalForm_reversed] at agrees
  exact load_nameless ▸ agrees

theorem names_of_accepted_nameless : ∃ s c,
    [Demand.full].mapM Demand.request ⟨namelessRepository, named "a/Foo" .standard⟩ =
      .ok ([.accepted], s) ∧ (load (Name.internalForm "a/Foo") 65 namelessRepository).1 = .ok c ∧
    c.NamesAttributes ∧ ∀ bytes c', parse bytes = .ok c' → c.Agree c' →
      alone (namelessRepository.add "a/Foo" bytes) "a/Foo" .standard .full = .ok .accepted := by
  have answers : List.Forall₂ (fun d v => Demand.answer (.ok nameless) .standard d = .ok v)
      [.full] [.accepted] := .cons fullAnswer_nameless .nil
  obtain ⟨s, ran, _⟩ := run_of_answers agrees_nameless answers
  obtain ⟨c, found⟩ := names_of_accepted ran (List.mem_singleton_self _)
  exact ⟨s, c, ran, found⟩

theorem accepted_nameless : parse namelessBytes = .ok nameless ∧
    (∃ s, verify ⟨namelessRepository, named "a/Foo" .standard⟩ = .ok (.accepted, s)) ∧
    (∃ a ∈ nameless.attributes, ¬ a.IsNamed nameless.pool) ∧
    (∃ f ∈ nameless.fields, ∃ a ∈ f.attributes, ¬ a.IsNamed nameless.pool) ∧
    (∃ m ∈ nameless.methods, ∃ a ∈ m.attributes, ¬ a.IsNamed nameless.pool) := by
  have answers : Answers (.ok nameless) .standard verify (fullAnswer (.ok nameless) .standard) :=
    answers_verify
  rw [fullAnswer_nameless] at answers
  obtain ⟨s, ran, _⟩ := answers _ agrees_nameless
  have unnamed {a : Attribute} (fails : (a.title nameless.pool).isOk = false) :
      ¬ a.IsNamed nameless.pool := by
    rintro ⟨title, known⟩
    rw [known] at fails
    cases fails
  exact ⟨parse_nameless, ⟨s, ran⟩, ⟨⟨2, []⟩, by decide, unnamed (by decide +kernel)⟩,
    ⟨_, List.mem_singleton_self _, ⟨0, []⟩, by decide, unnamed (by decide +kernel)⟩,
    ⟨_, List.mem_singleton_self _, ⟨11, []⟩, by decide, unnamed (by decide +kernel)⟩⟩

end Verifier

end JvmClass
