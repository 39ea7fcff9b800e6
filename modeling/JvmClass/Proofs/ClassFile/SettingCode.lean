import JvmClass.ClassFile
import JvmClass.Proofs.Attribute.Finding
import JvmClass.Proofs.Attribute.Payloads
import JvmClass.Proofs.Pool.Growth

/-! Setting the code of a method.  The name of the attribute is added to the pool before the other
attributes are asked for theirs, so one of them may only then have this name.  The code that was set is
read back as it is, and nothing else changes: the first attribute of the name is replaced, or one comes
to the end, and the pool only grows.  An attempt that fails leaves the attributes as they were. -/

namespace JvmClass.Member

open Attribute

variable {p q : Pool} {title : String} {new : Attribute} {as bs : List Attribute} {m m' : Method}
  {code : Code}

/-- The new attribute takes the place of the first one of the name, or the last place if there is
none. -/
inductive Replaces (p : Pool) (title : String) (new : Attribute) :
    List Attribute → List Attribute → Prop where
  | first {before after : List Attribute} {old : Attribute}
      (others : ∀ a ∈ before, a.Differs p title) (named : old.title p = .ok title) :
      Replaces p title new (before ++ old :: after) (before ++ new :: after)
  | last {as : List Attribute} (others : ∀ a ∈ as, a.Differs p title) :
      Replaces p title new as (as ++ [new])

theorem Replaces.cons {a : Attribute} (differs : a.Differs p title)
    (replaces : Replaces p title new as bs) : Replaces p title new (a :: as) (a :: bs) := by
  cases replaces with
  | first others named => exact .first (List.forall_mem_cons.mpr ⟨differs, others⟩) named
  | last others => exact .last (List.forall_mem_cons.mpr ⟨differs, others⟩)

theorem replaceFirst_cons_of_title {a : Attribute} (named : a.title p = .ok title) :
    replaceFirst p title new (a :: as) = .ok (new :: as) := by
  rw [replaceFirst, named]
  exact if_pos rfl

theorem replaceFirst_cons_of_differs {a : Attribute} (differs : a.Differs p title) :
    replaceFirst p title new (a :: as) = (replaceFirst p title new as).map (a :: ·) := by
  obtain ⟨other, named, different⟩ := differs
  rw [replaceFirst, named]
  exact (if_neg different).trans (by cases replaceFirst p title new as <;> rfl)

theorem replaceFirst_cons_of_error {a : Attribute} {e : PoolFault} (unnamed : a.title p = .error e) :
    replaceFirst p title new (a :: as) = .error e := by
  rw [replaceFirst, unnamed]
  rfl

theorem replaces_of_replaceFirst (done : replaceFirst p title new as = .ok bs) :
    Replaces p title new as bs := by
  induction as generalizing bs with
  | nil =>
    cases done
    exact .last (List.forall_mem_nil _)
  | cons a as ih =>
    obtain named | differs | ⟨e, unnamed⟩ := title_cases p title a
    · rw [replaceFirst_cons_of_title named] at done
      cases done
      have here : Replaces p title new ([] ++ a :: as) ([] ++ new :: as) :=
        .first (List.forall_mem_nil _) named
      exact here
    · rw [replaceFirst_cons_of_differs differs] at done
      obtain ⟨cs, later, rfl⟩ := map_eq_ok_iff.mp done
      exact (ih later).cons differs
    · rw [replaceFirst_cons_of_error unnamed] at done
      cases done

theorem exists_replaceFirst_iff :
    (∃ bs, replaceFirst p title new as = .ok bs) ↔ ∃ a?, find? p title as = .ok a? := by
  induction as with
  | nil => exact iff_of_true ⟨_, rfl⟩ ⟨_, rfl⟩
  | cons a as ih =>
    obtain named | differs | ⟨e, unnamed⟩ := title_cases p title a
    · rw [replaceFirst_cons_of_title named, find?_cons_of_title named]
      exact iff_of_true ⟨_, rfl⟩ ⟨_, rfl⟩
    · rw [replaceFirst_cons_of_differs differs, find?_cons_of_differs differs, ← ih]
      simp only [map_eq_ok_iff]
      exact ⟨fun ⟨_, bs, done, _⟩ => ⟨bs, done⟩, fun ⟨bs, done⟩ => ⟨_, bs, done, rfl⟩⟩
    · rw [replaceFirst_cons_of_error unnamed, find?_cons_of_error unnamed]
      exact iff_of_false nofun nofun

theorem Replaces.find? (replaces : Replaces p title new as bs) (named : new.title p = .ok title) :
    find? p title bs = .ok (some new) := by
  have behind {before after : List Attribute} (others : ∀ a ∈ before, a.Differs p title) :
      Attribute.find? p title (before ++ new :: after) = .ok (some new) := by
    induction before with
    | nil => exact find?_cons_of_title named
    | cons a before ih =>
      obtain ⟨differs, others⟩ := List.forall_mem_cons.mp others
      exact (find?_cons_of_differs differs).trans (ih others)
  cases replaces with
  | first others _ => exact behind others
  | last others => exact behind others

theorem addAttribute_eq_ok_iff : Pool.addAttribute code p = .ok new q ↔ ∃ i bytes,
    Pool.addUtf8 (AttributeKind.title Code) p = .ok i q ∧ code.encode.toExcept = .ok bytes ∧
      new = ⟨i, bytes⟩ := by
  constructor
  · intro added
    obtain ⟨i, q', named, added⟩ := run_bind_eq_ok added
    obtain ⟨bytes, q'', lifted, added⟩ := run_bind_eq_ok added
    obtain ⟨written, rfl⟩ := liftExcept_eq_ok_iff.mp lifted
    cases added
    exact ⟨i, bytes, named, written, rfl⟩
  · rintro ⟨i, bytes, named, written, rfl⟩
    exact (bind_of_ok named).trans (bind_of_ok (liftExcept_eq_ok_iff.mpr ⟨written, rfl⟩))

theorem setCode_of_error {e : Error} (failed : Pool.addAttribute code p = .error e q) :
    m.setCode code p = .error e q := bind_of_error failed

theorem setCode_of_ok (added : Pool.addAttribute code p = .ok new q) :
    m.setCode code p =
      match replaceFirst q (AttributeKind.title Code) new m.attributes with
      | .error e => .error (.pool e) q
      | .ok bs => .ok { m with attributes := bs } q := by
  refine (bind_of_ok added).trans ?_
  change EStateM.bind (liftExcept _) _ q = _
  unfold EStateM.bind
  cases replaceFirst q (AttributeKind.title Code) new m.attributes <;> rfl

theorem setCode_eq_ok_iff : m.setCode code p = .ok m' q ↔ ∃ new bs,
    Pool.addAttribute code p = .ok new q ∧
      replaceFirst q (AttributeKind.title Code) new m.attributes = .ok bs ∧
      m' = { m with attributes := bs } := by
  constructor
  · intro done
    cases added : Pool.addAttribute code p with
    | error e r =>
      rw [setCode_of_error added] at done
      cases done
    | ok new r =>
      rw [setCode_of_ok added] at done
      split at done
      · cases done
      · rename_i bs replaced
        cases done
        exact ⟨new, bs, rfl, replaced, rfl⟩
  · rintro ⟨new, bs, added, replaced, rfl⟩
    rw [setCode_of_ok added, replaced]

structure Editing where
  attributes : List Attribute
  pool : Pool

/-- Goes through the attributes from a position on, puts the new one over the first of the name, and
puts it behind all of them if there is none. -/
def overwrite (title : String) (new : Attribute) (k : Nat) :
    List Attribute → EStateM Error Editing Unit
  | [], s => .ok () { s with attributes := s.attributes ++ [new] }
  | a :: rest, s =>
    match a.title s.pool with
    | .error e => .error (.pool e) s
    | .ok found =>
      if found = title then .ok () { s with attributes := s.attributes.set k new }
      else overwrite title new (k + 1) rest s

def storeCode (code : Code) : EStateM Error Editing Unit := fun s =>
  match Pool.addAttribute code s.pool with
  | .error e q => .error e { s with pool := q }
  | .ok new q => overwrite (AttributeKind.title Code) new 0 s.attributes { s with pool := q }

theorem overwrite_eq (before as : List Attribute) :
    overwrite title new before.length as ⟨before ++ as, p⟩ =
      match replaceFirst p title new as with
      | .error e => .error (.pool e) ⟨before ++ as, p⟩
      | .ok bs => .ok () ⟨before ++ bs, p⟩ := by
  induction as generalizing before with
  | nil => simp [overwrite, replaceFirst]
  | cons a as ih =>
    obtain named | differs | ⟨e, unnamed⟩ := title_cases p title a
    · rw [replaceFirst_cons_of_title named]
      simp [overwrite, named]
    · have later := ih (before ++ [a])
      rw [List.length_append, List.append_assoc, List.singleton_append] at later
      obtain ⟨other, named, different⟩ := differs
      rw [replaceFirst_cons_of_differs ⟨other, named, different⟩, overwrite, named]
      refine (if_neg different).trans (later.trans ?_)
      cases replaceFirst p title new as <;> simp [Except.map]
    · rw [replaceFirst_cons_of_error unnamed]
      simp [overwrite, unnamed]

/-- Step by step the same comes out: the new attributes if all steps succeed, and those that were there
before if one of them fails. -/
theorem storeCode_eq (m : Method) (code : Code) (p : Pool) :
    storeCode code ⟨m.attributes, p⟩ =
      match m.setCode code p with
      | .error e q => .error e ⟨m.attributes, q⟩
      | .ok m' q => .ok () ⟨m'.attributes, q⟩ := by
  unfold storeCode
  cases added : Pool.addAttribute code p with
  | error e q => rw [setCode_of_error added]
  | ok new q =>
    rw [setCode_of_ok added]
    refine (overwrite_eq [] m.attributes).trans ?_
    cases replaceFirst q (AttributeKind.title Code) new m.attributes <;> rfl

theorem follows_setCode (lawful : p.Lawful) (m : Method) (code : Code) :
    p.Follows (left (m.setCode code) p) := by
  have same : left (m.setCode code) p = (Pool.Addition.attributeOf code).run p := by
    change left (m.setCode code) p = left (Pool.addAttribute code) p
    unfold left
    cases added : Pool.addAttribute code p with
    | error e q => rw [setCode_of_error added]
    | ok new q =>
      rw [setCode_of_ok added]
      cases replaceFirst q (AttributeKind.title Code) new m.attributes <;> rfl
  exact same ▸ Pool.follows_run _ lawful

theorem code?_of_replaces {bytes : List UInt8} (indexed : code.Indexed)
    (written : code.encode.toExcept = .ok bytes) (info : new.info = bytes)
    (named : new.title q = .ok (AttributeKind.title Code))
    (replaces : Replaces q (AttributeKind.title Code) new as m'.attributes) :
    m'.code? q = .ok (some code) := by
  have read : Code.decoder.decode new.info = .ok code :=
    info ▸ Code.exact_decoder.decode_eq_ok_iff.mpr ⟨indexed, written⟩
  have value : new.value Code = .ok code := mapError_eq_ok_iff.mpr read
  refine bind_eq_ok_iff.mpr ⟨some new, mapError_eq_ok_iff.mpr (replaces.find? named), ?_⟩
  exact congrArg (some <$> ·) value

/-- The code of a method was set. -/
structure Recodes (p q : Pool) (code : Code) (m m' : Method) : Prop where
  readback : m'.code? q = .ok (some code)
  attributes : ∃ new, Replaces q "Code" new m.attributes m'.attributes
  others : m'.flags = m.flags ∧ m'.name = m.name ∧ m'.descriptor = m.descriptor
  stored : storeCode code ⟨m.attributes, p⟩ = .ok () ⟨m'.attributes, q⟩
  keeps : ∀ i c, p.get i = .ok c → q.get i = .ok c

theorem recodes_of_setCode (lawful : p.Lawful) (indexed : code.Indexed)
    (done : m.setCode code p = .ok m' q) : Recodes p q code m m' := by
  have follows : p.Follows q := by
    have grown := follows_setCode lawful m code
    rwa [left, done] at grown
  obtain ⟨new, bs, added, replaced, rfl⟩ := setCode_eq_ok_iff.mp done
  obtain ⟨i, bytes, listed, written, rfl⟩ := addAttribute_eq_ok_iff.mp added
  have replaces := replaces_of_replaceFirst replaced
  have named : Attribute.title ⟨i, bytes⟩ q = .ok (AttributeKind.title Code) :=
    Pool.getUtf8_of_get (lawful.get_of_add listed)
  refine ⟨code?_of_replaces indexed written rfl named replaces, ⟨_, replaces⟩, ⟨rfl, rfl, rfl⟩, ?_,
    fun i c => follows.get lawful⟩
  rw [storeCode_eq, done]

/-- Code that was set is read back, and nothing else changes; if it cannot be set, no attribute does.
It is set whenever its name can be added, it can be written, and a search for it has a result. -/
theorem code_of_setCode (built : p.Built) (indexed : code.Indexed) (m : Method) :
    (∀ m' q, m.setCode code p = .ok m' q → Recodes p q code m m') ∧
      (∀ e q, m.setCode code p = .error e q →
        storeCode code ⟨m.attributes, p⟩ = .error e ⟨m.attributes, q⟩ ∧
          ∀ i c, p.get i = .ok c → q.get i = .ok c) ∧
      ((∃ m' q, m.setCode code p = .ok m' q) ↔ ∃ i q bytes a?, Pool.addUtf8 "Code" p = .ok i q ∧
        code.encode.toExcept = .ok bytes ∧ Attribute.find? q "Code" m.attributes = .ok a?) := by
  have lawful := Pool.lawful_of_built built
  refine ⟨fun m' q => recodes_of_setCode lawful indexed, fun e q failed => ⟨?_, ?_⟩, ?_, ?_⟩
  · rw [storeCode_eq, failed]
  · have grown := follows_setCode lawful m code
    rw [left, failed] at grown
    exact fun i c => grown.get lawful
  · rintro ⟨m', q, done⟩
    obtain ⟨new, bs, added, replaced, _⟩ := setCode_eq_ok_iff.mp done
    obtain ⟨i, bytes, listed, written, _⟩ := addAttribute_eq_ok_iff.mp added
    obtain ⟨a?, found⟩ := exists_replaceFirst_iff.mp ⟨bs, replaced⟩
    exact ⟨i, q, bytes, a?, listed, written, found⟩
  · rintro ⟨i, q, bytes, a?, listed, written, found⟩
    obtain ⟨bs, replaced⟩ := exists_replaceFirst_iff.mpr ⟨a?, found⟩
    exact ⟨_, q, setCode_eq_ok_iff.mpr
      ⟨⟨i, bytes⟩, bs, addAttribute_eq_ok_iff.mpr ⟨i, bytes, listed, written, rfl⟩, replaced, rfl⟩⟩

/-- A method with an attribute whose name is added together with that of the code, and behind it one that
has no name at all. -/
def dangling : Method := ⟨⟨0x0001⟩, 1, 1, [⟨1, [7]⟩, ⟨2, [9]⟩, ⟨2, []⟩, ⟨9, []⟩]⟩

def caught : Code := ⟨1, 1, [0xB1], [⟨0, 1, 0, none⟩, ⟨0, 1, 0, some 3⟩], [⟨1, [5]⟩]⟩

def caughtInfo : List UInt8 :=
  [0, 1, 0, 1, 0, 0, 0, 1, 0xB1, 0, 2, 0, 0, 0, 1, 0, 0, 0, 0, 0, 0, 0, 1, 0, 0, 0, 3, 0, 1, 0, 1,
    0, 0, 0, 1, 5]

theorem setCode_dangling : dangling.setCode caught (.ofConstants [.utf8 "Custom"]) =
    .ok { dangling with attributes := [⟨1, [7]⟩, ⟨2, caughtInfo⟩, ⟨2, []⟩, ⟨9, []⟩] }
      (.ofConstants [.utf8 "Custom", .utf8 "Code"]) := by
  have listed : Pool.addUtf8 "Code" (.ofConstants [.utf8 "Custom"]) =
      .ok 2 (.ofConstants [.utf8 "Custom", .utf8 "Code"]) :=
    Pool.add_ofConstants (by decide +kernel) (by decide) (by decide)
  exact setCode_eq_ok_iff.mpr ⟨⟨2, caughtInfo⟩, _,
    addAttribute_eq_ok_iff.mpr ⟨2, caughtInfo, listed, by decide +kernel, rfl⟩,
    by decide +kernel, rfl⟩

theorem code_of_setCode_dangling :
    let p : Pool := .ofConstants [.utf8 "Custom"]
    let q : Pool := .ofConstants [.utf8 "Custom", .utf8 "Code"]
    let m' : Method :=
      { dangling with attributes := [⟨1, [7]⟩, ⟨2, caughtInfo⟩, ⟨2, []⟩, ⟨9, []⟩] }
    p.Built ∧ caught.Indexed ∧ dangling.setCode caught p = .ok m' q ∧
      Recodes p q caught dangling m' := by
  have built : (Pool.ofConstants [.utf8 "Custom"]).Built :=
    Pool.built_ofConstants (by decide) (by decide +kernel) (by decide)
  have indexed : caught.Indexed := by
    unfold Code.Indexed
    decide
  exact ⟨built, indexed, setCode_dangling,
    (code_of_setCode built indexed dangling).1 _ _ setCode_dangling⟩

end JvmClass.Member
