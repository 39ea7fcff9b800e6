import JvmClass.Proofs.Pool.Rereading

/-! Pools that grow.  A helper that adds several constants refers from one of them to another by
index.  Each of them stays where it was put, and its index is the one that an equal constant gets in
all later pools, so that what was added keeps its meaning and is not added again. -/

namespace JvmClass.Pool

variable {α β : Type} {p q r : Pool} {c : Constant} {i : UInt16}

/-- What the step gives has the meaning in all later pools, where the step gives the same again and
adds nothing. -/
structure Lasts (step : Adding α) (Means : Pool → α → Prop) : Prop where
  adds : Adds step
  again : ∀ {p q r a}, p.Lawful → step p = .ok a q → q.Follows r → Means r a ∧ step r = .ok a r

section Lasts

variable {step : Adding α} {next : α → Adding β} {Means : Pool → α → Prop}
  {Then : α → Pool → β → Prop}

theorem lasts_add (c : Constant) : Lasts (add c) fun r i => r.get i = .ok c where
  adds := adds_add c
  again {p q r i} lawful added follows := by
    have later := ((adds_add c).follows lawful added).lawful
    have index := follows.index later (lawful.index_of_add added)
    exact ⟨follows.get later (lawful.get_of_add added),
      add_of_index (checkLength_of_add added) index⟩

theorem Lasts.bind (first : Lasts step Means) (second : ∀ a, Lasts (next a) (Then a)) :
    Lasts (step >>= next) fun r b => ∃ a, Means r a ∧ Then a r b where
  adds := adds_bind first.adds fun a => (second a).adds
  again {p u r b} lawful ran follows := by
    obtain ⟨a, q, here, there⟩ := run_bind_eq_ok ran
    have between := (first.adds.follows lawful here).lawful
    have onward := ((second a).adds.follows between there).trans follows
    obtain ⟨means, same⟩ := first.again lawful here onward
    obtain ⟨after, same'⟩ := (second a).again between there follows
    exact ⟨⟨a, means, after⟩, (bind_of_ok same).trans same'⟩

theorem Lasts.mono {More : Pool → α → Prop} (lasts : Lasts step Means)
    (more : ∀ r a, Means r a → More r a) : Lasts step More where
  adds := lasts.adds
  again lawful ran follows := (lasts.again lawful ran follows).imp_left (more _ _)

end Lasts

section Accessors

variable {text name descriptor owner pair : UInt16} {s t class' : String} {kind : MemberKind}

theorem getUtf8_of_get (here : p.get i = .ok (.utf8 s)) : p.getUtf8 i = .ok s :=
  bind_eq_ok_iff.mpr ⟨_, here, rfl⟩

theorem getClassName_of_get (here : p.get i = .ok (.classInfo text))
    (spelled : p.getUtf8 text = .ok s) : p.getClassName i = .ok s :=
  bind_eq_ok_iff.mpr ⟨_, here, spelled⟩

theorem getNameAndType_of_get (here : p.get i = .ok (.nameAndType name descriptor))
    (named : p.getUtf8 name = .ok s) (typed : p.getUtf8 descriptor = .ok t) :
    p.getNameAndType i = .ok (s, t) :=
  bind_eq_ok_iff.mpr ⟨_, here, bind_eq_ok_iff.mpr ⟨s, named, bind_eq_ok_iff.mpr ⟨t, typed, rfl⟩⟩⟩

theorem getMemberRef_of_get (here : p.get i = .ok c)
    (parts : memberParts? c = some (owner, pair, kind)) (named : p.getNameAndType pair = .ok (s, t))
    (owned : p.getClassName owner = .ok class') : p.getMemberRef i = .ok ⟨class', s, t, kind⟩ := by
  refine bind_eq_ok_iff.mpr ⟨c, here, ?_⟩
  rw [parts]
  exact bind_eq_ok_iff.mpr ⟨(s, t), named, bind_eq_ok_iff.mpr ⟨class', owned, rfl⟩⟩

end Accessors

section Helpers

variable (s owner name descriptor : String) (ofInterface : Bool)

theorem lasts_addUtf8 : Lasts (addUtf8 s) fun r i => r.getUtf8 i = .ok s :=
  (lasts_add _).mono fun _ _ => getUtf8_of_get

theorem lasts_addClass : Lasts (addClass name) fun r i => r.getClassName i = .ok name := by
  refine ((lasts_addUtf8 name).bind fun text => lasts_add (.classInfo text)).mono ?_
  rintro r i ⟨text, spelled, here⟩
  exact getClassName_of_get here spelled

theorem lasts_addString : Lasts (addString s) fun r i =>
    ∃ text, r.get i = .ok (.string text) ∧ r.getUtf8 text = .ok s := by
  refine ((lasts_addUtf8 s).bind fun text => lasts_add (.string text)).mono ?_
  rintro r i ⟨text, spelled, here⟩
  exact ⟨text, here, spelled⟩

theorem lasts_addNameAndType : Lasts (addNameAndType name descriptor) fun r i =>
    r.getNameAndType i = .ok (name, descriptor) := by
  refine ((lasts_addUtf8 name).bind fun first => (lasts_addUtf8 descriptor).bind fun second =>
    lasts_add (.nameAndType first second)).mono ?_
  rintro r i ⟨first, named, second, typed, here⟩
  exact getNameAndType_of_get here named typed

theorem lasts_member {last : UInt16 → UInt16 → Constant} {kind : MemberKind}
    (parts : ∀ o n, memberParts? (last o n) = some (o, n, kind)) :
    Lasts (do let o ← addClass owner; let n ← addNameAndType name descriptor; add (last o n))
      fun r i => r.getMemberRef i = .ok ⟨owner, name, descriptor, kind⟩ := by
  refine ((lasts_addClass owner).bind fun o => (lasts_addNameAndType name descriptor).bind fun n =>
    lasts_add (last o n)).mono ?_
  rintro r i ⟨o, owned, n, named, here⟩
  exact getMemberRef_of_get here (parts o n) named owned

theorem lasts_addFieldRef : Lasts (addFieldRef owner name descriptor) fun r i =>
    r.getMemberRef i = .ok ⟨owner, name, descriptor, .field⟩ :=
  lasts_member owner name descriptor fun _ _ => rfl

theorem lasts_addMethodRef : Lasts (addMethodRef owner name descriptor ofInterface) fun r i =>
    r.getMemberRef i =
      .ok ⟨owner, name, descriptor, if ofInterface then .interfaceMethod else .method⟩ := by
  refine lasts_member owner name descriptor ?_
  cases ofInterface <;> exact fun _ _ => rfl

end Helpers

/-- What an addition has put into a pool is found at the index, with exactly its strings. -/
inductive Addition.FoundAt (p : Pool) (i : UInt16) : Addition → Prop where
  | constant {c : Constant} (here : p.get i = .ok c) : FoundAt p i (.constant c)
  | utf8 {s : String} (spelled : p.getUtf8 i = .ok s) : FoundAt p i (.utf8 s)
  | classOf {name : String} (named : p.getClassName i = .ok name) : FoundAt p i (.classOf name)
  | string {s : String} {text : UInt16} (here : p.get i = .ok (.string text))
      (spelled : p.getUtf8 text = .ok s) : FoundAt p i (.string s)
  | nameAndType {name descriptor : String} (pair : p.getNameAndType i = .ok (name, descriptor)) :
      FoundAt p i (.nameAndType name descriptor)
  | fieldRef {owner name descriptor : String}
      (member : p.getMemberRef i = .ok ⟨owner, name, descriptor, .field⟩) :
      FoundAt p i (.fieldRef owner name descriptor)
  | methodRef {owner name descriptor : String} {ofInterface : Bool}
      (member : p.getMemberRef i =
        .ok ⟨owner, name, descriptor, if ofInterface then .interfaceMethod else .method⟩) :
      FoundAt p i (.methodRef owner name descriptor ofInterface)

theorem follows_runs (lawful : p.Lawful) (as : List Addition) :
    p.Follows (as.foldl (fun q a => a.run q) p) := by
  induction as generalizing p with
  | nil => exact .refl lawful
  | cons a as ih =>
    have first := follows_run a lawful
    exact first.trans (ih first.lawful)

theorem result_eq_ok_iff {step : Adding α} {a : α} :
    result step p = .ok a ↔ step p = .ok a (left step p) := by
  unfold result left
  cases step p <;> simp

theorem exists_lasts {a : Addition} {given : Except Error UInt16} (gives : a.reply p = .index given) :
    ∃ step, (∀ p, a.reply p = .index (result step p)) ∧ a.run = left step ∧
      Lasts step fun r i => a.FoundAt r i := by
  cases a with
  | constant c => exact ⟨_, fun _ => rfl, rfl, (lasts_add c).mono fun _ _ => .constant⟩
  | utf8 s => exact ⟨_, fun _ => rfl, rfl, (lasts_addUtf8 s).mono fun _ _ => .utf8⟩
  | classOf name => exact ⟨_, fun _ => rfl, rfl, (lasts_addClass name).mono fun _ _ => .classOf⟩
  | string s =>
    refine ⟨_, fun _ => rfl, rfl, (lasts_addString s).mono ?_⟩
    rintro r i ⟨text, here, spelled⟩
    exact .string here spelled
  | nameAndType name descriptor =>
    exact ⟨_, fun _ => rfl, rfl, (lasts_addNameAndType name descriptor).mono fun _ _ => .nameAndType⟩
  | fieldRef owner name descriptor =>
    exact ⟨_, fun _ => rfl, rfl, (lasts_addFieldRef owner name descriptor).mono fun _ _ => .fieldRef⟩
  | methodRef owner name descriptor ofInterface =>
    exact ⟨_, fun _ => rfl, rfl,
      (lasts_addMethodRef owner name descriptor ofInterface).mono fun _ _ => .methodRef⟩
  | attributeOf a => cases gives

/-- Whatever is added after something that got an index, it is found there with exactly its strings,
and adding it again gives that index and leaves the pool as it is. -/
theorem found_after (built : p.Built) (a : Addition) (given : a.reply p = .index (.ok i))
    (later : List Addition) :
    let q := later.foldl (fun q b => b.run q) (a.run p)
    a.FoundAt q i ∧ a.reply q = .index (.ok i) ∧ a.run q = q := by
  intro q
  obtain ⟨step, replies, runs, lasts⟩ := exists_lasts given
  have lawful := lawful_of_built built
  have ran : step p = .ok i (a.run p) := by
    rw [runs]
    exact result_eq_ok_iff.mp (Reply.index.inj ((replies p).symm.trans given))
  have follows : (a.run p).Follows q := follows_runs (follows_run a lawful).lawful later
  obtain ⟨found, same⟩ := lasts.again lawful ran follows
  refine ⟨found, ?_, ?_⟩
  · rw [replies, result, same]
  · rw [runs, left, same]

theorem reply_doubled :
    (Addition.methodRef "a/Foo" "f" "()V" true).reply doubled = .index (.ok 10) := by
  let cs : List Constant := [.integer 7, .integer 7, .double 0x7FF0000000000001]
  have owner : addClass "a/Foo" (ofConstants cs) =
      .ok 6 (ofConstants (cs ++ [.utf8 "a/Foo", .classInfo 5])) :=
    (bind_of_ok (add_ofConstants (by decide +kernel) (by decide) (by decide))).trans
      (add_ofConstants (by decide) (by decide) (by decide))
  have pair : addNameAndType "f" "()V" (ofConstants (cs ++ [.utf8 "a/Foo", .classInfo 5])) =
      .ok 9 (ofConstants (cs ++
        [.utf8 "a/Foo", .classInfo 5, .utf8 "f", .utf8 "()V", .nameAndType 7 8])) :=
    (bind_of_ok (add_ofConstants (by decide +kernel) (by decide) (by decide))).trans <|
      (bind_of_ok (add_ofConstants (by decide +kernel) (by decide) (by decide))).trans
        (add_ofConstants (by decide) (by decide) (by decide))
  have member : addMethodRef "a/Foo" "f" "()V" true (ofConstants cs) = .ok 10 (ofConstants (cs ++
      [.utf8 "a/Foo", .classInfo 5, .utf8 "f", .utf8 "()V", .nameAndType 7 8, .methodRef 6 9 true])) :=
    (bind_of_ok owner).trans <| (bind_of_ok pair).trans
      (add_ofConstants (by decide) (by decide) (by decide))
  refine congrArg Reply.index ?_
  change result (addMethodRef "a/Foo" "f" "()V" true) (ofConstants cs) = .ok 10
  rw [result, member]

theorem found_after_doubled :
    let a : Addition := .methodRef "a/Foo" "f" "()V" true
    let later : List Addition := [.string "f", .classOf "()V", .constant (.integer 7)]
    let q := later.foldl (fun q b => b.run q) (a.run doubled)
    doubled.Built ∧ a.reply doubled = .index (.ok 10) ∧
      a.FoundAt q 10 ∧ a.reply q = .index (.ok 10) ∧ a.run q = q :=
  ⟨built_doubled, reply_doubled, found_after built_doubled _ reply_doubled _⟩

end JvmClass.Pool
