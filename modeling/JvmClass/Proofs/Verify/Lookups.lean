import JvmClass.Verify.Repository
import Mathlib.Data.List.Induction

/-! What a repository answers after any history.  Its two maps belong together: a class that is kept
is what its bytes decode to, and no command changes that.  So lookups answer as if nothing were kept,
and a class is kept from a lookup that finds it until a command drops it. -/

namespace JvmClass

namespace Repository

/-- What can be asked of a repository.  All names may be written with dots or with slashes. -/
inductive Command where
  | add (name : String) (bytes : List UInt8)
  | evict (name : String)
  | clear
  | isCached (name : String)
  | lookup (name : String)

inductive Reply where
  | done
  | flag (b : Bool)
  | found (answer : Except Error (Option ClassFile))

def Command.run : Command → Repository → Reply × Repository
  | add name bytes, r => (.done, r.add name bytes)
  | evict name, r => (.flag (r.evict name).1, (r.evict name).2)
  | clear, r => (.done, r.clear)
  | isCached name, r => (.flag (r.isCached name), r)
  | lookup name, r =>
    match r.lookup name with
    | .ok c? r => (.found (.ok c?), r)
    | .error e r => (.found (.error e), r)

def after (r : Repository) (cs : List Command) : Repository := cs.foldl (fun r c => (c.run r).2) r

theorem after_concat (r : Repository) (cs : List Command) (c : Command) :
    r.after (cs ++ [c]) = (c.run (r.after cs)).2 := by
  unfold after
  rw [List.foldl_append]
  rfl

def decode : Option (List UInt8) → Except Error (Option ClassFile)
  | none => .ok none
  | some bytes => (ClassFile.parse bytes).map some

variable {r r' : Repository} {name : String} {c? : Option ClassFile}

def Faithful (r : Repository) : Prop :=
  ∀ (name : String) (c : ClassFile), r.decoded[name]? = some c →
    decode r.sources[name]? = .ok (some c)

/-- A lookup gives an answer, and keeps the class if there is one. -/
structure LooksUp (name : String) (r : Repository) (c? : Option ClassFile) (r' : Repository) :
    Prop where
  answer : decode r.sources[Name.internalForm name]? = .ok c?
  sources : r'.sources = r.sources
  decoded : ∀ n : String,
    r'.decoded[n]? = if Name.internalForm name = n then c? else r.decoded[n]?

theorem faithful_empty : empty.Faithful := by
  intro name c kept
  change (∅ : Std.HashMap String ClassFile)[name]? = some c at kept
  rw [Std.HashMap.getElem?_empty] at kept
  cases kept

theorem LooksUp.faithful (looks : LooksUp name r c? r') (faithful : r.Faithful) : r'.Faithful := by
  intro n c kept
  rw [looks.sources]
  rw [looks.decoded] at kept
  split at kept
  · rename_i same
    rw [← same, looks.answer, kept]
  · exact faithful n c kept

theorem looksUp_self (kept : r.decoded[Name.internalForm name]? = c?)
    (answer : decode r.sources[Name.internalForm name]? = .ok c?) : LooksUp name r c? r := by
  refine ⟨answer, rfl, fun n => ?_⟩
  split
  · rename_i same
    rw [← same, kept]
  · rfl

theorem Faithful.lookup_cases (faithful : r.Faithful) (name : String) :
    (∃ c? r', lookup name r = .ok c? r' ∧ LooksUp name r c? r') ∨
      ∃ e, lookup name r = .error e r ∧ decode r.sources[Name.internalForm name]? = .error e := by
  cases kept : r.decoded[Name.internalForm name]? with
  | some c =>
    refine .inl ⟨some c, r, ?_, looksUp_self kept (faithful _ c kept)⟩
    simp only [lookup, kept]
  | none =>
    cases source : r.sources[Name.internalForm name]? with
    | none =>
      refine .inl ⟨none, r, ?_, looksUp_self kept (by rw [source, decode])⟩
      simp only [lookup, kept, source]
    | some bytes =>
      cases parsed : ClassFile.parse bytes with
      | error e =>
        refine .inr ⟨e, ?_, ?_⟩
        · simp only [lookup, kept, source, parsed]
        · simp only [decode, parsed, Except.map]
      | ok c =>
        refine .inl ⟨some c, { r with decoded := r.decoded.insert (Name.internalForm name) c }, ?_,
          ?_, rfl, fun n => ?_⟩
        · simp only [lookup, kept, source, parsed]
        · simp only [decode, source, parsed, Except.map]
        · simp [Std.HashMap.getElem?_insert]

theorem Faithful.reply_lookup (faithful : r.Faithful) (name : String) :
    ((Command.lookup name).run r).1 = .found (decode r.sources[Name.internalForm name]?) := by
  obtain ⟨c?, r', found, looks⟩ | ⟨e, failed, answer⟩ := faithful.lookup_cases name
  · simp only [Command.run, found, looks.answer]
  · simp only [Command.run, failed, answer]

def Command.bytes? (name : String) : Command → Option (List UInt8)
  | add name' bytes =>
    if Name.internalForm name' = Name.internalForm name then some bytes else none
  | _ => none

def Command.Drops (name : String) : Command → Prop
  | add name' _ | evict name' => Name.internalForm name' = Name.internalForm name
  | clear => True
  | isCached _ | lookup _ => False

def Command.Finds (name : String) (r : Repository) (x : Command) : Prop :=
  ∃ name' c, x = .lookup name' ∧ Name.internalForm name' = Name.internalForm name ∧
    (x.run r).1 = .found (.ok (some c))

theorem sources_run (faithful : r.Faithful) (x : Command) (name : String) :
    (x.run r).2.sources[Name.internalForm name]? =
      (x.bytes? name).or r.sources[Name.internalForm name]? := by
  cases x with
  | add name' bytes =>
    change (r.sources.insert _ bytes)[_]? = _
    rw [Std.HashMap.getElem?_insert, Command.bytes?]
    by_cases same : Name.internalForm name' = Name.internalForm name <;> simp [same]
  | lookup name' =>
    obtain ⟨c?, r', found, looks⟩ | ⟨e, failed, _⟩ := faithful.lookup_cases name'
    · simp only [Command.run, found, looks.sources, Command.bytes?, Option.none_or]
    · simp only [Command.run, failed, Command.bytes?, Option.none_or]
  | evict _ | clear | isCached _ => rfl

theorem faithful_run (faithful : r.Faithful) (x : Command) : (x.run r).2.Faithful := by
  cases x with
  | add name bytes =>
    intro n c kept
    change (r.decoded.erase (Name.internalForm name))[n]? = some c at kept
    change decode (r.sources.insert (Name.internalForm name) bytes)[n]? = _
    rw [Std.HashMap.getElem?_erase] at kept
    rw [Std.HashMap.getElem?_insert]
    split at kept
    · cases kept
    · rename_i other
      rw [if_neg other]
      exact faithful n c kept
  | evict name =>
    intro n c kept
    change (r.decoded.erase (Name.internalForm name))[n]? = some c at kept
    rw [Std.HashMap.getElem?_erase] at kept
    split at kept
    · cases kept
    · exact faithful n c kept
  | clear =>
    intro n c kept
    change (∅ : Std.HashMap String ClassFile)[n]? = some c at kept
    rw [Std.HashMap.getElem?_empty] at kept
    cases kept
  | isCached name => exact faithful
  | lookup name =>
    obtain ⟨c?, r', found, looks⟩ | ⟨e, failed, _⟩ := faithful.lookup_cases name
    · simp only [Command.run, found]
      exact looks.faithful faithful
    · simp only [Command.run, failed]
      exact faithful

theorem isCached_iff : r.isCached name = true ↔
    ∃ c : ClassFile, r.decoded[Name.internalForm name]? = some c := by
  rw [isCached, Std.HashMap.contains_iff_mem, Std.HashMap.mem_iff_isSome_getElem?,
    Option.isSome_iff_exists]

theorem isCached_erase {name' : String} :
    (⟨r.sources, r.decoded.erase (Name.internalForm name')⟩ : Repository).isCached name = true ↔
      r.isCached name = true ∧ ¬ Name.internalForm name' = Name.internalForm name := by
  simp [isCached, and_comm]

theorem isCached_run (faithful : r.Faithful) (x : Command) (name : String) :
    (x.run r).2.isCached name = true ↔
      x.Finds name r ∨ (r.isCached name = true ∧ ¬ x.Drops name) := by
  have finds (other : ∀ name', x ≠ .lookup name') : ¬ x.Finds name r :=
    fun ⟨name', _, same, _⟩ => other name' same
  cases x with
  | add name' bytes =>
    rw [or_iff_right (finds nofun)]
    exact isCached_erase
  | evict name' =>
    rw [or_iff_right (finds nofun)]
    exact isCached_erase
  | clear =>
    rw [or_iff_right (finds nofun)]
    simp [Command.run, Command.Drops]
  | isCached name' =>
    rw [or_iff_right (finds nofun)]
    exact (and_iff_left id).symm
  | lookup name' =>
    obtain ⟨c?, r', found, looks⟩ | ⟨e, failed, _⟩ := faithful.lookup_cases name'
    · have now : (Command.lookup name').Finds name r ↔
          Name.internalForm name' = Name.internalForm name ∧ ∃ c, c? = some c := by
        simp [Command.Finds, Command.run, found]
      have later : ((Command.lookup name').run r).2 = r' := by simp only [Command.run, found]
      rw [later, now, isCached_iff, isCached_iff, looks.decoded]
      split
      · rename_i same
        -- A class that is kept already is found, so that it need not be told apart from a new one.
        have known : (∃ c, r.decoded[Name.internalForm name]? = some c) → ∃ c, c? = some c := by
          rintro ⟨c, kept⟩
          have answer := looks.answer
          rw [same, faithful _ c kept] at answer
          exact ⟨c, (Except.ok.inj answer).symm⟩
        rw [and_iff_right same, or_iff_left_of_imp fun both => known both.1]
      · rename_i other
        simp [other, Command.Drops]
    · have now : ¬ (Command.lookup name').Finds name r := by
        simp [Command.Finds, Command.run, failed]
      have later : ((Command.lookup name').run r).2 = r := by simp only [Command.run, failed]
      rw [later, or_iff_right now]
      exact (and_iff_left id).symm

theorem faithful_after (cs : List Command) : (empty.after cs).Faithful := by
  induction cs using List.reverseRecOn with
  | nil => exact faithful_empty
  | append_singleton cs x ih =>
    rw [after_concat]
    exact faithful_run ih x

def newest? (name : String) (cs : List Command) : Option (List UInt8) :=
  cs.reverse.findSome? (Command.bytes? name)

theorem newest?_concat (name : String) (cs : List Command) (x : Command) :
    newest? name (cs ++ [x]) = (x.bytes? name).or (newest? name cs) := by
  rw [newest?, List.reverse_concat, List.findSome?_cons]
  cases x.bytes? name <;> rfl

theorem newest?_add (name : String) (bytes : List UInt8) :
    newest? name [.add name bytes] = some bytes := by
  simp [newest?, Command.bytes?]

theorem sources_after (cs : List Command) (name : String) :
    (empty.after cs).sources[Name.internalForm name]? = newest? name cs := by
  induction cs using List.reverseRecOn with
  | nil => exact Std.HashMap.getElem?_empty
  | append_singleton cs x ih => rw [after_concat, sources_run (faithful_after cs), newest?_concat, ih]

/-- A lookup has found a class, and no command has dropped it since. -/
def StillFound (name : String) (cs : List Command) : Prop :=
  ∃ before x later, cs = before ++ x :: later ∧ x.Finds name (empty.after before) ∧
    ∀ y ∈ later, ¬ y.Drops name

theorem stillFound_concat {cs : List Command} {x : Command} : StillFound name (cs ++ [x]) ↔
    x.Finds name (empty.after cs) ∨ (StillFound name cs ∧ ¬ x.Drops name) := by
  constructor
  · rintro ⟨before, y, later, split, finds, stays⟩
    obtain rfl | ⟨later, z, rfl⟩ := List.eq_nil_or_concat later
    · obtain ⟨rfl, same⟩ := List.append_inj' split rfl
      cases same
      exact .inl finds
    · rw [List.concat_eq_append, ← List.cons_append, ← List.append_assoc] at split
      obtain ⟨rfl, same⟩ := List.append_inj' split rfl
      cases same
      refine .inr ⟨⟨before, y, later, rfl, finds, fun z member => ?_⟩, ?_⟩
      · exact stays z (by simp [member])
      · exact stays _ (by simp)
  · rintro (finds | ⟨⟨before, y, later, rfl, finds, stays⟩, kept⟩)
    · exact ⟨cs, x, [], rfl, finds, List.forall_mem_nil _⟩
    · refine ⟨before, y, later ++ [x], by simp, finds, fun z member => ?_⟩
      obtain member | last := List.mem_append.mp member
      · exact stays z member
      · rwa [List.mem_singleton.mp last]

theorem isCached_after (cs : List Command) (name : String) :
    (empty.after cs).isCached name = true ↔ StillFound name cs := by
  induction cs using List.reverseRecOn with
  | nil =>
    refine iff_of_false (by simp [after, empty, isCached]) ?_
    rintro ⟨before, x, later, split, _⟩
    simp at split
  | append_singleton cs x ih =>
    rw [after_concat, isCached_run (faithful_after cs), stillFound_concat, ih]

/-- After any history, a lookup answers what the bytes decode to that were put last under a spelling
of the name, as if nothing were ever kept.  A class is kept just when a lookup of a spelling has found
it and since then no bytes were put under a spelling, none was evicted, and nothing was cleared; and
evicting says whether it was. -/
theorem replies_after (cs : List Command) (name : String) :
    ((Command.lookup name).run (empty.after cs)).1 = .found (decode (newest? name cs)) ∧
    (((Command.isCached name).run (empty.after cs)).1 = .flag true ↔ StillFound name cs) ∧
    ((Command.evict name).run (empty.after cs)).1 =
      ((Command.isCached name).run (empty.after cs)).1 := by
  refine ⟨?_, ?_, rfl⟩
  · rw [(faithful_after cs).reply_lookup, sources_after]
  · rw [← isCached_after]
    simp [Command.run]

end Repository

end JvmClass
