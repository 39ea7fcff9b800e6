import JvmClass.Proofs.Code.Numbered
import JvmClass.Proofs.Code.Recoding
import JvmClass.Proofs.Code.ReverseIndex

/-! What lifting puts into the tables of a body.  A range, a scope or a line is made of each entry
of the code attribute and comes last in its table, and the instructions stay as they are. -/

namespace JvmClass

namespace Listing

variable {l m n : Listing}

/-- The second listing has the instructions of the first, and an index of its own. -/
def Reindexed (l m : Listing) : Prop := ∃ index, m = { l with targeters := index }

theorem Reindexed.refl (l : Listing) : l.Reindexed l := ⟨l.targeters, rfl⟩

theorem Reindexed.trans (first : l.Reindexed m) (second : m.Reindexed n) : l.Reindexed n := by
  obtain ⟨_, rfl⟩ := first
  obtain ⟨index, rfl⟩ := second
  exact ⟨index, rfl⟩

theorem Reindexed.position?_eq (same : l.Reindexed m) : m.position? = l.position? := by
  obtain ⟨_, rfl⟩ := same
  rfl

theorem Reindexed.toList_eq (same : l.Reindexed m) : m.toList = l.toList := by
  obtain ⟨_, rfl⟩ := same
  rfl

theorem Reindexed.encode {code : List UInt8} (same : l.Reindexed m)
    (encoded : Listing.encode l = .ok code n) : ∃ k, Listing.encode m = .ok code k := by
  obtain ⟨index, rfl⟩ := same
  obtain ⟨o, pieces, laid, short, written, rfl, _⟩ := encode_eq_ok encoded
  refine ⟨_, encode_of_pieces pieces ?_ short written⟩
  exact (layOut_congr (l := l) (m := { l with targeters := index }) rfl _ _).trans laid

end Listing

namespace Body

variable {b c d : Body} {e : Entry} {es fs : List Entry} {h : Handle}

namespace Entry

def handles : Entry → List Handle
  | range r => r.handles
  | scope v => v.handles
  | line n => [n.start]

def check (l : Listing) : Entry → Except Error Unit
  | range r => checkRange l r.start r.last
  | scope v => v.last?.elim (.ok ()) (checkRange l v.start)
  | line _ => .ok ()

/-- The entry may be added to the tables that go with a listing. -/
structure Fits (l : Listing) (e : Entry) : Prop where
  known : ∀ h ∈ e.handles, l.contains h
  ordered : e.check l = .ok ()

def range? : Entry → Option ExceptionRange
  | range r => some r
  | _ => none

def scope? : Entry → Option VariableScope
  | scope v => some v
  | _ => none

def line? : Entry → Option LineEntry
  | line n => some n
  | _ => none

def targeter (id : Nat) : Entry → Targeter
  | range _ => .exceptionHandler id
  | scope _ => .localVariable id
  | line _ => .lineNumber id

def store (id : Nat) : Entry → Body → Body
  | range r => storeHandler r id
  | scope v => storeVariable v id
  | line n => storeLine n id

@[simp] theorem filterMap_range? (rs : List ExceptionRange) :
    (rs.map range).filterMap range? = rs := by
  rw [List.filterMap_map]
  exact List.filterMap_some

@[simp] theorem filterMap_scope? (vs : List VariableScope) :
    (vs.map scope).filterMap scope? = vs := by
  rw [List.filterMap_map]
  exact List.filterMap_some

@[simp] theorem filterMap_line? (ns : List LineEntry) : (ns.map line).filterMap line? = ns := by
  rw [List.filterMap_map]
  exact List.filterMap_some

theorem Fits.reindex {l m : Listing} (fits : e.Fits l) (same : l.Reindexed m) : e.Fits m := by
  obtain ⟨_, rfl⟩ := same
  exact ⟨fits.known, fits.ordered⟩

end Entry

theorem enter_of_known {hs : List Handle} {make : Nat → Targeter} {store : Nat → Body → Body}
    (known : ∀ h ∈ hs, b.listing.contains h) :
    enter hs make store b = .ok b.fresh (store b.fresh (entered hs (make b.fresh) b)) := by
  have none : hs.find? (fun h => !b.listing.contains h) = .none := by simpa using known
  have none' : hs.find? (fun h => !b.spent.listing.contains h) = .none := none
  rw [enter_eq, register_eq, none']
  rfl

def plus (b : Body) (e : Entry) : Body :=
  e.store b.fresh (entered e.handles (e.targeter b.fresh) b)

theorem checked_eq (check : Except Error Unit) (edit : Edit Nat) (b : Body) :
    (liftExcept check >>= fun _ => edit) b =
      match check with
      | .error e => .error e b
      | .ok () => edit b := by
  cases check <;> rfl

theorem add_eq (e : Entry) (b : Body) :
    e.add b = match e.check b.listing with
      | .error e => .error e b
      | .ok () => enter e.handles (fun id => e.targeter id) (fun id => e.store id) b := by
  cases e with
  | range r =>
    exact checked_eq (checkRange b.listing r.start r.last)
      (enter r.handles .exceptionHandler (storeHandler r)) b
  | scope v =>
    obtain ⟨start, last?, name, descriptor, slot⟩ := v
    cases last? with
    | none => rfl
    | some last =>
      exact checked_eq (checkRange b.listing start last) (enter [start, last] .localVariable
        (storeVariable ⟨start, some last, name, descriptor, slot⟩)) b
  | line n => rfl

theorem add_of_fits (fits : e.Fits b.listing) : e.add b = .ok b.fresh (b.plus e) := by
  rw [add_eq, fits.ordered]
  exact enter_of_known fits.known

theorem edited_add_eq_ok_iff : edited e.add b = .ok c ↔ e.Fits b.listing ∧ c = b.plus e := by
  unfold edited
  rw [add_eq]
  cases checked : e.check b.listing with
  | error e' =>
    refine iff_of_false (by simp) fun both => ?_
    rw [both.1.ordered] at checked
    cases checked
  | ok _ =>
    dsimp only
    by_cases known : ∀ h ∈ e.handles, b.listing.contains h
    · rw [enter_of_known known]
      constructor
      · intro same
        cases same
        exact ⟨⟨known, checked⟩, rfl⟩
      · rintro ⟨_, rfl⟩
        rfl
    · obtain ⟨e', run⟩ | ⟨known', _⟩ :=
        enter_cases e.handles (fun id => e.targeter id) (fun id => e.store id) b
      · rw [run]
        exact iff_of_false (by simp) fun both => known both.1.known
      · exact absurd known' known

/-- From `b` to `c` entries are added to the tables, each at the end of its own, and attributes
at the end of the attributes. -/
structure Gains (b : Body) (es : List Entry) (as : List Attribute) (c : Body) : Prop where
  coherent : c.Coherent
  listing : b.listing.Reindexed c.listing
  ranges : c.handlers.values = b.handlers.values ++ es.filterMap Entry.range?
  scopes : c.scopes.values = b.scopes.values ++ es.filterMap Entry.scope?
  lines : c.lines.values = b.lines.values ++ es.filterMap Entry.line?
  attributes : c.attributes = b.attributes ++ as
  maxStack : c.maxStack = b.maxStack
  maxLocals : c.maxLocals = b.maxLocals

variable {as bs : List Attribute}

theorem Gains.refl (coherent : b.Coherent) : b.Gains [] [] b where
  coherent := coherent
  listing := .refl _
  ranges := (List.append_nil _).symm
  scopes := (List.append_nil _).symm
  lines := (List.append_nil _).symm
  attributes := (List.append_nil _).symm
  maxStack := rfl
  maxLocals := rfl

theorem Gains.trans (first : b.Gains es as c) (second : c.Gains fs bs d) :
    b.Gains (es ++ fs) (as ++ bs) d where
  coherent := second.coherent
  listing := first.listing.trans second.listing
  ranges := by rw [second.ranges, first.ranges, List.filterMap_append, List.append_assoc]
  scopes := by rw [second.scopes, first.scopes, List.filterMap_append, List.append_assoc]
  lines := by rw [second.lines, first.lines, List.filterMap_append, List.append_assoc]
  attributes := by rw [second.attributes, first.attributes, List.append_assoc]
  maxStack := second.maxStack.trans first.maxStack
  maxLocals := second.maxLocals.trans first.maxLocals

theorem gains_plus (coherent : b.Coherent) (fits : e.Fits b.listing) :
    b.Gains [e] [] (b.plus e) := by
  have after := coherent_edited coherent (edited_add_eq_ok_iff.mpr ⟨fits, rfl⟩)
  have same {α : Type} (xs : List α) : xs = xs ++ [] := (List.append_nil xs).symm
  cases e with
  | range r =>
    simp only [plus, entered, Entry.store, storeHandler] at after ⊢
    refine ⟨after, ⟨_, rfl⟩, ?_, same _, same _, same _, rfl, rfl⟩
    exact Numbered.values_insert fun id present =>
      coherent.given (.exceptionHandler id) (hasEntry_exceptionHandler.mpr present)
  | scope v =>
    simp only [plus, entered, Entry.store, storeVariable] at after ⊢
    refine ⟨after, ⟨_, rfl⟩, same _, ?_, same _, same _, rfl, rfl⟩
    exact Numbered.values_insert fun id present =>
      coherent.given (.localVariable id) (hasEntry_localVariable.mpr present)
  | line n =>
    simp only [plus, entered, Entry.store, storeLine] at after ⊢
    refine ⟨after, ⟨_, rfl⟩, same _, same _, ?_, same _, rfl, rfl⟩
    exact Numbered.values_insert fun id present =>
      coherent.given (.lineNumber id) (hasEntry_lineNumber.mpr present)

section Tables

variable {α β : Type} {make : α → Except LiftFailure β} {wrap : β → Entry}
  {step : Body → α → Except LiftFailure Body} {xs : List α} {ys : List β}

def Tables (step : Body → α → Except LiftFailure Body) (make : α → Except LiftFailure β)
    (wrap : β → Entry) : Prop :=
  ∀ b x, step b x = make x >>= fun y => edited (wrap y).add b

theorem Tables.gains (tables : Tables step make wrap) (coherent : b.Coherent)
    (done : xs.foldlM step b = .ok c) :
    ∃ ys, List.Forall₂ (fun x y => make x = .ok y) xs ys ∧ b.Gains (ys.map wrap) [] c := by
  induction xs generalizing b with
  | nil =>
    cases done
    exact ⟨[], .nil, .refl coherent⟩
  | cons x xs ih =>
    rw [List.foldlM_cons] at done
    obtain ⟨d, first, done⟩ := bind_eq_ok done
    rw [tables] at first
    obtain ⟨y, made, first⟩ := bind_eq_ok first
    obtain ⟨fits, rfl⟩ := edited_add_eq_ok_iff.mp first
    have gains := gains_plus coherent fits
    obtain ⟨ys, others, gains'⟩ := ih gains.coherent done
    exact ⟨y :: ys, .cons made others, gains.trans gains'⟩

theorem Tables.run (tables : Tables step make wrap) (coherent : b.Coherent)
    (made : List.Forall₂ (fun x y => make x = .ok y) xs ys)
    (fits : ∀ y ∈ ys, (wrap y).Fits b.listing) :
    ∃ c, xs.foldlM step b = .ok c ∧ b.Gains (ys.map wrap) [] c := by
  induction made generalizing b with
  | nil => exact ⟨b, rfl, .refl coherent⟩
  | @cons x y xs ys first _ ih =>
    obtain ⟨here, others⟩ := List.forall_mem_cons.mp fits
    have gains := gains_plus coherent here
    obtain ⟨c, done, gains'⟩ := ih gains.coherent fun y member =>
      (others y member).reindex gains.listing
    refine ⟨c, ?_, gains.trans gains'⟩
    rw [List.foldlM_cons, tables, first]
    change (edited (wrap y).add b >>= fun c => xs.foldlM step c) = _
    rw [edited_add_eq_ok_iff.mpr ⟨here, rfl⟩]
    exact done

end Tables

theorem startAt_eq_ok_iff {s : Listing.Starts} {offset : Nat} :
    startAt s offset = .ok h ↔ s.at? offset = some h := by
  unfold startAt
  cases s.at? offset <;> simp

def rangeOf (s : Listing.Starts) (e : ExceptionEntry) : Except LiftFailure ExceptionRange := do
  let start ← startAt s e.start.toNat
  let last ← lastBefore s e.start.toNat e.stop.toNat
  let handler ← startAt s e.handler.toNat
  return ⟨start, last, handler, e.catches⟩

def scopeOf (s : Listing.Starts) (v : LocalVariable) : Except LiftFailure VariableScope := do
  let last? ←
    if v.length = 0 then pure none
    else some <$> lastBefore s v.start.toNat (v.start.toNat + v.length.toNat)
  let start ← startAt s v.start.toNat
  return ⟨start, last?, v.name, v.descriptor, v.slot⟩

def lineOf (s : Listing.Starts) (n : LineNumber) : Except LiftFailure LineEntry := do
  return ⟨← startAt s n.start.toNat, n.line⟩

theorem tables_liftHandler (s : Listing.Starts) : Tables (liftHandler s) (rangeOf s) .range := by
  intro b e
  simp only [liftHandler, rangeOf, bind_assoc, pure_bind]
  rfl

theorem tables_liftVariable (s : Listing.Starts) : Tables (liftVariable s) (scopeOf s) .scope := by
  intro b v
  by_cases empty : v.length = 0
  · simp only [liftVariable, scopeOf, if_pos empty, bind_assoc, pure_bind]
    rfl
  · simp only [liftVariable, scopeOf, if_neg empty, bind_assoc, pure_bind]
    rfl

theorem tables_liftLine (s : Listing.Starts) : Tables (liftLine s) (lineOf s) .line := by
  intro b n
  simp only [liftLine, lineOf, bind_assoc, pure_bind]
  rfl

theorem gains_attribute (coherent : b.Coherent) (a : Attribute) :
    b.Gains [] [a] { b with attributes := b.attributes ++ [a] } := by
  refine ⟨⟨coherent.listing, coherent.given, coherent.distinct⟩, .refl _, ?_, ?_, ?_, rfl, rfl, rfl⟩
  all_goals exact (List.append_nil _).symm

section Attributes

variable {p : Pool} {s : Listing.Starts} {a : Attribute} {title : String}

def valuesIn (p : Pool) (α : Type) [AttributeKind α] (as : List Attribute) : List α :=
  as.filterMap fun a =>
    if a.title p = .ok (AttributeKind.title α) then (a.value α).toOption else none

def linesIn (p : Pool) (as : List Attribute) : List LineNumber :=
  (valuesIn p LineNumberTable as).flatMap (·.entries.toList)

def variablesIn (p : Pool) (as : List Attribute) : List LocalVariable :=
  (valuesIn p LocalVariableTable as).flatMap (·.entries)

def usedTitles : List String :=
  [AttributeKind.title LineNumberTable, AttributeKind.title LocalVariableTable, stackMapTitle]

/-- The attributes that lifting carries along as they are. -/
def keptIn (p : Pool) (as : List Attribute) : List Attribute :=
  as.filter fun a => a.title p ∉ usedTitles.map .ok

theorem linesIn_append (p : Pool) (as bs : List Attribute) :
    linesIn p (as ++ bs) = linesIn p as ++ linesIn p bs := by
  simp only [linesIn, valuesIn, List.filterMap_append, List.flatMap_append]

theorem variablesIn_append (p : Pool) (as bs : List Attribute) :
    variablesIn p (as ++ bs) = variablesIn p as ++ variablesIn p bs := by
  simp only [variablesIn, valuesIn, List.filterMap_append, List.flatMap_append]

theorem valuesIn_of_value {α : Type} [AttributeKind α] {t : α}
    (named : a.title p = .ok (AttributeKind.title α)) (value : a.value α = .ok t) :
    valuesIn p α [a] = [t] := by
  simp [valuesIn, named, value, Except.toOption]

theorem valuesIn_of_ne {α : Type} [AttributeKind α] (named : a.title p = .ok title)
    (other : title ≠ AttributeKind.title α) : valuesIn p α [a] = [] := by
  simp [valuesIn, named, other]

theorem keptIn_of_mem (named : a.title p = .ok title) (used : title ∈ usedTitles) :
    keptIn p [a] = [] := by
  simp [keptIn, named, used]

theorem keptIn_of_not_mem (named : a.title p = .ok title) (unused : title ∉ usedTitles) :
    keptIn p [a] = [a] := by
  have others : ∀ x ∈ usedTitles, x ≠ title := fun x used same => unused (same ▸ used)
  simpa [keptIn, named] using others

/-- The entries are made of the lines and the local variables that the attributes hold. -/
structure Unpacks (p : Pool) (s : Listing.Starts) (as : List Attribute) (es : List Entry) :
    Prop where
  titled : ∀ a ∈ as, ∃ title, a.title p = .ok title
  ranges : es.filterMap Entry.range? = []
  lines : List.Forall₂ (fun n y => lineOf s n = .ok y) (linesIn p as) (es.filterMap Entry.line?)
  scopes : List.Forall₂ (fun v x => scopeOf s v = .ok x) (variablesIn p as)
    (es.filterMap Entry.scope?)

theorem Unpacks.nil (p : Pool) (s : Listing.Starts) : Unpacks p s [] [] :=
  ⟨List.forall_mem_nil _, rfl, .nil, .nil⟩

theorem Unpacks.append (first : Unpacks p s as es) (second : Unpacks p s bs fs) :
    Unpacks p s (as ++ bs) (es ++ fs) where
  titled := List.forall_mem_append.mpr ⟨first.titled, second.titled⟩
  ranges := by rw [List.filterMap_append, first.ranges, second.ranges, List.append_nil]
  lines := by
    rw [linesIn_append, List.filterMap_append]
    exact List.rel_append first.lines second.lines
  scopes := by
    rw [variablesIn_append, List.filterMap_append]
    exact List.rel_append first.scopes second.scopes

theorem Unpacks.of_ne (named : a.title p = .ok title)
    (noLines : title ≠ AttributeKind.title LineNumberTable)
    (noScopes : title ≠ AttributeKind.title LocalVariableTable) : Unpacks p s [a] [] := by
  refine ⟨List.forall_mem_singleton.mpr ⟨title, named⟩, rfl, ?_, ?_⟩
  · rw [linesIn, valuesIn_of_ne named noLines]
    exact .nil
  · rw [variablesIn, valuesIn_of_ne named noScopes]
    exact .nil

theorem Unpacks.of_lines {t : LineNumberTable} {ys : List LineEntry}
    (named : a.title p = .ok (AttributeKind.title LineNumberTable))
    (value : a.value LineNumberTable = .ok t)
    (made : List.Forall₂ (fun n y => lineOf s n = .ok y) t.entries.toList ys) :
    Unpacks p s [a] (ys.map .line) := by
  refine ⟨List.forall_mem_singleton.mpr ⟨_, named⟩, by simp [Entry.range?], ?_, ?_⟩
  · rwa [linesIn, valuesIn_of_value named value, List.flatMap_singleton, Entry.filterMap_line?]
  · rw [variablesIn, valuesIn_of_ne named (by decide)]
    simp [Entry.scope?]

theorem Unpacks.of_variables {t : LocalVariableTable} {xs : List VariableScope}
    (named : a.title p = .ok (AttributeKind.title LocalVariableTable))
    (value : a.value LocalVariableTable = .ok t)
    (made : List.Forall₂ (fun v x => scopeOf s v = .ok x) t.entries xs) :
    Unpacks p s [a] (xs.map .scope) := by
  refine ⟨List.forall_mem_singleton.mpr ⟨_, named⟩, by simp [Entry.range?], ?_, ?_⟩
  · rw [linesIn, valuesIn_of_ne named (by decide)]
    simp [Entry.line?]
  · rwa [variablesIn, valuesIn_of_value named value, List.flatMap_singleton,
      Entry.filterMap_scope?]

theorem gains_liftAttribute (coherent : b.Coherent) (done : liftAttribute p s b a = .ok c) :
    ∃ es, Unpacks p s [a] es ∧ b.Gains es (keptIn p [a]) c := by
  obtain ⟨title, named, done⟩ := bind_eq_ok done
  rw [mapError_eq_ok_iff] at named
  split at done
  · rename_i lines
    obtain ⟨table, value, done⟩ := bind_eq_ok done
    obtain ⟨ys, made, gains⟩ := (tables_liftLine s).gains coherent done
    subst lines
    rw [keptIn_of_mem named (by decide)]
    exact ⟨_, .of_lines named (mapError_eq_ok_iff.mp value) made, gains⟩
  rename_i noLines
  split at done
  · rename_i scopes
    obtain ⟨table, value, done⟩ := bind_eq_ok done
    obtain ⟨xs, made, gains⟩ := (tables_liftVariable s).gains coherent done
    subst scopes
    rw [keptIn_of_mem named (by decide)]
    exact ⟨_, .of_variables named (mapError_eq_ok_iff.mp value) made, gains⟩
  rename_i noScopes
  refine ⟨[], .of_ne named noLines noScopes, ?_⟩
  split at done
  · rename_i map
    cases done
    rw [keptIn_of_mem named (by simp [usedTitles, map])]
    exact .refl coherent
  · rename_i noMap
    cases done
    rw [keptIn_of_not_mem named (by simp [usedTitles, noLines, noScopes, noMap])]
    exact gains_attribute coherent a

theorem gains_liftAttributes (coherent : b.Coherent)
    (done : as.foldlM (liftAttribute p s) b = .ok c) :
    ∃ es, Unpacks p s as es ∧ b.Gains es (keptIn p as) c := by
  induction as generalizing b with
  | nil =>
    cases done
    exact ⟨[], .nil p s, .refl coherent⟩
  | cons a as ih =>
    rw [List.foldlM_cons] at done
    obtain ⟨d, first, done⟩ := bind_eq_ok done
    obtain ⟨es, here, gains⟩ := gains_liftAttribute coherent first
    obtain ⟨fs, others, gains'⟩ := ih gains.coherent done
    have both := gains.trans gains'
    rw [keptIn, keptIn, ← List.filter_append] at both
    exact ⟨es ++ fs, here.append others, both⟩

end Attributes

def opened (id : Nat) (maxStack maxLocals : UInt16) (l : Listing) : Body :=
  { empty id maxStack maxLocals with listing := l }

theorem coherent_opened {id : Nat} {l : Listing} {s : Listing.Starts} {code : List UInt8}
    (maxStack maxLocals : UInt16) (decoded : Listing.decode id code = .ok (l, s)) :
    (opened id maxStack maxLocals l).Coherent := by
  refine coherent_of_no_entries (fun t => ?_) (Listing.coherent_decode decoded)
  cases t <;> simp [entries, opened, empty]

/-- What the tables of a body are that has been lifted, when its code was read as a listing. -/
structure Lifts (p : Pool) (code : Code) (l : Listing) (s : Listing.Starts) (b : Body) :
    Prop where
  listing : l.Reindexed b.listing
  ranges : List.Forall₂ (fun e r => rangeOf s e = .ok r) code.handlers b.handlers.values
  lines : List.Forall₂ (fun n y => lineOf s n = .ok y) (linesIn p code.attributes) b.lines.values
  scopes : List.Forall₂ (fun v x => scopeOf s v = .ok x) (variablesIn p code.attributes)
    b.scopes.values
  titled : ∀ a ∈ code.attributes, ∃ title, a.title p = .ok title
  attributes : b.attributes = keptIn p code.attributes
  maxStack : b.maxStack = code.maxStack
  maxLocals : b.maxLocals = code.maxLocals

theorem lifts_of_lift {id : Nat} {p : Pool} {code : Code} (lifted : lift id p code = .ok b) :
    ∃ l s, Listing.decode id code.bytes = .ok (l, s) ∧ Lifts p code l s b := by
  obtain ⟨⟨l, s⟩, decoded, lifted⟩ := bind_eq_ok lifted
  obtain ⟨c, handlers, lifted⟩ := bind_eq_ok lifted
  rw [mapError_eq_ok_iff] at decoded
  obtain ⟨rs, made, gains⟩ := (tables_liftHandler s).gains
    (coherent_opened code.maxStack code.maxLocals decoded) handlers
  obtain ⟨es, unpacks, gains'⟩ := gains_liftAttributes gains.coherent lifted
  have all := gains.trans gains'
  have ranges : b.handlers.values = rs := by
    rw [all.ranges, List.filterMap_append, unpacks.ranges, Entry.filterMap_range?,
      List.append_nil]
    rfl
  have lines : b.lines.values = es.filterMap Entry.line? := by
    rw [all.lines, List.filterMap_append]
    simp [Entry.line?, opened, empty]
  have scopes : b.scopes.values = es.filterMap Entry.scope? := by
    rw [all.scopes, List.filterMap_append]
    simp [Entry.scope?, opened, empty]
  refine ⟨l, s, decoded, all.listing, ranges ▸ made, lines ▸ unpacks.lines,
    scopes ▸ unpacks.scopes, unpacks.titled, ?_, all.maxStack, all.maxLocals⟩
  rw [all.attributes]
  rfl

end Body

end JvmClass
