import JvmClass.Attribute.Basic
import JvmClass.Proofs.Pool.Forms
import JvmClass.Proofs.Results
import JvmClass.Proofs.Slotted

/-! The pools that there can be: an empty one or one that was read, followed by any additions.  Such
a pool is what its constants make, whether additions to it succeeded or failed, and a constant
stays at the index where it was put. -/

namespace JvmClass.Pool

open Width (width)

inductive Addition : Type 1 where
  | constant (c : Constant)
  | utf8 (s : String)
  | classOf (name : String)
  | string (s : String)
  | nameAndType (name descriptor : String)
  | fieldRef (owner name descriptor : String)
  | methodRef (owner name descriptor : String) (ofInterface : Bool)
  | attributeOf {α : Type} [AttributeKind α] (a : α)

def Addition.run : Addition → Pool → Pool
  | constant c => left (add c)
  | utf8 s => left (addUtf8 s)
  | classOf name => left (addClass name)
  | string s => left (addString s)
  | nameAndType name descriptor => left (addNameAndType name descriptor)
  | fieldRef owner name descriptor => left (addFieldRef owner name descriptor)
  | methodRef owner name descriptor ofInterface =>
    left (addMethodRef owner name descriptor ofInterface)
  | attributeOf a => left (addAttribute a)

inductive Built : Pool → Prop where
  | empty : Built empty
  | read {s t : Input} {p : Pool} (read : decoder s = .ok (p, t)) : Built p
  | added {p : Pool} (a : Addition) (before : Built p) : Built (a.run p)

/-- The pool is what its constants make, and its indices fit into two bytes. -/
structure Lawful (p : Pool) : Prop where
  made : p = ofConstants p.constants
  next : p.entries.next < 65536

/-- A later state of a pool, in which more constants come behind those of the earlier one. -/
structure Follows (p q : Pool) : Prop where
  lawful : q.Lawful
  keeps : p.constants <+: q.constants

def Adds {α : Type} : Adding α → Prop := Leads fun p q => p.Lawful → p.Follows q

variable {α β : Type} {p q r : Pool} {c : Constant} {cs ds : List Constant} {i : UInt16} {n : Nat}

theorem Follows.refl (lawful : p.Lawful) : p.Follows p := ⟨lawful, List.prefix_rfl⟩

theorem Follows.trans (first : p.Follows q) (second : q.Follows r) : p.Follows r :=
  ⟨second.lawful, first.keeps.trans second.keeps⟩

theorem lawful_empty : empty.Lawful := ⟨rfl, by decide⟩

theorem Form.Means.lawful {form : Form} (means : form.Means p) : p.Lawful :=
  ⟨means.made, means.next ▸ form.count.toNat_lt⟩

theorem lawful_of_read {s t : Input} (read : decoder s = .ok (p, t)) : p.Lawful := by
  obtain ⟨_, ⟨form, means, _⟩, _⟩ := (accepts_decoder s p t).mp read
  exact means.lawful

theorem Lawful.extended (lawful : p.Lawful) (room : p.entries.next + width c < 65536) :
    p.Follows (p.extended c) := by
  refine ⟨⟨?_, room⟩, ?_⟩
  · conv => lhs; rw [lawful.made]
    rw [constants_extended, ofConstants, ofConstants, List.foldl_append]
    rfl
  · rw [constants_extended]
    exact List.prefix_append _ _

/-- What adding a constant leads to, as often as it is done, all additions lead to. -/
theorem leads_run {R : Pool → Pool → Prop} (refl : ∀ p, R p p) (trans : ∀ p q r, R p q → R q r → R p r)
    (each : ∀ c, Leads R (add c)) (a : Addition) (p : Pool) : R p (a.run p) := by
  have class' (name : String) : Leads R (addClass name) :=
    leads_bind trans (each _) fun _ => each _
  have pair (name descriptor : String) : Leads R (addNameAndType name descriptor) :=
    leads_bind trans (each _) fun _ => leads_bind trans (each _) fun _ => each _
  cases a with
  | constant c => exact each c p
  | utf8 s => exact each (.utf8 s) p
  | classOf name => exact class' name p
  | string s => exact leads_bind trans (each (.utf8 s)) (fun _ => each _) p
  | nameAndType name descriptor => exact pair name descriptor p
  | fieldRef owner name descriptor | methodRef owner name descriptor ofInterface =>
    exact leads_bind trans (class' owner)
      (fun _ => leads_bind trans (pair name descriptor) fun _ => each _) p
  | attributeOf a =>
    exact leads_bind trans (each _) (fun _ => leads_bind trans (leads_liftExcept refl _)
      fun _ => leads_pure refl _) p

theorem Lawful.push_eq (lawful : p.Lawful) (c : Constant) :
    push c p = if p.entries.next + width c < 65536 then
      .ok p.entries.next.toUInt16 (p.extended c) else .error (.poolFull c p.entries.next) p := by
  unfold push
  dsimp only
  rw [toNat_count lawful.next]
  by_cases room : p.entries.next + width c < 65536
  · rw [if_pos room, if_neg (by omega)]
    rfl
  · rw [if_neg room, if_pos (by omega)]

theorem Lawful.add_eq (lawful : p.Lawful) (c : Constant) :
    (∃ e, add c p = .error e p) ∨ (∃ i, p.index[c]? = some i ∧ add c p = .ok i p) ∨
      p.index[c]? = none ∧ p.entries.next + width c < 65536 ∧
        add c p = .ok p.entries.next.toUInt16 (p.extended c) := by
  unfold add
  cases c.checkLength with
  | error e => exact .inl ⟨e, rfl⟩
  | ok _ =>
    dsimp only
    cases found : p.index[c]? with
    | some i => exact .inr (.inl ⟨i, rfl, rfl⟩)
    | none =>
      dsimp only
      rw [lawful.push_eq]
      by_cases room : p.entries.next + width c < 65536
      · rw [if_pos room]
        exact .inr (.inr ⟨rfl, room, rfl⟩)
      · rw [if_neg room]
        exact .inl ⟨_, rfl⟩

theorem adds_add (c : Constant) : Adds (add c) := by
  intro p lawful
  unfold left
  obtain ⟨e, failed⟩ | ⟨i, _, there⟩ | ⟨_, room, made⟩ := lawful.add_eq c
  · rw [failed]
    exact .refl lawful
  · rw [there]
    exact .refl lawful
  · rw [made]
    exact lawful.extended room

theorem follows_of_both (first : p.Lawful → p.Follows q) (second : q.Lawful → q.Follows r)
    (lawful : p.Lawful) : p.Follows r :=
  (first lawful).trans (second (first lawful).lawful)

theorem adds_bind {step : Adding α} {next : α → Adding β} (first : Adds step)
    (second : ∀ a, Adds (next a)) : Adds (step >>= next) :=
  leads_bind (fun _ _ _ => follows_of_both) first second

theorem follows_run (a : Addition) (lawful : p.Lawful) : p.Follows (a.run p) :=
  leads_run (R := fun p q => p.Lawful → p.Follows q) (fun _ => .refl)
    (fun _ _ _ => follows_of_both) adds_add a p lawful

theorem lawful_of_built (built : p.Built) : p.Lawful := by
  induction built with
  | empty => exact lawful_empty
  | read read => exact lawful_of_read read
  | added a _ ih => exact (follows_run a ih).lawful

def slotted (start : Nat) : List Constant → List (Nat × Constant)
  | [] => []
  | c :: cs => (start, c) :: slotted (start + width c) cs

theorem slotted_append (start : Nat) (cs ds : List Constant) : slotted start (cs ++ ds) =
    slotted start cs ++ slotted (start + total width cs) ds := by
  induction cs generalizing start with
  | nil => rfl
  | cons c cs ih => rw [List.cons_append, slotted, slotted, ih, total_cons, Nat.add_assoc]; rfl

theorem getElem?_slotted (start k : Nat) (cs : List Constant) : (slotted start cs)[k]? =
    cs[k]?.map fun c => (Slotted.slotOf start cs k, c) := by
  induction cs generalizing start k with
  | nil => simp [slotted]
  | cons c cs ih =>
    cases k with
    | zero => simp [slotted, Slotted.slotOf]
    | succ k => simp [slotted, ih, Slotted.slotOf, Nat.add_assoc]

theorem mem_slotted_iff_slotOf {start : Nat} :
    (n, c) ∈ slotted start cs ↔ ∃ k, cs[k]? = some c ∧ n = Slotted.slotOf start cs k := by
  simp only [List.mem_iff_getElem?, getElem?_slotted, Option.map_eq_some_iff, Prod.mk.injEq]
  exact exists_congr fun k => ⟨fun ⟨_, here, start, same⟩ => ⟨same ▸ here, start.symm⟩,
    fun ⟨here, start⟩ => ⟨c, here, start.symm, rfl⟩⟩

theorem solid_constants (cs : List Constant) : Slotted.Solid cs := fun c _ => c.width_pos

theorem mem_slotted_iff (start : Nat) : (∃ n, (n, c) ∈ slotted start cs) ↔ c ∈ cs := by
  induction cs generalizing start with
  | nil => simp [slotted]
  | cons d cs ih =>
    rw [List.mem_cons, ← ih (start + width d)]
    simp only [slotted, List.mem_cons, Prod.mk.injEq, exists_or, exists_and_right, exists_eq]
    simp

theorem entries_foldl (p : Pool) (cs : List Constant) :
    (cs.foldl extended p).entries = p.entries.putAll cs := by
  induction cs generalizing p with
  | nil => rfl
  | cons c cs ih => exact ih (p.extended c)

theorem Lawful.entries (lawful : p.Lawful) : p.entries = Slotted.ofList 1 p.constants := by
  conv => lhs; rw [lawful.made]
  exact entries_foldl Pool.empty p.constants

theorem Lawful.get_eq_ok_iff (lawful : p.Lawful) :
    p.get i = .ok c ↔ (i.toNat, c) ∈ slotted 1 p.constants := by
  rw [mem_slotted_iff_slotOf, ← Slotted.at?_ofList (solid_constants p.constants), ← lawful.entries,
    get]
  cases p.entries.at? i.toNat <;> simp

theorem Follows.get (follows : p.Follows q) (lawful : p.Lawful) (found : p.get i = .ok c) :
    q.get i = .ok c := by
  rw [lawful.get_eq_ok_iff] at found
  obtain ⟨cs, same⟩ := follows.keeps
  rw [follows.lawful.get_eq_ok_iff, ← same, slotted_append]
  exact List.mem_append_left _ found

theorem index_foldl (p : Pool) (cs : List Constant) : (cs.foldl extended p).index[c]? =
    p.index[c]?.or (((slotted p.entries.next cs).find? (·.2 == c)).map (·.1.toUInt16)) := by
  induction cs generalizing p with
  | nil => rw [List.foldl_nil, slotted, List.find?_nil, Option.map_none, Option.or_none]
  | cons d cs ih =>
    have first : (p.extended d).index[c]? =
        if d == c ∧ ¬ d ∈ p.index then some p.entries.next.toUInt16 else p.index[c]? :=
      Std.HashMap.getElem?_insertIfNew
    rw [List.foldl_cons, ih, first, next_extended, slotted, List.find?_cons]
    by_cases same : d = c
    · subst same
      cases there : p.index[d]? with
      | some i =>
        have listed : d ∈ p.index := by
          rw [Std.HashMap.mem_iff_isSome_getElem?, there]
          rfl
        simp [listed]
      | none =>
        have unlisted : ¬ d ∈ p.index := by
          rw [Std.HashMap.mem_iff_isSome_getElem?, there]
          exact Bool.false_ne_true
        simp [unlisted]
    · have different : (d == c) = false := beq_false_of_ne same
      simp [different]

theorem Lawful.index (lawful : p.Lawful) : p.index[c]? =
    ((slotted 1 p.constants).find? (·.2 == c)).map (·.1.toUInt16) := by
  have fresh : empty.index[c]? = none := Std.HashMap.getElem?_empty
  conv => lhs; rw [lawful.made]
  rw [ofConstants, index_foldl, fresh, Option.none_or]
  rfl

theorem Lawful.slotOf_lt (lawful : p.Lawful) {k : Nat} (here : p.constants[k]? = some c) :
    Slotted.slotOf 1 p.constants k < p.entries.next := by
  rw [lawful.entries, ← Slotted.slotOf_length]
  exact Slotted.slotOf_lt (solid_constants p.constants) here (List.getElem?_eq_some_iff.mp here).1

theorem Lawful.get_of_index (lawful : p.Lawful) (found : p.index[c]? = some i) :
    p.get i = .ok c := by
  rw [lawful.index] at found
  obtain ⟨⟨n, d⟩, first, rfl⟩ := Option.map_eq_some_iff.mp found
  have same : d = c := by simpa using List.find?_some first
  have member := List.mem_of_find?_eq_some first
  obtain ⟨k, here, rfl⟩ := mem_slotted_iff_slotOf.mp member
  have index := UInt16.toNat_ofNat_of_lt' (Nat.lt_trans (lawful.slotOf_lt here) lawful.next)
  subst same
  rw [lawful.get_eq_ok_iff, index]
  exact member

theorem Lawful.index_of_add (lawful : p.Lawful) (added : add c p = .ok i q) :
    q.index[c]? = some i := by
  obtain ⟨e, failed⟩ | ⟨j, found, there⟩ | ⟨none, _, made⟩ := lawful.add_eq c
  · rw [failed] at added
    cases added
  · rw [there] at added
    cases added
    exact found
  · rw [made] at added
    cases added
    have unlisted : ¬ c ∈ p.index := by
      rw [Std.HashMap.mem_iff_isSome_getElem?, none]
      exact Bool.false_ne_true
    refine (Std.HashMap.getElem?_insertIfNew (k := c)).trans ?_
    simp [unlisted]

theorem Adds.follows {step : Adding α} {a : α} (adds : Adds step) (lawful : p.Lawful)
    (ran : step p = .ok a q) : p.Follows q := by
  have follows := adds p lawful
  unfold left at follows
  rwa [ran] at follows

theorem Lawful.get_of_add (lawful : p.Lawful) (added : add c p = .ok i q) : q.get i = .ok c :=
  ((adds_add c).follows lawful added).lawful.get_of_index (lawful.index_of_add added)

theorem Follows.index (follows : p.Follows q) (lawful : p.Lawful) (found : p.index[c]? = some i) :
    q.index[c]? = some i := by
  rw [lawful.index, Option.map_eq_some_iff] at found
  obtain ⟨entry, first, start⟩ := found
  obtain ⟨cs, same⟩ := follows.keeps
  rw [follows.lawful.index, ← same, slotted_append, List.find?_append, first]
  exact congrArg some start

theorem checkLength_of_add (added : add c p = .ok i q) : c.checkLength = .ok () := by
  unfold add at added
  cases short : c.checkLength with
  | error e =>
    rw [short] at added
    cases added
  | ok _ => rfl

/-- A constant that is there is not added again. -/
theorem add_of_index (short : c.checkLength = .ok ()) (found : p.index[c]? = some i) :
    add c p = .ok i p := by
  unfold add
  rw [short, found]

theorem lawful_ofConstants (room : (ofConstants cs).entries.next < 65536) :
    (ofConstants cs).Lawful :=
  ⟨congrArg ofConstants (constants_ofConstants cs).symm, room⟩

theorem add_ofConstants (short : c.checkLength = .ok ()) (new : c ∉ cs)
    (room : (ofConstants cs).entries.next + width c < 65536) :
    add c (ofConstants cs) =
      .ok (ofConstants cs).entries.next.toUInt16 (ofConstants (cs ++ [c])) := by
  have lawful := lawful_ofConstants (Nat.lt_of_le_of_lt (Nat.le_add_right _ _) room)
  have none : (ofConstants cs).index[c]? = none := by
    rw [lawful.index, constants_ofConstants, Option.map_eq_none_iff, List.find?_eq_none]
    rintro ⟨n, d⟩ member same
    exact new (eq_of_beq same ▸ (mem_slotted_iff 1).mp ⟨n, member⟩)
  have made : ofConstants (cs ++ [c]) = (ofConstants cs).extended c := List.foldl_append
  unfold add
  rw [short, none, made]
  dsimp only
  rw [lawful.push_eq, if_pos room]

theorem built_ofConstants (apart : cs.Nodup) (short : ∀ c ∈ cs, c.checkLength = .ok ())
    (room : (ofConstants cs).entries.next < 65536) : (ofConstants cs).Built := by
  induction cs using List.reverseRecOn with
  | nil => exact .empty
  | append_singleton cs c ih =>
    obtain ⟨apart, _, others⟩ := List.nodup_append.mp apart
    have made : ofConstants (cs ++ [c]) = (ofConstants cs).extended c := List.foldl_append
    rw [made, next_extended] at room
    have built := ih apart (fun d member => short d (List.mem_append_left _ member))
      (Nat.lt_of_le_of_lt (Nat.le_add_right _ _) room)
    have added : (Addition.constant c).run (ofConstants cs) = ofConstants (cs ++ [c]) := by
      change left (add c) (ofConstants cs) = _
      unfold left
      rw [add_ofConstants (short c (List.mem_append_right _ List.mem_cons_self))
        (fun listed => others c listed c List.mem_cons_self rfl) room]
    rw [← added]
    exact .added (.constant c) built

end JvmClass.Pool
