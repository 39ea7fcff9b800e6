import JvmClass.Proofs.Code.Placement

/-! When lifting comes to a halt.  It gets through a table up to the first entry of which nothing
can be made, and what is made of an entry can always be added.  Only an entry of the exception
table can bring it to a halt: a variable is in scope over a length, which is never negative. -/

namespace JvmClass.Body

open Listing (Starts)

variable {b c : Body} {l : Listing} {s : Starts} {p : Pool} {code : Code} {id : Nat} {halt : Halt}

section Tables

variable {α β : Type} {make : α → Except LiftFailure β} {wrap : β → Entry}
  {step : Body → α → Except LiftFailure Body} {f : LiftFailure} (xs : List α)

variable (tables : Tables step make wrap) (coherent : b.Coherent) (same : l.Reindexed b.listing)
  (fits : ∀ x y, make x = .ok y → (wrap y).Fits l)
include tables coherent same fits

theorem Tables.exists_run_iff :
    (∃ c, xs.foldlM step b = .ok c) ↔ ∀ x ∈ xs, ∃ y, make x = .ok y := by
  constructor
  · rintro ⟨c, done⟩ x member
    obtain ⟨ys, made, _⟩ := tables.gains coherent done
    obtain ⟨y, _, found⟩ := exists_right_of_forall₂ made member
    exact ⟨y, found⟩
  · intro each
    obtain ⟨ys, made⟩ := exists_mapM each
    have made := mapM_eq_ok_iff.mp made
    obtain ⟨c, done, _⟩ := tables.run coherent made fun y member => by
      obtain ⟨x, _, found⟩ := exists_left_of_forall₂ made member
      exact (fits x y found).reindex same
    exact ⟨c, done⟩

theorem Tables.eq_error_iff :
    xs.foldlM step b = .error f ↔ ∃ before x after, xs = before ++ x :: after ∧
      (∀ z ∈ before, ∃ y, make z = .ok y) ∧ make x = .error f := by
  rw [foldlM_eq_error_iff]
  constructor
  · rintro ⟨before, x, after, c, split, ran, failed⟩
    obtain ⟨ys, _, gains⟩ := tables.gains coherent ran
    refine ⟨before, x, after, split,
      (tables.exists_run_iff before coherent same fits).mp ⟨c, ran⟩, ?_⟩
    rw [tables] at failed
    obtain failed | ⟨y, made, failed⟩ := bind_eq_error_iff.mp failed
    · exact failed
    · have fitting := (fits x y made).reindex (same.trans gains.listing)
      rw [edited_add_eq_ok_iff.mpr ⟨fitting, rfl⟩] at failed
      cases failed
  · rintro ⟨before, x, after, split, each, failed⟩
    obtain ⟨c, ran⟩ := (tables.exists_run_iff before coherent same fits).mpr each
    refine ⟨before, x, after, c, split, ran, ?_⟩
    rw [tables, failed]
    rfl

end Tables

section Attributes

variable (reads : l.Reads s)
include reads

theorem liftAttribute_ne_halt (coherent : b.Coherent) (same : l.Reindexed b.listing)
    (a : Attribute) : liftAttribute p s b a ≠ .error (.halt halt) := by
  have known {α : Type} {x : Except Error α} : x.mapError LiftFailure.error ≠ .error (.halt halt) := by
    cases x <;> exact nofun
  intro failed
  obtain failed | ⟨title, _, failed⟩ := bind_eq_error_iff.mp failed
  · cases named : a.title p with
    | error e => rw [named] at failed; cases failed
    | ok t => rw [named] at failed; cases failed
  split at failed
  · obtain failed | ⟨table, _, failed⟩ := bind_eq_error_iff.mp failed
    · exact known failed
    · obtain ⟨_, n, _, _, _, made⟩ := ((tables_liftLine s).eq_error_iff _ coherent same
        fun n x => fits_lineOf reads).mp failed
      exact lineOf_ne_halt made
  split at failed
  · obtain failed | ⟨table, _, failed⟩ := bind_eq_error_iff.mp failed
    · exact known failed
    · obtain ⟨_, v, _, _, _, made⟩ := ((tables_liftVariable s).eq_error_iff _ coherent same
        fun v x => fits_scopeOf reads).mp failed
      exact scopeOf_ne_halt made
  split at failed <;> cases failed

theorem liftAttributes_ne_halt (coherent : b.Coherent) (same : l.Reindexed b.listing)
    (attributes : List Attribute) :
    attributes.foldlM (liftAttribute p s) b ≠ .error (.halt halt) := by
  intro failed
  obtain ⟨before, a, after, c, _, ran, failed⟩ := foldlM_eq_error_iff.mp failed
  obtain ⟨_, _, gains⟩ := gains_liftAttributes coherent ran
  exact liftAttribute_ne_halt reads gains.coherent (same.trans gains.listing) a failed

end Attributes

/-- The first entry of the exception table that is not placed in order is reversed. -/
def HaltsAt (s : Starts) (code : Code) (e : ExceptionEntry) : Prop :=
  ∃ before after, code.handlers = before ++ e :: after ∧ (∀ d ∈ before, Placed s d) ∧ Reversed s e

theorem lift_eq_halt_iff : lift id p code = .error (.halt halt) ↔
    ∃ l s, Listing.decode id code.bytes = .ok (l, s) ∧
      ∃ e, HaltsAt s code e ∧ halt = ⟨e.start.toNat, e.stop.toNat⟩ := by
  unfold lift
  cases decoded : Listing.decode id code.bytes with
  | error e =>
    refine iff_of_false (fun same => by cases same) ?_
    rintro ⟨l, s, same, _⟩
    cases same
  | ok ls =>
    obtain ⟨l, s⟩ := ls
    have reads := Listing.reads_of_decode decoded
    have coherent := coherent_opened code.maxStack code.maxLocals decoded
    have table := (tables_liftHandler s).eq_error_iff (f := .halt halt) code.handlers coherent (.refl l)
      fun e r => fits_rangeOf reads
    change (code.handlers.foldlM (liftHandler s) (opened id code.maxStack code.maxLocals l) >>=
      fun b => code.attributes.foldlM (liftAttribute p s) b) = _ ↔ _
    rw [bind_eq_error_iff, table]
    simp only [exists_rangeOf_iff reads, rangeOf_eq_halt_iff]
    constructor
    · rintro (⟨before, e, after, split, placed, reversed, rfl⟩ | ⟨c, ran, failed⟩)
      · exact ⟨l, s, rfl, e, ⟨before, after, split, placed, reversed⟩, rfl⟩
      · obtain ⟨rs, _, gains⟩ := (tables_liftHandler s).gains coherent ran
        exact absurd failed (liftAttributes_ne_halt reads gains.coherent gains.listing _)
    · rintro ⟨_, _, same, e, ⟨before, after, split, placed, reversed⟩, rfl⟩
      cases same
      exact .inl ⟨before, e, after, split, placed, reversed, rfl⟩

end JvmClass.Body
