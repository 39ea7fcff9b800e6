import JvmClass.Attribute.Basic
import JvmClass.Proofs.Results

/-! Looking for an attribute by its name.  A search passes by the attributes with other names up to the
first one with the name that is looked for, and comes to the end if there is none. -/

namespace JvmClass.Attribute

variable {p : Pool} {title : String} {a : Attribute} {as : List Attribute}

def Differs (p : Pool) (title : String) (a : Attribute) : Prop :=
  ∃ other, a.title p = .ok other ∧ other ≠ title

theorem find?_cons_of_title (named : a.title p = .ok title) :
    find? p title (a :: as) = .ok (some a) := by
  rw [find?, named]
  exact if_pos rfl

theorem find?_cons_of_differs (differs : a.Differs p title) :
    find? p title (a :: as) = find? p title as := by
  obtain ⟨other, named, different⟩ := differs
  rw [find?, named]
  exact if_neg different

theorem find?_cons_of_error {e : PoolFault} (unnamed : a.title p = .error e) :
    find? p title (a :: as) = .error e := by
  rw [find?, unnamed]
  rfl

theorem title_cases (p : Pool) (title : String) (a : Attribute) :
    a.title p = .ok title ∨ a.Differs p title ∨ ∃ e, a.title p = .error e := by
  cases named : a.title p with
  | error e => exact .inr (.inr ⟨e, rfl⟩)
  | ok other =>
    by_cases same : other = title
    · exact .inl (congrArg _ same)
    · exact .inr (.inl ⟨other, named, same⟩)

theorem Differs.title_ne (differs : a.Differs p title) : a.title p ≠ .ok title := by
  obtain ⟨other, named, different⟩ := differs
  rw [named]
  exact fun same => different (Except.ok.inj same)

theorem find?_eq_none_iff : find? p title as = .ok none ↔ ∀ a ∈ as, a.Differs p title := by
  induction as with
  | nil => exact iff_of_true rfl (List.forall_mem_nil _)
  | cons a as ih =>
    rw [List.forall_mem_cons]
    obtain named | differs | ⟨e, unnamed⟩ := title_cases p title a
    · rw [find?_cons_of_title named]
      exact iff_of_false nofun fun both => both.1.title_ne named
    · rw [find?_cons_of_differs differs, ih]
      exact (and_iff_right differs).symm
    · rw [find?_cons_of_error unnamed]
      refine iff_of_false nofun fun both => ?_
      obtain ⟨other, named, _⟩ := both.1
      cases unnamed.symm.trans named

theorem of_find?_eq_some (found : find? p title as = .ok (some a)) : ∃ before after,
    as = before ++ a :: after ∧ (∀ b ∈ before, b.Differs p title) ∧ a.title p = .ok title := by
  induction as with
  | nil => cases found
  | cons b as ih =>
    obtain named | differs | ⟨e, unnamed⟩ := title_cases p title b
    · rw [find?_cons_of_title named] at found
      cases found
      exact ⟨[], as, rfl, List.forall_mem_nil _, named⟩
    · rw [find?_cons_of_differs differs] at found
      obtain ⟨before, after, rfl, others, named⟩ := ih found
      exact ⟨b :: before, after, rfl, List.forall_mem_cons.mpr ⟨differs, others⟩, named⟩
    · rw [find?_cons_of_error unnamed] at found
      cases found

theorem isSome_of_find? {a? : Option Attribute} (found : find? p title as = .ok a?) :
    a?.isSome ↔ ∃ a ∈ as, a.title p = .ok title := by
  cases a? with
  | none =>
    refine iff_of_false Bool.false_ne_true ?_
    rintro ⟨a, member, named⟩
    exact (find?_eq_none_iff.mp found a member).title_ne named
  | some a =>
    obtain ⟨before, after, rfl, _, named⟩ := of_find?_eq_some found
    exact iff_of_true rfl ⟨a, List.mem_append_right _ List.mem_cons_self, named⟩

end JvmClass.Attribute
