import JvmClass.Name
import JvmClass.Proofs.Results

/-! The form of names.  A binary name is the list of its segments with slashes between them, and it is
accepted just when there is a segment and each one is an unqualified name. -/

namespace JvmClass.Name

variable {cs s : List Char} {name : String} {x : Char}

theorem internalForm_of_dotless (dotless : '.' ∉ name.toList) : internalForm name = name := by
  have same : name.toList.map (fun c => if c = '.' then '/' else c) = name.toList := by
    refine (List.map_congr_left fun c member => if_neg ?_).trans (List.map_id _)
    exact fun dot => dotless (dot ▸ member)
  rw [internalForm, same, String.ofList_toList]

theorem segments_of_slashless (slashless : '/' ∉ cs) : segments cs = [cs] := by
  induction cs with
  | nil => rfl
  | cons c cs ih =>
    obtain ⟨other, rest⟩ := List.ne_and_not_mem_of_not_mem_cons slashless
    rw [segments, if_neg other.symm, ih rest]

theorem segments_append {rest : List Char} (slashless : '/' ∉ s) :
    segments (s ++ '/' :: rest) = s :: segments rest := by
  induction s with
  | nil => rw [List.nil_append, segments, if_pos rfl]
  | cons c s ih =>
    obtain ⟨other, later⟩ := List.ne_and_not_mem_of_not_mem_cons slashless
    rw [List.cons_append, segments, if_neg other.symm, ih later]

theorem segments_intercalate {parts : List (List Char)} (some : parts ≠ [])
    (slashless : ∀ s ∈ parts, '/' ∉ s) : segments (['/'].intercalate parts) = parts := by
  induction parts with
  | nil => exact absurd rfl some
  | cons s parts ih =>
    obtain ⟨here, others⟩ := List.forall_mem_cons.mp slashless
    cases parts with
    | nil => simpa using segments_of_slashless here
    | cons t parts =>
      rw [List.intercalate_cons_cons, List.append_assoc, List.singleton_append,
        segments_append here, ih (List.cons_ne_nil _ _) others]

theorem segments_ne_nil (cs : List Char) : segments cs ≠ [] := by
  cases cs with
  | nil => exact List.cons_ne_nil _ _
  | cons c cs =>
    rw [segments]
    split
    · exact List.cons_ne_nil _ _
    · split <;> exact List.cons_ne_nil _ _

theorem intercalate_segments (cs : List Char) : ['/'].intercalate (segments cs) = cs := by
  induction cs with
  | nil => rfl
  | cons c cs ih =>
    rw [segments]
    cases pieces : segments cs with
    | nil => exact absurd pieces (segments_ne_nil cs)
    | cons t ts =>
      rw [pieces] at ih
      by_cases slash : c = '/'
      · rw [if_pos slash, List.intercalate_cons_cons, ih, slash]
        rfl
      · rw [if_neg slash]
        cases ts with
        | nil => simpa using ih
        | cons u ts => simpa [List.intercalate_cons_cons] using ih

theorem exists_segment (member : x ∈ cs) (other : x ≠ '/') : ∃ s ∈ segments cs, x ∈ s := by
  induction cs with
  | nil => cases member
  | cons c cs ih =>
    rw [segments]
    by_cases slash : c = '/'
    · rw [if_pos slash]
      obtain rfl | later := List.mem_cons.mp member
      · exact absurd slash other
      · obtain ⟨s, listed, inside⟩ := ih later
        exact ⟨s, List.mem_cons_of_mem _ listed, inside⟩
    · rw [if_neg slash]
      cases pieces : segments cs with
      | nil => exact absurd pieces (segments_ne_nil cs)
      | cons t ts =>
        obtain rfl | later := List.mem_cons.mp member
        · exact ⟨_, List.mem_cons_self, List.mem_cons_self⟩
        · obtain ⟨s, listed, inside⟩ := ih later
          rw [pieces] at listed
          obtain rfl | listed := List.mem_cons.mp listed
          · exact ⟨_, List.mem_cons_self, List.mem_cons_of_mem _ inside⟩
          · exact ⟨s, List.mem_cons_of_mem _ listed, inside⟩

theorem mem_of_mem_segments (member : s ∈ segments cs) (inside : x ∈ s) : x ∈ cs ∧ x ≠ '/' := by
  induction cs generalizing s with
  | nil =>
    rw [List.mem_singleton.mp member] at inside
    cases inside
  | cons c cs ih =>
    rw [segments] at member
    split at member
    · obtain rfl | member := List.mem_cons.mp member
      · cases inside
      · exact (ih member inside).imp_left (List.mem_cons_of_mem _)
    · rename_i other
      cases pieces : segments cs with
      | nil => exact absurd pieces (segments_ne_nil cs)
      | cons t ts =>
        rw [pieces] at member ih
        obtain rfl | member := List.mem_cons.mp member
        · obtain rfl | inside := List.mem_cons.mp inside
          · exact ⟨List.mem_cons_self, other⟩
          · exact (ih List.mem_cons_self inside).imp_left (List.mem_cons_of_mem _)
        · exact (ih (List.mem_cons_of_mem _ member) inside).imp_left (List.mem_cons_of_mem _)

/-- A name that is not empty and has no separator in it. -/
def IsUnqualified (name : String) : Prop :=
  name ≠ "" ∧ ∀ c ∈ name.toList, c ∉ ['.', ';', '[', '/']

def IsBinary (name : String) : Prop :=
  ∃ parts : List String, parts ≠ [] ∧ (∀ s ∈ parts, IsUnqualified s) ∧ name = "/".intercalate parts

theorem isSeparator_iff : isSeparator x = true ↔ x ∈ ['.', ';', '[', '/'] := by
  simp [isSeparator, or_assoc]

theorem checkUnqualified_eq_ok_iff : checkUnqualified name = .ok () ↔ IsUnqualified name := by
  unfold checkUnqualified IsUnqualified
  simp only [← isSeparator_iff, Bool.not_eq_true, List.isEmpty_iff, String.toList_eq_nil_iff]
  by_cases separated : name.toList.any isSeparator
  · obtain ⟨c, member, separates⟩ := List.any_eq_true.mp separated
    rw [if_pos separated]
    refine iff_of_false nofun fun whole => ?_
    rw [whole.2 c member] at separates
    cases separates
  · rw [if_neg separated]
    have free : ∀ c ∈ name.toList, isSeparator c = false := by simpa using separated
    by_cases blank : name = ""
    · rw [if_pos blank]
      exact iff_of_false nofun fun whole => whole.1 blank
    · rw [if_neg blank]
      exact iff_of_true rfl ⟨blank, free⟩

/-- One of the two special names, or an unqualified name without angle brackets. -/
def IsMethod (name : String) : Prop :=
  name = constructorName ∨ name = classInitializerName ∨
    IsUnqualified name ∧ '<' ∉ name.toList ∧ '>' ∉ name.toList

theorem checkMethod_eq_ok_iff : checkMethod name = .ok () ↔ IsMethod name := by
  unfold checkMethod IsMethod
  by_cases special : name = constructorName ∨ name = classInitializerName
  · rw [if_pos special]
    exact iff_of_true rfl (or_assoc.mp (.inl special))
  · have bracketed : (name.toList.any fun c => c == '<' || c == '>') = true ↔
        '<' ∈ name.toList ∨ '>' ∈ name.toList := by
      simp [and_or_left, exists_or]
    rw [if_neg special, ← or_assoc, or_iff_right special, bind_eq_ok_iff, ← not_or, ← bracketed,
      ← checkUnqualified_eq_ok_iff]
    constructor
    · rintro ⟨_, plain, free⟩
      refine ⟨plain, fun bracket => ?_⟩
      rw [if_pos bracket] at free
      cases free
    · rintro ⟨plain, free⟩
      exact ⟨(), plain, if_neg free⟩

theorem checkSegments_eq_ok_iff {ss : List (List Char)} :
    checkSegments ss = .ok () ↔ ∀ s ∈ ss, IsUnqualified (String.ofList s) := by
  induction ss with
  | nil => simp [checkSegments]
  | cons s ss ih =>
    rw [checkSegments, bind_eq_ok_iff, List.forall_mem_cons, ← ih, ← checkUnqualified_eq_ok_iff]
    exact ⟨fun ⟨(), first, others⟩ => ⟨first, others⟩, fun ⟨first, others⟩ => ⟨(), first, others⟩⟩

theorem IsUnqualified.slashless (whole : IsUnqualified name) : '/' ∉ name.toList :=
  fun member => whole.2 '/' member (by decide)

theorem isBinary_iff :
    IsBinary name ↔ ∀ s ∈ segments name.toList, IsUnqualified (String.ofList s) := by
  constructor
  · rintro ⟨parts, some, whole, rfl⟩
    have parted : segments ("/".intercalate parts).toList = parts.map String.toList := by
      rw [String.toList_intercalate]
      refine segments_intercalate (by simpa using some) ?_
      simpa using fun s member => (whole s member).slashless
    rw [parted]
    simpa using whole
  · intro whole
    refine ⟨(segments name.toList).map String.ofList, ?_, ?_, ?_⟩
    · simpa using segments_ne_nil name.toList
    · simpa using whole
    · apply String.toList_inj.mp
      have same : String.toList ∘ String.ofList = id := funext fun s => String.toList_ofList
      rw [String.toList_intercalate, List.map_map, same, List.map_id]
      exact (intercalate_segments name.toList).symm

theorem checkBinary_eq_ok_iff : checkBinary name = .ok () ↔ IsBinary name := by
  rw [isBinary_iff]
  unfold checkBinary
  split
  · rename_i blank
    have single : segments name.toList = [[]] := by rw [List.isEmpty_iff.mp blank]; rfl
    refine iff_of_false nofun fun whole => ?_
    exact (whole [] (by simp [single])).1 rfl
  · rw [mapError_eq_ok_iff, checkSegments_eq_ok_iff]

theorem IsBinary.not_mem (binary : IsBinary name) (separates : x ∈ ['.', ';', '[', '/'])
    (other : x ≠ '/') : x ∉ name.toList := by
  intro member
  obtain ⟨s, listed, inside⟩ := exists_segment member other
  refine (isBinary_iff.mp binary s listed).2 x ?_ separates
  rwa [String.toList_ofList]

end JvmClass.Name
