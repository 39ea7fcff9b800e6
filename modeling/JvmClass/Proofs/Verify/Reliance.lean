import JvmClass.Proofs.Attribute.Finding
import JvmClass.Proofs.Pool.Indices
import JvmClass.Proofs.Verify.Members
import JvmClass.Proofs.Verify.References
import Mathlib.Data.List.Nodup

/-! What a class that keeps its rules can be relied on for.  Every constant leads to what it needs, and
every method is the one that is found under its name and descriptor. -/

namespace JvmClass.ClassFile

variable {c : ClassFile} {p : Pool}

def Signed (p : Pool) (m : Method) (signature : String × String) : Prop :=
  m.nameIn p = .ok signature.1 ∧ m.descriptorIn p = .ok signature.2

section Signatures

variable {ms : List Method} {signatures : List (String × String)} {name descriptor : String} {k : Nat}

/-- Of methods with different signatures each one is found under its own. -/
theorem methodIndexFrom?_eq (signed : List.Forall₂ (Signed p) ms signatures)
    (distinct : signatures.Nodup) (here : signatures[k]? = some (name, descriptor)) :
    methodIndexFrom? p name descriptor ms = .ok (some k) := by
  induction signed generalizing k with
  | nil => simp at here
  | @cons m s ms signatures first _ ih =>
    obtain ⟨single, distinct⟩ := List.nodup_cons.mp distinct
    obtain ⟨named, described⟩ := first
    rw [methodIndexFrom?, named]
    cases k with
    | zero =>
      cases here
      simp [described, bind, Except.bind, pure, Except.pure]
    | succ k =>
      have later := ih distinct here
      have different : s.1 = name → s.2 ≠ descriptor := by
        rintro rfl rfl
        exact single (List.mem_of_getElem? here)
      by_cases same : s.1 = name
      · simp [same, described, different same, later, bind, Except.bind, pure, Except.pure]
      · simp [same, later, bind, Except.bind, pure, Except.pure]

end Signatures

theorem isCoded_iff {m : Method} {position : Nat} {name descriptor : String}
    (rule : checkHasCode c position m name descriptor = .ok ()) :
    (∃ a ∈ m.attributes, a.title c.pool = .ok (AttributeKind.title Code)) ↔
      m.flags.has AccessFlags.abstractBit = false ∧ m.flags.has AccessFlags.nativeBit = false := by
  obtain ⟨code?, found, rule⟩ := bind_eq_ok rule
  obtain ⟨wanted, rule⟩ := ite_throw_bind_eq_ok_iff.mp rule
  have present : ¬ (code?.isNone &&
      !(m.flags.has AccessFlags.abstractBit || m.flags.has AccessFlags.nativeBit)) = true := by
    intro missing
    rw [if_pos missing] at rule
    cases rule
  rw [← Attribute.isSome_of_find? (ok_of_resolved found), ← Bool.or_eq_false_iff]
  cases code? <;> simp_all

/-- A method that is declared can be relied on, and it is found. -/
structure Reliable (c : ClassFile) (position : Nat) (m : Method) (name descriptor : String)
    (type : MethodType) : Prop where
  signed : Signed c.pool m (name, descriptor)
  parsed : MethodType.parse descriptor = .ok type
  slots : type.parameterSlots (!m.flags.has AccessFlags.staticBit) ≤ 255
  coded : (∃ a ∈ m.attributes, a.title c.pool = .ok "Code") ↔
    m.flags.has AccessFlags.abstractBit = false ∧ m.flags.has AccessFlags.nativeBit = false
  found : c.methodIndex? name descriptor = .ok (some position)

/-- A class that keeps its rules has nothing that leads nowhere, and no two methods that could be
taken for each other. -/
theorem references_of_checkRules (built : c.pool.Built) (rules : c.checkRules = .ok ()) :
    (∀ i d, (i, d) ∈ c.pool.toList → c.pool.get i = .ok d ∧ Refers c.pool i d) ∧
      (c.methods.map fun m => (m.nameIn c.pool, m.descriptorIn c.pool)).Nodup ∧
      ∀ k m, c.methods[k]? = some m → ∃ name descriptor type, Reliable c k m name descriptor type := by
  obtain ⟨_, pool, rules⟩ := bind_eq_ok rules
  obtain ⟨_, _, rules⟩ := bind_eq_ok rules
  obtain ⟨_, _, methods⟩ := bind_eq_ok rules
  obtain ⟨signatures, each, distinct⟩ := checkMethods_eq_ok_iff.mp methods
  have signed : List.Forall₂ (Signed c.pool) c.methods signatures := by
    have kept : List.Forall₂ (fun m s => Signed c.pool m.1 s) c.methods.zipIdx signatures :=
      each.imp fun _ _ ⟨_, keeps⟩ => ⟨keeps.named, keeps.described⟩
    rwa [← List.forall₂_map_left_iff (f := Prod.fst), List.zipIdx_map_fst] at kept
  refine ⟨fun i d listed => ?_, ?_, fun k m here => ?_⟩
  · have here := (Pool.lawful_of_built built).mem_toList_iff.mp listed
    exact ⟨here, refers_of_get pool here⟩
  · have same : c.methods.map (fun m => (m.nameIn c.pool, m.descriptorIn c.pool)) =
        signatures.map fun s => (.ok s.1, .ok s.2) :=
      map_eq_map_of_forall₂ (signed.imp fun _ _ ⟨named, described⟩ => Prod.ext named described)
    rw [same]
    refine List.Nodup.map (fun s t equal => ?_) distinct
    simp only [Prod.mk.injEq, Except.ok.injEq] at equal
    exact Prod.ext equal.1 equal.2
  · obtain ⟨⟨name, descriptor⟩, here', _⟩ := getElem?_of_forall₂ signed here
    have listed : c.methods.zipIdx[k]? = some (m, k) := by simp [here]
    obtain ⟨_, here'', type, keeps⟩ := getElem?_of_forall₂ each listed
    cases here'.symm.trans here''
    exact ⟨name, descriptor, type, ⟨keeps.named, keeps.described⟩, keeps.parsed, keeps.slots,
      isCoded_iff keeps.coded, methodIndexFrom?_eq signed distinct here'⟩

/-- An abstract class with constants of all kinds that refer to others, and with two methods of one name,
only the first of which has code. -/
def linked : ClassFile where
  version := ⟨55, 0⟩
  pool := .ofConstants [.utf8 "a/Foo", .classInfo 1, .utf8 "f", .utf8 "()V", .utf8 "(I)V",
    .utf8 "<init>", .utf8 "I", .utf8 "Code", .long 5, .nameAndType 6 4, .nameAndType 3 7,
    .nameAndType 3 5, .methodRef 2 11 false, .fieldRef 2 12, .methodHandle .newInvokeSpecial 14,
    .methodHandle .putStatic 15, .methodType 5, .dynamic 0 12, .invokeDynamic 0 13, .string 1,
    .moduleInfo 1, .packageInfo 1, .utf8 "[[I", .classInfo 24]
  flags := ⟨0x0421⟩
  thisClass := 2
  superClass := some 2
  interfaces := []
  fields := []
  methods := [⟨⟨0x0001⟩, 3, 4, [⟨8, []⟩]⟩, ⟨⟨0x0401⟩, 3, 5, [⟨7, []⟩]⟩]
  attributes := []

theorem built_linked : linked.pool.Built :=
  Pool.built_ofConstants (by decide) (by decide +kernel) (by decide)

theorem checkRules_linked : linked.checkRules = .ok () := by
  have coded : MethodRules linked 0 ⟨⟨0x0001⟩, 3, 4, [⟨8, []⟩]⟩ "f" "()V" ⟨[], none⟩ :=
    by decide +kernel
  have abstract' : MethodRules linked 1 ⟨⟨0x0401⟩, 3, 5, [⟨7, []⟩]⟩ "f" "(I)V"
      ⟨[.base .int], none⟩ :=
    by decide +kernel
  have pool : checkPool linked.pool = .ok () := by decide +kernel
  have header : checkHeader linked = .ok () := by decide +kernel
  have methods : checkMethods linked = .ok () :=
    checkMethods_eq_ok_iff.mpr ⟨[("f", "()V"), ("f", "(I)V")],
      .cons ⟨_, coded⟩ (.cons ⟨_, abstract'⟩ .nil), by decide⟩
  unfold checkRules
  rw [pool, header, methods]
  rfl

theorem references_of_checkRules_linked : linked.pool.Built ∧ linked.checkRules = .ok () ∧
    (∀ i d, (i, d) ∈ linked.pool.toList → linked.pool.get i = .ok d ∧ Refers linked.pool i d) ∧
      (linked.methods.map fun m => (m.nameIn linked.pool, m.descriptorIn linked.pool)).Nodup ∧
      ∀ k m, linked.methods[k]? = some m →
        ∃ name descriptor type, Reliable linked k m name descriptor type :=
  ⟨built_linked, checkRules_linked, references_of_checkRules built_linked checkRules_linked⟩

end JvmClass.ClassFile
