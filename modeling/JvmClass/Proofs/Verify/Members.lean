import JvmClass.Proofs.Results
import JvmClass.Verify.ClassRules
import JvmClass.Verify.CodeRules

/-! What the rules for the members of a class ask for: every field and every method keeps the rules
for itself, and no two fields and no two methods have one name and one descriptor. -/

namespace JvmClass.ClassFile

variable {c : ClassFile} {m : Method} {position : Nat} {seen seen' : Signatures}

section Declaring

variable {α : Type} {check : Signatures → α × Nat → Except ClassFault Signatures}
  {P : α × Nat → String × String → Prop}

theorem exists_foldlM_declares_iff
    (each : ∀ seen x seen', check seen x = .ok seen' ↔
      ∃ s, P x s ∧ s ∉ seen ∧ seen.insert s = seen') {declared : List (α × Nat)} :
    (∃ seen', declared.foldlM check seen = .ok seen') ↔
      ∃ signatures, List.Forall₂ P declared signatures ∧ signatures.Nodup ∧
        ∀ s ∈ signatures, s ∉ seen := by
  induction declared generalizing seen with
  | nil =>
    refine iff_of_true ⟨seen, rfl⟩ ⟨[], .nil, .nil, fun _ member => absurd member List.not_mem_nil⟩
  | cons x xs ih =>
    simp only [List.foldlM_cons, bind_eq_ok_iff, each]
    constructor
    · rintro ⟨seen', _, ⟨s, declares, unseen, rfl⟩, done⟩
      obtain ⟨ss, others, distinct, fresh⟩ := ih.mp ⟨seen', done⟩
      simp only [Std.HashSet.mem_insert, beq_iff_eq, not_or] at fresh
      refine ⟨s :: ss, .cons declares others, ?_, ?_⟩
      · exact List.nodup_cons.mpr ⟨fun member => (fresh s member).1 rfl, distinct⟩
      · exact List.forall_mem_cons.mpr ⟨unseen, fun t member => (fresh t member).2⟩
    · rintro ⟨_, pairs, distinct, fresh⟩
      cases pairs with
      | @cons _ s _ ss declares others =>
        obtain ⟨unseen, fresh⟩ := List.forall_mem_cons.mp fresh
        obtain ⟨single, distinct⟩ := List.nodup_cons.mp distinct
        have later : ∀ t ∈ ss, t ∉ seen.insert s := by
          intro t member there
          obtain same | there := Std.HashSet.mem_insert.mp there
          · obtain rfl := beq_iff_eq.mp same
            exact single member
          · exact fresh t member there
        obtain ⟨seen', done⟩ := ih.mpr ⟨ss, others, distinct, later⟩
        exact ⟨seen', _, ⟨s, declares, unseen, rfl⟩, done⟩

/-- Declarations that are checked one after the other pass just when each of them passes for itself,
and no two of them declare the same. -/
theorem foldlM_declares_iff (each : ∀ seen x seen', check seen x = .ok seen' ↔
      ∃ s, P x s ∧ s ∉ seen ∧ seen.insert s = seen') {declared : List α} :
    discard (declared.zipIdx.foldlM check ∅) = .ok () ↔
      ∃ signatures, List.Forall₂ P declared.zipIdx signatures ∧ signatures.Nodup := by
  have ends : discard (declared.zipIdx.foldlM check ∅) = .ok () ↔
      ∃ seen', declared.zipIdx.foldlM check ∅ = .ok seen' := by
    cases declared.zipIdx.foldlM check ∅ with
    | error e => exact iff_of_false nofun fun ⟨_, same⟩ => nomatch same
    | ok seen' => exact iff_of_true rfl ⟨seen', rfl⟩
  rw [ends, exists_foldlM_declares_iff each]
  simp

end Declaring

structure FieldRules (c : ClassFile) (f : Field) (name descriptor : String) (type : FieldType)
    (value? : Option ConstantValue) : Prop where
  named : f.nameIn c.pool = .ok name
  described : f.descriptorIn c.pool = .ok descriptor
  valid : Name.checkUnqualified name = .ok ()
  parsed : FieldType.parse descriptor = .ok type
  visible : f.flags.hasValidVisibility = true
  starts : Attribute.findValue? c.pool ConstantValue f.attributes = .ok value?
  fits : ∀ value ∈ value?, checkFieldValue c.pool name type value.constant = .ok ()

instance {f : Field} {name descriptor : String} {type : FieldType} {value? : Option ConstantValue} :
    Decidable (FieldRules c f name descriptor type value?) :=
  decidable_of_iff (f.nameIn c.pool = .ok name ∧ f.descriptorIn c.pool = .ok descriptor ∧
      Name.checkUnqualified name = .ok () ∧ FieldType.parse descriptor = .ok type ∧
      f.flags.hasValidVisibility = true ∧
      Attribute.findValue? c.pool ConstantValue f.attributes = .ok value? ∧
      ∀ value ∈ value?, checkFieldValue c.pool name type value.constant = .ok ())
    ⟨fun ⟨a, b, c, d, e, f, g⟩ => ⟨a, b, c, d, e, f, g⟩,
      fun ⟨a, b, c, d, e, f, g⟩ => ⟨a, b, c, d, e, f, g⟩⟩

def DeclaresField (c : ClassFile) (f : Field × Nat) (signature : String × String) : Prop :=
  ∃ type value?, FieldRules c f.1 signature.1 signature.2 type value?

theorem checkField_eq_ok_iff {f : Field} : checkField c seen position f = .ok seen' ↔
    ∃ signature, DeclaresField c (f, position) signature ∧ signature ∉ seen ∧
      seen.insert signature = seen' := by
  constructor
  · intro done
    obtain ⟨name, named, done⟩ := bind_eq_ok done
    obtain ⟨descriptor, described, done⟩ := bind_eq_ok done
    obtain ⟨_, valid, done⟩ := bind_eq_ok done
    obtain ⟨type, parsed, done⟩ := bind_eq_ok done
    obtain ⟨unseen, done⟩ := ite_throw_bind_eq_ok_iff.mp done
    obtain ⟨visible, done⟩ := ite_throw_bind_eq_ok_iff.mp done
    obtain ⟨value?, starts, done⟩ := bind_eq_ok done
    have fits : (∀ value ∈ value?, checkFieldValue c.pool name type value.constant = .ok ()) ∧
        seen.insert (name, descriptor) = seen' := by
      cases value? with
      | none => exact ⟨nofun, Except.ok.inj done⟩
      | some value =>
        obtain ⟨_, fits, done⟩ := bind_eq_ok done
        exact ⟨fun value' same => by cases same; exact fits, Except.ok.inj done⟩
    have rules : FieldRules c f name descriptor type value? :=
      ⟨mapError_eq_ok_iff.mp named, mapError_eq_ok_iff.mp described, mapError_eq_ok_iff.mp valid,
        mapError_eq_ok_iff.mp parsed, by simpa using visible, mapError_eq_ok_iff.mp starts, fits.1⟩
    exact ⟨(name, descriptor), ⟨type, value?, rules⟩, unseen, fits.2⟩
  · rintro ⟨⟨name, descriptor⟩, ⟨type, value?, rules⟩, unseen, rfl⟩
    refine bind_eq_ok_iff.mpr ⟨name, mapError_eq_ok_iff.mpr rules.named, ?_⟩
    refine bind_eq_ok_iff.mpr ⟨descriptor, mapError_eq_ok_iff.mpr rules.described, ?_⟩
    refine bind_eq_ok_iff.mpr ⟨(), mapError_eq_ok_iff.mpr rules.valid, ?_⟩
    refine bind_eq_ok_iff.mpr ⟨type, mapError_eq_ok_iff.mpr rules.parsed, ?_⟩
    refine ite_throw_bind_eq_ok_iff.mpr ⟨unseen, ?_⟩
    refine ite_throw_bind_eq_ok_iff.mpr ⟨by simpa using rules.visible, ?_⟩
    refine bind_eq_ok_iff.mpr ⟨value?, mapError_eq_ok_iff.mpr rules.starts, ?_⟩
    cases value? with
    | none => rfl
    | some value => exact bind_eq_ok_iff.mpr ⟨(), rules.fits value rfl, rfl⟩

theorem checkFields_eq_ok_iff : checkFields c = .ok () ↔
    ∃ signatures, List.Forall₂ (DeclaresField c) c.fields.zipIdx signatures ∧ signatures.Nodup := by
  unfold checkFields
  exact foldlM_declares_iff (P := DeclaresField c) fun seen x seen' => checkField_eq_ok_iff

theorem declaresField_of_checkRules {f : Field} (rules : c.checkRules = .ok ())
    (here : c.fields[position]? = some f) : ∃ signature, DeclaresField c (f, position) signature := by
  obtain ⟨_, _, rules⟩ := bind_eq_ok rules
  obtain ⟨_, _, rules⟩ := bind_eq_ok rules
  obtain ⟨_, fields, _⟩ := bind_eq_ok rules
  obtain ⟨signatures, each, _⟩ := checkFields_eq_ok_iff.mp fields
  have listed : (f, position) ∈ c.fields.zipIdx := List.mem_zipIdx_iff_getElem?.mpr here
  obtain ⟨signature, _, declares⟩ := exists_right_of_forall₂ each listed
  exact ⟨signature, declares⟩

theorem checkFields_of_field {f : Field} {name descriptor : String} {type : FieldType}
    {value? : Option ConstantValue} (only : c.fields = [f])
    (rules : FieldRules c f name descriptor type value?) : checkFields c = .ok () := by
  refine checkFields_eq_ok_iff.mpr ⟨[(name, descriptor)], ?_, by simp⟩
  rw [only]
  exact .cons ⟨type, value?, rules⟩ .nil

/-- The rules for a method by itself. -/
structure MethodRules (c : ClassFile) (position : Nat) (m : Method) (name descriptor : String)
    (type : MethodType) : Prop where
  named : m.nameIn c.pool = .ok name
  described : m.descriptorIn c.pool = .ok descriptor
  valid : Name.checkMethod name = .ok ()
  parsed : MethodType.parse descriptor = .ok type
  visible : m.flags.hasValidVisibility = true
  slots : type.parameterSlots (!m.flags.has AccessFlags.staticBit) ≤ maxParameterSlots
  constructs : name = Name.constructorName →
    checkConstructor c (m.flags.has AccessFlags.staticBit) descriptor type = .ok ()
  concrete : ¬ (m.flags.has AccessFlags.abstractBit ∧ m.flags.hasAny concreteBits)
  coded : checkHasCode c position m name descriptor = .ok ()

instance {name descriptor : String} {type : MethodType} :
    Decidable (MethodRules c position m name descriptor type) :=
  decidable_of_iff (m.nameIn c.pool = .ok name ∧ m.descriptorIn c.pool = .ok descriptor ∧
      Name.checkMethod name = .ok () ∧ MethodType.parse descriptor = .ok type ∧
      m.flags.hasValidVisibility = true ∧
      type.parameterSlots (!m.flags.has AccessFlags.staticBit) ≤ maxParameterSlots ∧
      (name = Name.constructorName →
        checkConstructor c (m.flags.has AccessFlags.staticBit) descriptor type = .ok ()) ∧
      ¬ (m.flags.has AccessFlags.abstractBit ∧ m.flags.hasAny concreteBits) ∧
      checkHasCode c position m name descriptor = .ok ())
    ⟨fun ⟨a, b, c, d, e, f, g, h, i⟩ => ⟨a, b, c, d, e, f, g, h, i⟩,
      fun ⟨a, b, c, d, e, f, g, h, i⟩ => ⟨a, b, c, d, e, f, g, h, i⟩⟩

def Declares (c : ClassFile) (m : Method × Nat) (signature : String × String) : Prop :=
  ∃ type, MethodRules c m.2 m.1 signature.1 signature.2 type

theorem checkMethod_eq_ok_iff : checkMethod c seen position m = .ok seen' ↔
    ∃ signature, Declares c (m, position) signature ∧ signature ∉ seen ∧
      seen.insert signature = seen' := by
  constructor
  · intro done
    obtain ⟨name, named, done⟩ := bind_eq_ok done
    obtain ⟨descriptor, described, done⟩ := bind_eq_ok done
    obtain ⟨_, valid, done⟩ := bind_eq_ok done
    obtain ⟨type, parsed, done⟩ := bind_eq_ok done
    obtain ⟨unseen, done⟩ := ite_throw_bind_eq_ok_iff.mp done
    obtain ⟨visible, done⟩ := ite_throw_bind_eq_ok_iff.mp done
    obtain ⟨slots, done⟩ := ite_throw_bind_eq_ok_iff.mp done
    obtain ⟨constructs, done⟩ := ite_bind_eq_ok_iff.mp done
    obtain ⟨concrete, done⟩ := ite_throw_bind_eq_ok_iff.mp done
    obtain ⟨_, coded, done⟩ := bind_eq_ok done
    have rules : MethodRules c position m name descriptor type :=
      ⟨mapError_eq_ok_iff.mp named, mapError_eq_ok_iff.mp described, mapError_eq_ok_iff.mp valid,
        mapError_eq_ok_iff.mp parsed, by simpa using visible, Nat.le_of_not_lt slots, constructs,
        concrete, coded⟩
    exact ⟨(name, descriptor), ⟨type, rules⟩, unseen, Except.ok.inj done⟩
  · rintro ⟨⟨name, descriptor⟩, ⟨type, rules⟩, unseen, rfl⟩
    refine bind_eq_ok_iff.mpr ⟨name, mapError_eq_ok_iff.mpr rules.named, ?_⟩
    refine bind_eq_ok_iff.mpr ⟨descriptor, mapError_eq_ok_iff.mpr rules.described, ?_⟩
    refine bind_eq_ok_iff.mpr ⟨(), mapError_eq_ok_iff.mpr rules.valid, ?_⟩
    refine bind_eq_ok_iff.mpr ⟨type, mapError_eq_ok_iff.mpr rules.parsed, ?_⟩
    refine ite_throw_bind_eq_ok_iff.mpr ⟨unseen, ?_⟩
    refine ite_throw_bind_eq_ok_iff.mpr ⟨by simpa using rules.visible, ?_⟩
    refine ite_throw_bind_eq_ok_iff.mpr ⟨Nat.not_lt_of_le rules.slots, ?_⟩
    refine ite_bind_eq_ok_iff.mpr ⟨rules.constructs, ?_⟩
    refine ite_throw_bind_eq_ok_iff.mpr ⟨rules.concrete, ?_⟩
    exact bind_eq_ok_iff.mpr ⟨(), rules.coded, rfl⟩

theorem checkMethods_eq_ok_iff : checkMethods c = .ok () ↔
    ∃ signatures, List.Forall₂ (Declares c) c.methods.zipIdx signatures ∧ signatures.Nodup := by
  unfold checkMethods
  exact foldlM_declares_iff (P := Declares c) fun seen x seen' => checkMethod_eq_ok_iff

theorem declares_of_checkRules (rules : c.checkRules = .ok ())
    (here : c.methods[position]? = some m) : ∃ signature, Declares c (m, position) signature := by
  obtain ⟨_, _, rules⟩ := bind_eq_ok rules
  obtain ⟨_, _, rules⟩ := bind_eq_ok rules
  obtain ⟨_, _, methods⟩ := bind_eq_ok rules
  obtain ⟨signatures, each, _⟩ := checkMethods_eq_ok_iff.mp methods
  have listed : (m, position) ∈ c.methods.zipIdx := List.mem_zipIdx_iff_getElem?.mpr here
  obtain ⟨signature, _, declares⟩ := exists_right_of_forall₂ each listed
  exact ⟨signature, declares⟩

theorem checkRules_of_method {name descriptor : String} {type : MethodType}
    (pool : checkPool c.pool = .ok ()) (header : checkHeader c = .ok ())
    (fields : checkFields c = .ok ()) (only : c.methods = [m])
    (rules : MethodRules c 0 m name descriptor type) : c.checkRules = .ok () := by
  have methods : checkMethods c = .ok () := by
    refine checkMethods_eq_ok_iff.mpr ⟨[(name, descriptor)], ?_, by simp⟩
    rw [only]
    exact .cons ⟨type, rules⟩ .nil
  unfold checkRules
  rw [pool, header, fields, methods]
  rfl

theorem exists_of_codeToCheck? {code? : Option Code} (found : c.codeToCheck? position = .ok code?) :
    ∃ m, c.methods[position]? = some m ∧ m.code? c.pool = .ok code? ∧ ∀ code ∈ code?,
      ∀ descriptor type, m.descriptorIn c.pool = .ok descriptor →
        MethodType.parse descriptor = .ok type →
          type.parameterSlots (!(m.flags.has AccessFlags.staticBit)) ≤ code.maxLocals.toNat := by
  unfold codeToCheck? at found
  cases here : c.methods[position]? with
  | none =>
    rw [here] at found
    cases found
  | some m =>
    rw [here] at found
    obtain ⟨body?, body, found⟩ := bind_eq_ok found
    rw [mapError_eq_ok_iff] at body
    cases body? with
    | none =>
      cases found
      exact ⟨m, rfl, body, fun code member => by cases member⟩
    | some code =>
      dsimp only at found
      split at found
      · cases found
      · obtain ⟨descriptor, described, found⟩ := bind_eq_ok found
        obtain ⟨type, parsed, found⟩ := bind_eq_ok found
        rw [mapError_eq_ok_iff] at described parsed
        split at found
        · cases found
        · rename_i enough
          cases found
          refine ⟨m, rfl, body, fun code' same descriptor' type' described' parsed' => ?_⟩
          cases same
          cases described.symm.trans described'
          cases parsed.symm.trans parsed'
          exact Nat.le_of_not_gt enough

end JvmClass.ClassFile
