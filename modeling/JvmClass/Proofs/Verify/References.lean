import JvmClass.Proofs.Names
import JvmClass.Proofs.Pool.Growth
import JvmClass.Proofs.Search
import JvmClass.Verify.ClassRules

/-! What constants refer to.  In a pool that has passed its rules every constant, looked up at its
index, leads to constants of the right kinds, and the names and descriptors that it leads to can be
read. -/

namespace JvmClass.ClassFile

variable {p : Pool} {i : UInt16} {c : Constant} {name : String} {place : Place}

def fieldKinds : List HandleKind := [.getField, .getStatic, .putField, .putStatic]

/-- What a constant refers to is there, and can be read in the way that the constant needs it. -/
inductive Refers (p : Pool) (i : UInt16) : Constant → Prop where
  | utf8 (s : String) : Refers p i (.utf8 s)
  | integer (n : Int32) : Refers p i (.integer n)
  | float (bits : UInt32) : Refers p i (.float bits)
  | long (n : Int64) : Refers p i (.long n)
  | double (bits : UInt64) : Refers p i (.double bits)
  | classInfo {text : UInt16} {name : String} {type : RefType}
      (named : p.getClassName i = .ok name) (read : RefType.ofClassName name = .ok type) :
      Refers p i (.classInfo text)
  | string {text : UInt16} {s : String} (spelled : p.getUtf8 text = .ok s) :
      Refers p i (.string text)
  | fieldRef {owner pair : UInt16} {m : MemberRef} {type : FieldType}
      (member : p.getMemberRef i = .ok m) (kind : m.kind = .field) (valid : Name.IsUnqualified m.name)
      (parsed : FieldType.parse m.descriptor = .ok type) : Refers p i (.fieldRef owner pair)
  | methodRef {owner pair : UInt16} {ofInterface : Bool} {m : MemberRef} {type : MethodType}
      (member : p.getMemberRef i = .ok m)
      (kind : m.kind = if ofInterface then .interfaceMethod else .method)
      (valid : Name.IsMethod m.name) (parsed : MethodType.parse m.descriptor = .ok type)
      (ordinary : m.name ≠ Name.classInitializerName)
      (constructs : m.name = Name.constructorName → type.returns = none) :
      Refers p i (.methodRef owner pair ofInterface)
  | nameAndType {name descriptor : UInt16} {s t : String}
      (pair : p.getNameAndType i = .ok (s, t)) : Refers p i (.nameAndType name descriptor)
  | fieldHandle {kind : HandleKind} {member owner pair : UInt16} (field : kind ∈ fieldKinds)
      (there : p.get member = .ok (.fieldRef owner pair)) : Refers p i (.methodHandle kind member)
  | methodHandle {kind : HandleKind} {member owner pair : UInt16} {ofInterface : Bool}
      (method : kind ∉ fieldKinds) (there : p.get member = .ok (.methodRef owner pair ofInterface)) :
      Refers p i (.methodHandle kind member)
  | methodType {descriptor : UInt16} {s : String} {type : MethodType}
      (spelled : p.getUtf8 descriptor = .ok s) (parsed : MethodType.parse s = .ok type) :
      Refers p i (.methodType descriptor)
  | dynamic {bootstrap pair : UInt16} {name descriptor : String} {type : FieldType}
      (named : p.getNameAndType pair = .ok (name, descriptor))
      (parsed : FieldType.parse descriptor = .ok type) : Refers p i (.dynamic bootstrap pair)
  | invokeDynamic {bootstrap pair : UInt16} {name descriptor : String} {type : MethodType}
      (named : p.getNameAndType pair = .ok (name, descriptor)) (valid : Name.IsUnqualified name)
      (parsed : MethodType.parse descriptor = .ok type) : Refers p i (.invokeDynamic bootstrap pair)
  | moduleInfo {name : UInt16} {s : String} (spelled : p.getUtf8 name = .ok s) :
      Refers p i (.moduleInfo name)
  | packageInfo {name : UInt16} {s : String} (spelled : p.getUtf8 name = .ok s) :
      Refers p i (.packageInfo name)

theorem ok_of_resolved {α : Type} {x : Except PoolFault α} {a : α}
    (found : resolved place x = .ok a) : x = .ok a := mapError_eq_ok_iff.mp found

theorem ok_of_discard {ε α : Type} {x : Except ε α} (done : discard x = .ok ()) :
    ∃ a, x = .ok a := by
  cases x with
  | error e => cases done
  | ok a => exact ⟨a, rfl⟩

theorem isField_iff (kind : HandleKind) : kind.isField = true ↔ kind ∈ fieldKinds := by
  cases kind <;> decide

theorem ok_of_discard_resolved {α : Type} {x : Except PoolFault α}
    (done : discard (resolved place x) = .ok ()) : ∃ a, x = .ok a :=
  (ok_of_discard done).imp fun _ => ok_of_resolved

theorem of_checkMethodRef {name descriptor : String} (rule : checkMethodRef i name descriptor = .ok ()) :
    Name.IsMethod name ∧ name ≠ Name.classInitializerName ∧ ∃ type,
      MethodType.parse descriptor = .ok type ∧ (name = Name.constructorName → type.returns = none) := by
  obtain ⟨_, valid, rule⟩ := bind_eq_ok rule
  obtain ⟨type, parsed, rule⟩ := bind_eq_ok rule
  obtain ⟨ordinary, rule⟩ := ite_throw_bind_eq_ok_iff.mp rule
  refine ⟨Name.checkMethod_eq_ok_iff.mp (mapError_eq_ok_iff.mp valid), ordinary, type,
    mapError_eq_ok_iff.mp parsed, fun constructs => ?_⟩
  by_contra returns
  rw [if_pos ⟨constructs, Option.isSome_iff_ne_none.mpr returns⟩] at rule
  cases rule

theorem refers_handle {kind : HandleKind} {member : UInt16} {m : Constant}
    (there : p.get member = .ok m) (fits : isMemberOf kind m = true) :
    Refers p i (.methodHandle kind member) := by
  cases m with
  | fieldRef owner pair => exact .fieldHandle ((isField_iff kind).mp fits) there
  | methodRef owner pair ofInterface =>
    refine .methodHandle (fun field => ?_) there
    have other : kind.isField = false := by simpa [isMemberOf] using fits
    rw [(isField_iff kind).mpr field] at other
    cases other
  | _ => cases fits

theorem refers_of_check (here : p.get i = .ok c) (rule : checkConstant p i c = .ok ()) :
    Refers p i c := by
  cases c with
  | utf8 s => exact .utf8 s
  | integer n => exact .integer n
  | float bits => exact .float bits
  | long n => exact .long n
  | double bits => exact .double bits
  | classInfo text =>
    obtain ⟨name, spelled, rule⟩ := bind_eq_ok rule
    obtain ⟨type, read⟩ := ok_of_discard rule
    exact .classInfo (Pool.getClassName_of_get here (ok_of_resolved spelled))
      (mapError_eq_ok_iff.mp read)
  | string text =>
    obtain ⟨s, spelled⟩ := ok_of_discard_resolved rule
    exact .string spelled
  | fieldRef owner pair =>
    obtain ⟨_, owned, rule⟩ := bind_eq_ok rule
    obtain ⟨⟨name, descriptor⟩, named, rule⟩ := bind_eq_ok rule
    obtain ⟨_, valid, rule⟩ := bind_eq_ok rule
    obtain ⟨type, parsed⟩ := ok_of_discard rule
    obtain ⟨class', owned⟩ := ok_of_discard_resolved owned
    exact .fieldRef (Pool.getMemberRef_of_get here rfl (ok_of_resolved named) owned) rfl
      (Name.checkUnqualified_eq_ok_iff.mp (mapError_eq_ok_iff.mp valid)) (mapError_eq_ok_iff.mp parsed)
  | methodRef owner pair ofInterface =>
    obtain ⟨_, owned, rule⟩ := bind_eq_ok rule
    obtain ⟨⟨name, descriptor⟩, named, rule⟩ := bind_eq_ok rule
    obtain ⟨class', owned⟩ := ok_of_discard_resolved owned
    obtain ⟨valid, ordinary, type, parsed, constructs⟩ := of_checkMethodRef rule
    have parts : Pool.memberParts? (.methodRef owner pair ofInterface) =
        some (owner, pair, if ofInterface then .interfaceMethod else .method) := by
      cases ofInterface <;> rfl
    exact .methodRef (Pool.getMemberRef_of_get here parts (ok_of_resolved named) owned) rfl valid
      parsed ordinary constructs
  | nameAndType name descriptor =>
    obtain ⟨_, named, rule⟩ := bind_eq_ok rule
    obtain ⟨s, named⟩ := ok_of_discard_resolved named
    obtain ⟨t, typed⟩ := ok_of_discard_resolved rule
    exact .nameAndType (Pool.getNameAndType_of_get here named typed)
  | methodHandle kind member =>
    obtain ⟨m, there, rule⟩ := bind_eq_ok rule
    refine refers_handle (ok_of_resolved there) ?_
    by_contra misfit
    rw [if_pos (by simpa using misfit)] at rule
    cases rule
  | methodType descriptor =>
    obtain ⟨s, spelled, rule⟩ := bind_eq_ok rule
    obtain ⟨type, parsed⟩ := ok_of_discard rule
    exact .methodType (ok_of_resolved spelled) (mapError_eq_ok_iff.mp parsed)
  | dynamic bootstrap pair =>
    obtain ⟨⟨name, descriptor⟩, named, rule⟩ := bind_eq_ok rule
    obtain ⟨type, parsed⟩ := ok_of_discard rule
    exact .dynamic (ok_of_resolved named) (mapError_eq_ok_iff.mp parsed)
  | invokeDynamic bootstrap pair =>
    obtain ⟨⟨name, descriptor⟩, named, rule⟩ := bind_eq_ok rule
    obtain ⟨_, valid, rule⟩ := bind_eq_ok rule
    obtain ⟨type, parsed⟩ := ok_of_discard rule
    exact .invokeDynamic (ok_of_resolved named)
      (Name.checkUnqualified_eq_ok_iff.mp (mapError_eq_ok_iff.mp valid)) (mapError_eq_ok_iff.mp parsed)
  | moduleInfo name =>
    obtain ⟨s, spelled⟩ := ok_of_discard_resolved rule
    exact .moduleInfo spelled
  | packageInfo name =>
    obtain ⟨s, spelled⟩ := ok_of_discard_resolved rule
    exact .packageInfo spelled

theorem checkConstant_of_get (checked : checkPool p = .ok ()) (found : p.get i = .ok c) :
    checkConstant p i c = .ok () := by
  refine forM_eq_ok_iff.mp checked (i, c) ?_
  unfold Pool.get at found
  split at found
  · rename_i k here
    cases found
    obtain ⟨entry, there, rfl⟩ := Option.map_eq_some_iff.mp here
    obtain ⟨slot, c⟩ := entry
    obtain ⟨member, slots⟩ := Search.of_at? there
    refine List.mem_map.mpr ⟨(slot, c), Array.mem_toList_iff.mpr member, ?_⟩
    have back : slot.toUInt16 = i := by
      change slot = i.toNat at slots
      rw [slots]
      exact UInt16.ofNat_toNat
    exact congrArg (·, c) back
  · cases found

theorem refers_of_get (checked : checkPool p = .ok ()) (here : p.get i = .ok c) : Refers p i c :=
  refers_of_check here (checkConstant_of_get checked here)

theorem ofClassName_of_getClassName (checked : checkPool p = .ok ())
    (found : p.getClassName i = .ok name) : ∃ r, RefType.ofClassName name = .ok r := by
  obtain ⟨c, here, named⟩ := bind_eq_ok found
  cases refers_of_get checked here with
  | classInfo known read =>
    cases found.symm.trans known
    exact ⟨_, read⟩
  | _ => cases named

theorem parse_of_getMemberRef {m : MemberRef} (checked : checkPool p = .ok ())
    (found : p.getMemberRef i = .ok m) : (∃ r, RefType.ofClassName m.owner = .ok r) ∧
      (m.kind = .field → ∃ t, FieldType.parse m.descriptor = .ok t) ∧
      (m.kind ≠ .field → ∃ t, MethodType.parse m.descriptor = .ok t ∧
        (m.name = Name.constructorName → t.returns = none)) := by
  obtain ⟨c, here, resolved⟩ := bind_eq_ok found
  have owner : ∃ r, RefType.ofClassName m.owner = .ok r := by
    split at resolved
    · obtain ⟨⟨s, t⟩, _, resolved⟩ := bind_eq_ok resolved
      obtain ⟨class', owned, resolved⟩ := bind_eq_ok resolved
      cases resolved
      exact ofClassName_of_getClassName checked owned
    · cases resolved
  refine ⟨owner, ?_⟩
  cases refers_of_get checked here with
  | fieldRef member kind _ parsed =>
    cases found.symm.trans member
    exact ⟨fun _ => ⟨_, parsed⟩, fun other => absurd kind other⟩
  | @methodRef _ _ ofInterface _ _ member kind _ parsed _ constructs =>
    cases found.symm.trans member
    have method : m.kind ≠ .field := by
      rw [kind]
      cases ofInterface <;> decide
    exact ⟨fun field => absurd field method, fun _ => ⟨_, parsed, constructs⟩⟩
  | _ => cases resolved

theorem parse_of_dynamic {bootstrap pair : UInt16} (checked : checkPool p = .ok ())
    (found : p.get i = .ok (.dynamic bootstrap pair)) :
    ∃ names, p.getNameAndType pair = .ok names ∧ ∃ t, FieldType.parse names.2 = .ok t := by
  cases refers_of_get checked found with
  | dynamic named parsed => exact ⟨_, named, _, parsed⟩

theorem parse_of_invokeDynamic {bootstrap pair : UInt16} (checked : checkPool p = .ok ())
    (found : p.get i = .ok (.invokeDynamic bootstrap pair)) :
    ∃ names, p.getNameAndType pair = .ok names ∧ ∃ t, MethodType.parse names.2 = .ok t := by
  cases refers_of_get checked found with
  | invokeDynamic named _ parsed => exact ⟨_, named, _, parsed⟩

end JvmClass.ClassFile
