import JvmClass.Proofs.ClassFile.Forms
import JvmClass.Proofs.Pool.Rereading

/-! Reading what was written.  A class whose pool was built by additions, whose flags all have a
meaning and whose super class is not the index that stands for none comes back as it was. -/

namespace JvmClass

open Decoder Output

theorem Attribute.writes_attribute :
    Writes Attribute.Means Attribute.bytes Attribute.encode fun _ => True := by
  intro a bytes _ written
  unfold Attribute.encode at written
  cases fits : length32 "attribute length" a.info.length with
  | error e =>
    rw [fits] at written
    cases written
  | ok n =>
    rw [fits] at written
    obtain ⟨short, rfl⟩ := length32_eq_ok fits
    exact ⟨a, ⟨rfl, short⟩, (put_injective written).symm⟩

instance (d : Declaration) (w : UInt16) : Decidable (AccessFlags.AllAssigned d w) :=
  inferInstanceAs (Decidable (w &&& d.assigned = w))

theorem AccessFlags.writes_flags {d : Declaration} :
    Writes (AccessFlags.Means (d := d)) u16Bytes AccessFlags.encode
      fun f => AllAssigned d f.bits := by
  rintro ⟨bits⟩ bytes assigned written
  refine ⟨bits, ?_, (put_injective written).symm⟩
  exact congrArg AccessFlags.mk (Eq.symm assigned)

theorem Member.writes_member {d : Declaration} :
    Writes (Member.Form.Means (d := d)) Member.Form.bytes Member.encode
      fun m => AccessFlags.AllAssigned d m.flags.bits := by
  intro m bytes assigned written
  obtain ⟨x, _, flags, rest, rfl⟩ := append_eq_put_iff.mp written
  obtain ⟨y, _, name, rest', rfl⟩ := append_eq_put_iff.mp rest
  obtain ⟨z, w, descriptor, attributes, rfl⟩ := append_eq_put_iff.mp rest'
  obtain ⟨word, meant, rfl⟩ := AccessFlags.writes_flags m.flags x assigned flags
  obtain ⟨infos, each, rfl⟩ := writes_counted Attribute.writes_attribute m.attributes w
    (fun _ _ => trivial) attributes
  refine ⟨⟨word, m.name, m.descriptor, infos⟩, ⟨meant, rfl, rfl, each⟩, ?_⟩
  rw [← put_injective name, ← put_injective descriptor]
  rfl

theorem writes_word : Writes Eq u16Bytes Output.u16 fun _ => True :=
  fun w _ _ written => ⟨w, rfl, (put_injective written).symm⟩

theorem writes_optional16 :
    Writes (fun w i => i = indexOrNone w) u16Bytes Output.optional16 fun i => i ≠ some 0 := by
  intro i bytes present written
  refine ⟨i.getD 0, ?_, (put_injective written).symm⟩
  cases i with
  | none => rfl
  | some w =>
    have nonzero : w ≠ 0 := fun zero => present (congrArg some zero)
    exact (if_neg nonzero).symm

namespace ClassFile

/-- No word of access flags has a bit without a meaning. -/
structure Assigned (c : ClassFile) : Prop where
  flags : AccessFlags.AllAssigned .type c.flags.bits
  fields : ∀ f ∈ c.fields, AccessFlags.AllAssigned .field f.flags.bits
  methods : ∀ m ∈ c.methods, AccessFlags.AllAssigned .method m.flags.bits

structure Writable (c : ClassFile) : Prop extends Assigned c where
  pool : c.pool.Lawful
  superClass : c.superClass ≠ some 0

theorem writes_classFile : Writes Form.Means Form.bytes encode Writable := by
  intro c bytes writable written
  obtain ⟨_, _, start, rest₁, rfl⟩ := append_eq_put_iff.mp written
  obtain ⟨_, _, version, rest₂, rfl⟩ := append_eq_put_iff.mp rest₁
  obtain ⟨p, _, pool, rest₃, rfl⟩ := append_eq_put_iff.mp rest₂
  obtain ⟨f, _, flags, rest₄, rfl⟩ := append_eq_put_iff.mp rest₃
  obtain ⟨_, _, thisClass, rest₅, rfl⟩ := append_eq_put_iff.mp rest₄
  obtain ⟨s, _, superClass, rest₆, rfl⟩ := append_eq_put_iff.mp rest₅
  obtain ⟨is, _, interfaces, rest₇, rfl⟩ := append_eq_put_iff.mp rest₆
  obtain ⟨fs, _, fields, rest₈, rfl⟩ := append_eq_put_iff.mp rest₇
  obtain ⟨ms, as, methods, attributes, rfl⟩ := append_eq_put_iff.mp rest₈
  obtain ⟨constants, pooled, rfl⟩ := Pool.writes_pool c.pool p writable.pool pool
  obtain ⟨word, meant, rfl⟩ := AccessFlags.writes_flags c.flags f writable.flags flags
  obtain ⟨index, none, rfl⟩ := writes_optional16 c.superClass s writable.superClass superClass
  obtain ⟨words, named, rfl⟩ := writes_counted writes_word c.interfaces is (fun _ _ => trivial)
    interfaces
  obtain ⟨fieldForms, eachField, rfl⟩ := writes_counted Member.writes_member c.fields fs
    writable.fields fields
  obtain ⟨methodForms, eachMethod, rfl⟩ := writes_counted Member.writes_member c.methods ms
    writable.methods methods
  obtain ⟨infos, eachInfo, rfl⟩ := writes_counted Attribute.writes_attribute c.attributes as
    (fun _ _ => trivial) attributes
  refine ⟨⟨c.version, constants, word, c.thisClass, index, words, fieldForms, methodForms, infos⟩,
    ⟨rfl, pooled, meant, rfl, none, named, eachField, eachMethod, eachInfo⟩, ?_⟩
  rw [← put_injective start, ← put_injective version, ← put_injective thisClass]
  rfl

/-- A class that is written is read as the class that it was. -/
theorem parse_of_toBytes {c : ClassFile} {bytes : List UInt8} (built : c.pool.Built)
    (assigned : c.Assigned) (present : c.superClass ≠ some 0) (written : c.toBytes = .ok bytes) :
    parse bytes = .ok c := by
  have writable : c.Writable := ⟨assigned, Pool.lawful_of_built built, present⟩
  obtain ⟨form, means, rfl⟩ := writes_classFile c bytes writable (toExcept_eq_ok_iff.mp written)
  exact parse_eq_ok_iff.mpr ⟨form, means, rfl⟩

def mixedConstants : List Constant :=
  [.float 0x7FC00001, .long (-1), .utf8 "A", .classInfo 4, .double 0xFFF0000000000001]

def mixed : ClassFile :=
  ⟨⟨52, 0⟩, .ofConstants mixedConstants, ⟨0x0021⟩, 5, none, [5], [⟨⟨0x0002⟩, 4, 4, []⟩], [],
    [⟨4, [0xFF]⟩]⟩

theorem parse_of_toBytes_mixed : mixed.pool.Built ∧ mixed.Assigned ∧
    ∃ bytes, mixed.toBytes = .ok bytes ∧ parse bytes = .ok mixed := by
  have built : mixed.pool.Built :=
    Pool.built_ofConstants (by decide) (by decide +kernel) (by decide)
  have assigned : mixed.Assigned := ⟨by decide, by decide, by decide⟩
  have written : mixed.toBytes = .ok [0xCA, 0xFE, 0xBA, 0xBE, 0, 0, 0, 52, 0, 8,
      4, 0x7F, 0xC0, 0, 1, 5, 0xFF, 0xFF, 0xFF, 0xFF, 0xFF, 0xFF, 0xFF, 0xFF, 1, 0, 1, 0x41,
      7, 0, 4, 6, 0xFF, 0xF0, 0, 0, 0, 0, 0, 1, 0, 0x21, 0, 5, 0, 0, 0, 1, 0, 5,
      0, 1, 0, 2, 0, 4, 0, 4, 0, 0, 0, 0, 0, 1, 0, 4, 0, 0, 0, 1, 0xFF] := by decide +kernel
  exact ⟨built, assigned, _, written, parse_of_toBytes built assigned (by decide) written⟩

end ClassFile

end JvmClass
