import JvmClass.ClassFile
import JvmClass.Proofs.Pool.Forms

/-! The forms of a class file.  Words of access flags may have bits without a meaning, and texts
may be written in more bytes than they need; all else has one form. -/

namespace JvmClass

open Decoder Output

namespace Attribute

def Means (a b : Attribute) : Prop := a = b ∧ a.info.length < 4294967296

def bytes (a : Attribute) : List UInt8 :=
  u16Bytes a.name ++ (u32Bytes a.info.length.toUInt32 ++ a.info)

theorem accepts_decoder : Accepts decoder (Rendered Means bytes) := by
  have whole := accepts_bind accepts_u16 fun name => accepts_bind accepts_u32 fun n =>
    accepts_bind (accepts_run n.toNat) fun info => accepts_pure (Attribute.mk name info)
  refine whole.congr fun form a => ?_
  constructor
  · rintro ⟨name, _, _, rfl, ⟨n, _, _, rfl, ⟨_, info, _, ⟨rfl, length⟩, ⟨rfl, rfl⟩, rfl⟩, rfl⟩, rfl⟩
    have bound := n.toNat_lt
    refine ⟨⟨name, info⟩, ⟨rfl, by dsimp only; omega⟩, ?_⟩
    simp only [bytes, length, List.append_nil]
    rw [show n.toNat.toUInt32 = n from UInt32.ofNat_toNat]
  · rintro ⟨a, ⟨rfl, short⟩, rfl⟩
    have count : a.info.length.toUInt32.toNat = a.info.length :=
      UInt32.toNat_ofNat_of_lt' short
    exact ⟨a.name, _, _, rfl, ⟨_, _, _, rfl, ⟨a.info, a.info, [], ⟨rfl, count.symm⟩, ⟨rfl, rfl⟩,
      (List.append_nil _).symm⟩, rfl⟩, rfl⟩

theorem rewrites_attribute : Renews Means bytes encode fun _ => True := by
  rintro a _ ⟨rfl, short⟩
  have length : length32 "attribute length" a.info.length = .ok a.info.length.toUInt32 :=
    if_pos short
  refine ⟨a, ⟨rfl, short⟩, ?_⟩
  rw [encode, length]
  exact rewrites_put a.bytes

end Attribute

namespace AccessFlags

variable {d : Declaration} {w : UInt16} {f : AccessFlags d}

def AllAssigned (d : Declaration) (w : UInt16) : Prop := w &&& d.assigned = w

def Means (w : UInt16) (f : AccessFlags d) : Prop := f = ofBits w

theorem accepts_decoder : Accepts decoder (Rendered (Means (d := d)) u16Bytes) := by
  refine (accepts_map ofBits accepts_u16).congr fun bytes f => exists_congr fun w => ?_
  exact and_comm

theorem u16Bytes_injective : Function.Injective u16Bytes := by
  intro v w same
  have back := join16_split v
  unfold u16Bytes at same
  obtain ⟨high, low⟩ := List.cons.inj same
  rw [← back, high, (List.cons.inj low).1, join16_split]

theorem rewrites_flags : Renews (Means (d := d)) u16Bytes encode (AllAssigned d) := by
  rintro w _ rfl
  refine ⟨(ofBits w : AccessFlags d).bits, (ofBits_bits_idem w).symm, rfl, Nat.le_refl 2, ?_⟩
  exact u16Bytes_injective.eq_iff

end AccessFlags

namespace Member

variable {d : Declaration}

structure Form where
  flags : UInt16
  name : UInt16
  descriptor : UInt16
  attributes : List Attribute

def Form.bytes (form : Form) : List UInt8 :=
  u16Bytes form.flags ++ (u16Bytes form.name ++ (u16Bytes form.descriptor ++
    countedBytes Attribute.bytes form.attributes))

structure Form.Means (form : Form) (m : Member d) : Prop where
  flags : AccessFlags.Means form.flags m.flags
  name : form.name = m.name
  descriptor : form.descriptor = m.descriptor
  attributes : Each Attribute.Means form.attributes m.attributes

theorem accepts_decoder : Accepts decoder (Rendered (Form.Means (d := d)) Form.bytes) := by
  have whole := accepts_bind (AccessFlags.accepts_decoder (d := d)) fun flags =>
    accepts_bind accepts_u16 fun name => accepts_bind accepts_u16 fun descriptor =>
      accepts_bind (accepts_counted Attribute.accepts_decoder) fun attributes =>
        accepts_pure (Member.mk flags name descriptor attributes)
  refine whole.congr fun bytes m => ?_
  constructor
  · rintro ⟨flags, _, _, ⟨w, meant, rfl⟩, ⟨name, _, _, rfl, ⟨descriptor, _, _, rfl,
      ⟨attributes, _, _, ⟨rs, each, rfl⟩, ⟨rfl, rfl⟩, rfl⟩, rfl⟩, rfl⟩, rfl⟩
    refine ⟨⟨w, name, descriptor, rs⟩, ⟨meant, rfl, rfl, each⟩, ?_⟩
    rw [List.append_nil]
    rfl
  · rintro ⟨⟨w, _, _, rs⟩, ⟨meant, rfl, rfl, each⟩, rfl⟩
    exact ⟨m.flags, _, _, ⟨w, meant, rfl⟩, ⟨m.name, _, _, rfl, ⟨m.descriptor, _, _, rfl,
      ⟨m.attributes, _, [], ⟨rs, each, rfl⟩, ⟨rfl, rfl⟩, (List.append_nil _).symm⟩, rfl⟩, rfl⟩, rfl⟩

def Form.Minimal (d : Declaration) (form : Form) : Prop := AccessFlags.AllAssigned d form.flags

theorem rewrites_member :
    Renews (Form.Means (d := d)) Form.bytes encode (Form.Minimal d) := by
  rintro ⟨w, name, descriptor, attributes⟩ m ⟨meant, rfl, rfl, each⟩
  obtain ⟨w₀, meant₀, flags⟩ := AccessFlags.rewrites_flags w m.flags meant
  obtain ⟨attributes₀, each₀, others⟩ :=
    renews_counted Attribute.rewrites_attribute attributes m.attributes each
  refine ⟨⟨w₀, m.name, m.descriptor, attributes₀⟩, ⟨meant₀, rfl, rfl, each₀⟩, ?_⟩
  have whole := flags.append ((rewrites_put (u16Bytes m.name)).append
    ((rewrites_put (u16Bytes m.descriptor)).append others))
  refine whole.congr ?_
  simp [Form.Minimal]

end Member

theorem Version.accepts_decoder :
    Accepts Version.decoder fun bytes v => bytes = v.encode.bytes := by
  have whole := accepts_bind accepts_u16 fun minor => accepts_bind accepts_u16 fun major =>
    accepts_pure (Version.mk major minor)
  refine whole.congr fun bytes v => ?_
  constructor
  · rintro ⟨minor, _, _, rfl, ⟨major, _, _, rfl, ⟨rfl, rfl⟩, rfl⟩, rfl⟩
    rfl
  · rintro rfl
    exact ⟨v.minor, _, _, rfl, ⟨v.major, _, [], rfl, ⟨rfl, rfl⟩, (List.append_nil _).symm⟩, rfl⟩

theorem accepts_word : Accepts u16 (Rendered Eq u16Bytes) := by
  refine accepts_u16.congr fun bytes w => ?_
  constructor
  · rintro rfl
    exact ⟨w, rfl, rfl⟩
  · rintro ⟨_, rfl, rfl⟩
    rfl

theorem rewrites_word : Renews Eq u16Bytes Output.u16 fun _ => True := by
  rintro w _ rfl
  exact ⟨w, rfl, rewrites_put _⟩

def indexOrNone (w : UInt16) : Option UInt16 := if w = 0 then none else some w

theorem accepts_optional16 :
    Accepts optional16 (Rendered (fun w i => i = indexOrNone w) u16Bytes) := by
  refine (accepts_bind accepts_u16 fun w => accepts_pure (indexOrNone w)).congr fun bytes i => ?_
  constructor
  · rintro ⟨w, _, _, rfl, ⟨rfl, rfl⟩, rfl⟩
    exact ⟨w, rfl, List.append_nil _⟩
  · rintro ⟨w, rfl, rfl⟩
    exact ⟨w, _, [], rfl, ⟨rfl, rfl⟩, (List.append_nil _).symm⟩

theorem rewrites_optional16 :
    Renews (fun w i => i = indexOrNone w) u16Bytes Output.optional16 fun _ => True := by
  rintro w _ rfl
  refine ⟨w, rfl, ?_⟩
  have back : (indexOrNone w).getD 0 = w := by
    unfold indexOrNone
    split <;> simp_all
  rw [Output.optional16, back]
  exact rewrites_put _

namespace ClassFile

/-- What a class file is written as, after the magic number. -/
structure Form where
  version : Version
  pool : Pool.Form
  flags : UInt16
  thisClass : UInt16
  superClass : UInt16
  interfaces : List UInt16
  fields : List Member.Form
  methods : List Member.Form
  attributes : List Attribute

def Form.bytes (form : Form) : List UInt8 :=
  magic ++ (form.version.encode.bytes ++ (form.pool.bytes ++ (u16Bytes form.flags ++
    (u16Bytes form.thisClass ++ (u16Bytes form.superClass ++
      (countedBytes u16Bytes form.interfaces ++ (countedBytes Member.Form.bytes form.fields ++
        (countedBytes Member.Form.bytes form.methods ++
          countedBytes Attribute.bytes form.attributes))))))))

structure Form.Means (form : Form) (c : ClassFile) : Prop where
  version : form.version = c.version
  pool : form.pool.Means c.pool
  flags : AccessFlags.Means form.flags c.flags
  thisClass : form.thisClass = c.thisClass
  superClass : c.superClass = indexOrNone form.superClass
  interfaces : Each Eq form.interfaces c.interfaces
  fields : Each Member.Form.Means form.fields c.fields
  methods : Each Member.Form.Means form.methods c.methods
  attributes : Each Attribute.Means form.attributes c.attributes

theorem accepts_decoder : Accepts decoder (Rendered Form.Means Form.bytes) := by
  have body := accepts_bind Version.accepts_decoder fun version =>
    accepts_bind Pool.accepts_decoder fun pool =>
    accepts_bind AccessFlags.accepts_decoder fun flags =>
    accepts_bind accepts_u16 fun thisClass =>
    accepts_bind accepts_optional16 fun superClass =>
    accepts_bind (accepts_counted accepts_word) fun interfaces =>
    accepts_bind (accepts_counted Member.accepts_decoder) fun fields =>
    accepts_bind (accepts_counted Member.accepts_decoder) fun methods =>
    accepts_bind (accepts_counted Attribute.accepts_decoder) fun attributes =>
    accepts_pure (ClassFile.mk version pool flags thisClass superClass interfaces fields methods
      attributes)
  have whole := accepts_bind (accepts_run 4) fun found =>
    accepts_guard (p := found = magic) body (.badMagic found)
  refine whole.congr fun bytes c => ?_
  constructor
  · rintro ⟨_, _, _, ⟨rfl, _⟩, ⟨rfl, version, _, _, rfl, ⟨pool, _, _, ⟨constants, pooled, rfl⟩,
      ⟨flags, _, _, ⟨word, meant, rfl⟩, ⟨thisClass, _, _, rfl,
      ⟨superClass, _, _, ⟨index, none, rfl⟩, ⟨interfaces, _, _, ⟨words, named, rfl⟩,
      ⟨fields, _, _, ⟨fieldForms, eachField, rfl⟩, ⟨methods, _, _, ⟨methodForms, eachMethod, rfl⟩,
      ⟨attributes, _, _, ⟨infos, eachInfo, rfl⟩, ⟨rfl, rfl⟩, rfl⟩, rfl⟩, rfl⟩, rfl⟩, rfl⟩, rfl⟩,
      rfl⟩, rfl⟩, rfl⟩, rfl⟩
    refine ⟨⟨version, constants, word, thisClass, index, words, fieldForms, methodForms, infos⟩,
      ⟨rfl, pooled, meant, rfl, none, named, eachField, eachMethod, eachInfo⟩, ?_⟩
    rw [List.append_nil]
    rfl
  · rintro ⟨⟨version, constants, word, thisClass, index, words, fieldForms, methodForms, infos⟩,
      means, rfl⟩
    obtain ⟨_, pool, flags, _, superClass, interfaces, fields, methods, attributes⟩ := c
    obtain ⟨rfl, pooled, meant, rfl, none, named, eachField, eachMethod, eachInfo⟩ := means
    exact ⟨magic, magic, _, ⟨rfl, rfl⟩, ⟨rfl, version, _, _, rfl, ⟨pool, _, _,
      ⟨constants, pooled, rfl⟩, ⟨flags, _, _, ⟨word, meant, rfl⟩, ⟨thisClass, _, _, rfl,
      ⟨superClass, _, _, ⟨index, none, rfl⟩, ⟨interfaces, _, _, ⟨words, named, rfl⟩,
      ⟨fields, _, _, ⟨fieldForms, eachField, rfl⟩, ⟨methods, _, _, ⟨methodForms, eachMethod, rfl⟩,
      ⟨attributes, _, [], ⟨infos, eachInfo, rfl⟩, ⟨rfl, rfl⟩, (List.append_nil _).symm⟩, rfl⟩, rfl⟩,
      rfl⟩, rfl⟩, rfl⟩, rfl⟩, rfl⟩, rfl⟩, rfl⟩

theorem parse_eq_ok_iff {bytes : List UInt8} {c : ClassFile} :
    parse bytes = .ok c ↔ ∃ form : Form, form.Means c ∧ bytes = form.bytes :=
  decode_eq_ok_iff accepts_decoder

/-- Words of access flags have only bits with a meaning, and texts are written in no more bytes
than they need. -/
structure Form.Minimal (form : Form) : Prop where
  pool : form.pool.Minimal
  flags : AccessFlags.AllAssigned .type form.flags
  fields : ∀ field ∈ form.fields, field.Minimal .field
  methods : ∀ method ∈ form.methods, method.Minimal .method

theorem Form.minimal_iff (form : Form) : form.Minimal ↔ form.pool.Minimal ∧
    AccessFlags.AllAssigned .type form.flags ∧ (∀ field ∈ form.fields, field.Minimal .field) ∧
    ∀ method ∈ form.methods, method.Minimal .method :=
  ⟨fun m => ⟨m.pool, m.flags, m.fields, m.methods⟩, fun ⟨p, f, fs, ms⟩ => ⟨p, f, fs, ms⟩⟩

theorem rewrites_classFile : Renews Form.Means Form.bytes encode Form.Minimal := by
  rintro ⟨version, constants, word, thisClass, index, words, fieldForms, methodForms, infos⟩ c
    ⟨rfl, pooled, meant, rfl, none, named, eachField, eachMethod, eachInfo⟩
  obtain ⟨pool₀, pooled₀, pool⟩ := Pool.rewrites_pool _ _ pooled
  obtain ⟨word₀, meant₀, flags⟩ := AccessFlags.rewrites_flags _ _ meant
  obtain ⟨index₀, none₀, superClass⟩ := rewrites_optional16 _ _ none
  obtain ⟨words₀, named₀, interfaces⟩ := renews_counted rewrites_word _ _ named
  obtain ⟨fields₀, eachField₀, fields⟩ := renews_counted Member.rewrites_member _ _ eachField
  obtain ⟨methods₀, eachMethod₀, methods⟩ := renews_counted Member.rewrites_member _ _ eachMethod
  obtain ⟨infos₀, eachInfo₀, attributes⟩ :=
    renews_counted Attribute.rewrites_attribute _ _ eachInfo
  refine ⟨⟨c.version, pool₀, word₀, c.thisClass, index₀, words₀, fields₀, methods₀, infos₀⟩,
    ⟨rfl, pooled₀, meant₀, rfl, none₀, named₀, eachField₀, eachMethod₀, eachInfo₀⟩, ?_⟩
  have whole := (rewrites_put magic).append ((rewrites_put c.version.encode.bytes).append
    (pool.append (flags.append ((rewrites_put (u16Bytes c.thisClass)).append (superClass.append
      (interfaces.append (fields.append (methods.append attributes))))))))
  refine whole.congr ?_
  simp [Form.minimal_iff]

/-- A class that was read is written, and read again from what it is written as.  It is written as
the bytes it was read from just when these are minimal. -/
theorem toBytes_of_parse {bytes : List UInt8} {c : ClassFile} (parsed : parse bytes = .ok c) :
    (∃ out, c.toBytes = .ok out ∧ parse out = .ok c) ∧
    (∃ form : Form, form.Means c ∧ form.bytes = bytes) ∧
    ∀ form : Form, form.Means c → form.bytes = bytes →
      (c.toBytes = .ok bytes ↔ form.Minimal) := by
  have written : ∀ form : Form, form.Means c → ∃ out, c.toBytes = .ok out ∧ parse out = .ok c ∧
      (out = form.bytes ↔ form.Minimal) := by
    intro form means
    obtain ⟨form₀, means₀, rewrites⟩ := rewrites_classFile form c means
    refine ⟨form₀.bytes, ?_, parse_eq_ok_iff.mpr ⟨form₀, means₀, rfl⟩, rewrites.same_iff⟩
    rw [toBytes, rewrites.puts, toExcept_put]
  obtain ⟨form, means, rfl⟩ := parse_eq_ok_iff.mp parsed
  refine ⟨?_, ⟨form, means, rfl⟩, ?_⟩
  · obtain ⟨out, puts, reads, _⟩ := written form means
    exact ⟨out, puts, reads⟩
  · intro other means' same
    obtain ⟨out, puts, _, iff⟩ := written other means'
    rw [puts, ← iff, same]
    exact ⟨Except.ok.inj, congrArg _⟩

def overlong : Form where
  version := ⟨52, 0⟩
  pool := ⟨3, [.text [[0xC1, 0x81]], .plain (.classInfo 1)]⟩
  flags := 0x0021
  thisClass := 2
  superClass := 0
  interfaces := []
  fields := []
  methods := []
  attributes := []

def overlongMeaning : ClassFile :=
  ⟨⟨52, 0⟩, .ofConstants [.utf8 "A", .classInfo 1], ⟨0x0021⟩, 2, none, [], [], [], []⟩

theorem unitForm_overlong : Text.ModifiedUtf8.UnitForm [0xC1, 0x81] 0x41 :=
  .two (by decide) (by decide)

theorem overlong_means : overlong.Means overlongMeaning where
  version := rfl
  pool := by
    refine ⟨?_, ?_, rfl⟩
    · have text : Text.ModifiedUtf8.TextForm [[0xC1, 0x81]] "A" := .cons unitForm_overlong .nil
      exact .cons (.text text (by decide)) (.cons (.plain (by decide)) .nil)
    · exact congrArg Pool.ofConstants (Pool.constants_ofConstants _).symm
  flags := rfl
  thisClass := rfl
  superClass := rfl
  interfaces := ⟨.nil, by decide⟩
  fields := ⟨.nil, by decide⟩
  methods := ⟨.nil, by decide⟩
  attributes := ⟨.nil, by decide⟩

theorem not_minimal_overlong : ¬ overlong.Minimal := by
  intro minimal
  have shortest := minimal.pool (.text [[0xC1, 0x81]]) List.mem_cons_self [0xC1, 0x81]
    List.mem_cons_self
  have le := shortest 0x41 [0x41] unitForm_overlong (.one (by decide) (by decide))
  contradiction

theorem toBytes_of_parse_overlong : parse overlong.bytes = .ok overlongMeaning ∧
    (∃ out, overlongMeaning.toBytes = .ok out ∧ parse out = .ok overlongMeaning) ∧
    overlongMeaning.toBytes ≠ .ok overlong.bytes := by
  have parsed := parse_eq_ok_iff.mpr ⟨overlong, overlong_means, rfl⟩
  obtain ⟨again, _, minimal⟩ := toBytes_of_parse parsed
  refine ⟨parsed, again, fun same => not_minimal_overlong ?_⟩
  exact (minimal overlong overlong_means rfl).mp same

end ClassFile

end JvmClass
