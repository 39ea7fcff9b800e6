import JvmClass.Attribute.Tables
import JvmClass.ClassFile
import JvmClass.Proofs.Wire.Writing

/-! What has been put out when an encoder fails.  An encoder fails just when some length does not fit
into its field.  A value that starts with its length has that length checked before anything is put
out; the parts of other values are put out one after the other, so that what stands in front of the
first length is there when a length is too large. -/

namespace JvmClass

def Error.IsTooLarge (e : Error) : Prop := ∃ what n max, e = .tooLarge what n max ∧ max < n

def FitsAll {α : Type} (fits : α → Prop) (xs : List α) : Prop :=
  xs.length < 0x10000 ∧ ∀ x ∈ xs, fits x

def Constant.Fits : Constant → Prop
  | utf8 s => (Text.ModifiedUtf8.encode s).length < 0x10000
  | _ => True

def Pool.Fits (p : Pool) : Prop := ∀ c ∈ p.constants, c.Fits

def Attribute.Fits (a : Attribute) : Prop := a.info.length < 0x100000000

structure Code.Fits (c : Code) : Prop where
  bytes : c.bytes.length < 0x100000000
  handlers : c.handlers.length < 0x10000
  attributes : FitsAll Attribute.Fits c.attributes

def Member.Fits {d : Declaration} (m : Member d) : Prop := FitsAll Attribute.Fits m.attributes

structure ClassFile.Fits (c : ClassFile) : Prop where
  pool : c.pool.Fits
  interfaces : c.interfaces.length < 0x10000
  fields : FitsAll Member.Fits c.fields
  methods : FitsAll Member.Fits c.methods
  attributes : FitsAll Attribute.Fits c.attributes

namespace Output

variable {α : Type} {o o' : Output} {head bytes : List UInt8} {what : String} {e : Error} {n : Nat}
  {xs : List α} {encode : α → Output} {fits fits' : Prop} {fitsEach : α → Prop}

/-- The output fails just when something does not fit, and then for a length that is too large. -/
structure Measured (fits : Prop) (o : Output) : Prop where
  tooLarge : ∀ e, o.failure? = some e → e.IsTooLarge
  none_iff : o.failure? = none ↔ fits

theorem Measured.congr (measured : Measured fits o) (iff : fits ↔ fits') : Measured fits' o :=
  ⟨measured.tooLarge, measured.none_iff.trans iff⟩

theorem measured_put (bytes : List UInt8) : Measured True (.put bytes) :=
  ⟨nofun, iff_of_true rfl trivial⟩

theorem measured_fail (tooLarge : e.IsTooLarge) (misfits : ¬ fits) : Measured fits (.fail e) :=
  ⟨fun _ same => Option.some.inj same ▸ tooLarge, iff_of_false nofun misfits⟩

theorem failure?_append (o o' : Output) : (o ++ o').failure? = o.failure?.or o'.failure? := by
  change (andThen o o').failure? = _
  obtain ⟨bytes, failure?⟩ := o
  cases failure? <;> rfl

theorem Measured.append (first : Measured fits o) (second : Measured fits' o') :
    Measured (fits ∧ fits') (o ++ o') where
  tooLarge e failed := by
    rw [failure?_append, Option.or_eq_some_iff] at failed
    obtain failed | ⟨_, failed⟩ := failed
    · exact first.tooLarge e failed
    · exact second.tooLarge e failed
  none_iff := by
    rw [failure?_append, Option.or_eq_none_iff, first.none_iff, second.none_iff]

theorem Measured.behind_put (measured : Measured fits o) (bytes : List UInt8) :
    Measured fits (.put bytes ++ o) :=
  ((measured_put bytes).append measured).congr (and_iff_right trivial)

theorem measured_concat (each : ∀ x ∈ xs, Measured (fitsEach x) (encode x)) :
    Measured (∀ x ∈ xs, fitsEach x) (concat (xs.map encode)) := by
  induction xs with
  | nil => exact (measured_put []).congr (by simp)
  | cons x xs ih =>
    obtain ⟨here, others⟩ := List.forall_mem_cons.mp each
    rw [concat_map_cons]
    exact (here.append (ih others)).congr List.forall_mem_cons.symm

theorem length16_eq_error (fails : length16 what n = .error e) : e.IsTooLarge ∧ ¬ n < 0x10000 := by
  unfold length16 at fails
  split at fails <;> cases fails
  exact ⟨⟨what, n, 0xFFFF, rfl, by omega⟩, by omega⟩

theorem length32_eq_error (fails : length32 what n = .error e) :
    e.IsTooLarge ∧ ¬ n < 0x100000000 := by
  unfold length32 at fails
  split at fails <;> cases fails
  exact ⟨⟨what, n, 0xFFFFFFFF, rfl, by omega⟩, by omega⟩

/-- What has been put out when the output fails starts with `head`, and is nothing if that is. -/
structure FailsBehind (head : List UInt8) (fits : Prop) (o : Output) : Prop where
  measured : Measured fits o
  starts : ∀ e, o.failure? = some e → head <+: o.bytes
  nothing : ∀ e, o.failure? = some e → head = [] → o.bytes = []

theorem FailsBehind.congr (behind : FailsBehind head fits o) (iff : fits ↔ fits') :
    FailsBehind head fits' o :=
  ⟨behind.measured.congr iff, behind.starts, behind.nothing⟩

theorem failsBehind_put (head bytes : List UInt8) : FailsBehind head True (.put bytes) :=
  ⟨measured_put bytes, nofun, nofun⟩

theorem failsBehind_fail (tooLarge : e.IsTooLarge) (misfits : ¬ fits) :
    FailsBehind [] fits (.fail e) where
  measured := measured_fail tooLarge misfits
  starts _ _ := List.nil_prefix
  nothing _ _ _ := rfl

theorem Measured.failsBehind (measured : Measured fits o) (some : bytes ≠ []) :
    FailsBehind bytes fits (.put bytes ++ o) where
  measured := measured.behind_put bytes
  starts _ _ := ⟨o.bytes, rfl⟩
  nothing _ _ none := absurd none some

def countBytes (n : Nat) : List UInt8 := if n < 0x10000 then u16Bytes n.toUInt16 else []

theorem failsBehind_countedAs (what : String)
    (each : ∀ x ∈ xs, Measured (fitsEach x) (encode x)) :
    FailsBehind (countBytes xs.length) (FitsAll fitsEach xs) (countedAs what xs encode) := by
  unfold countedAs
  cases fits : length16 what xs.length with
  | error e =>
    obtain ⟨tooLarge, long⟩ := length16_eq_error fits
    rw [countBytes, if_neg long]
    exact failsBehind_fail tooLarge fun both => long both.1
  | ok n =>
    obtain ⟨short, rfl⟩ := length16_eq_ok fits
    rw [countBytes, if_pos short]
    exact ((measured_concat each).failsBehind (by rintro ⟨⟩)).congr (and_iff_right short).symm

theorem concat_of_fixed {write : α → List UInt8} (fixed : ∀ x, encode x = .put (write x))
    (xs : List α) : concat (xs.map encode) = .put (xs.flatMap write) := by
  induction xs with
  | nil => rfl
  | cons x xs ih =>
    rw [concat_map_cons, fixed, ih, put_append_put]
    rfl

theorem failsBehind_countedAs_of_fixed (what : String) {write : α → List UInt8}
    (fixed : ∀ x, encode x = .put (write x)) (xs : List α) :
    FailsBehind [] (xs.length < 0x10000) (countedAs what xs encode) := by
  unfold countedAs
  cases fits : length16 what xs.length with
  | error e =>
    obtain ⟨tooLarge, long⟩ := length16_eq_error fits
    exact failsBehind_fail tooLarge long
  | ok n =>
    rw [concat_of_fixed fixed]
    exact (failsBehind_put _ _).congr (iff_of_true trivial (length16_eq_ok fits).1)

theorem failsBehind_longRun (what : String) (bytes : List UInt8) :
    FailsBehind [] (bytes.length < 0x100000000) (longRun what bytes) := by
  unfold longRun
  cases fits : length32 what bytes.length with
  | error e =>
    obtain ⟨tooLarge, long⟩ := length32_eq_error fits
    exact failsBehind_fail tooLarge long
  | ok n => exact (failsBehind_put _ _).congr (iff_of_true trivial (length32_eq_ok fits).1)

theorem failsBehind_constant (c : Constant) : FailsBehind [] c.Fits c.encode := by
  cases c with
  | utf8 s =>
    have checked : (Constant.utf8 s).checkLength =
        (length16 "Utf8 constant length" (Text.ModifiedUtf8.encode s).length).map fun _ => () := rfl
    unfold Constant.encode
    rw [checked]
    cases fits : length16 "Utf8 constant length" (Text.ModifiedUtf8.encode s).length with
    | error e =>
      obtain ⟨tooLarge, long⟩ := length16_eq_error fits
      exact failsBehind_fail tooLarge long
    | ok n => exact (failsBehind_put [] _).congr (iff_of_true trivial (length16_eq_ok fits).1)
  | _ => exact failsBehind_put [] _

theorem failsBehind_attribute (a : Attribute) : FailsBehind [] a.Fits a.encode := by
  unfold Attribute.encode
  cases fits : length32 "attribute length" a.info.length with
  | error e =>
    obtain ⟨tooLarge, long⟩ := length32_eq_error fits
    exact failsBehind_fail tooLarge long
  | ok n => exact (failsBehind_put [] _).congr (iff_of_true trivial (length32_eq_ok fits).1)

theorem failsBehind_attributes (as : List Attribute) : FailsBehind (countBytes as.length)
    (FitsAll Attribute.Fits as) (counted as Attribute.encode) :=
  failsBehind_countedAs _ fun a _ => (failsBehind_attribute a).measured

theorem measured_constants (p : Pool) :
    Measured p.Fits (concat (p.constants.map Constant.encode)) :=
  measured_concat fun c _ => (failsBehind_constant c).measured

theorem failsBehind_pool (p : Pool) : FailsBehind (u16Bytes p.count) p.Fits p.encode :=
  (measured_constants p).failsBehind (by rintro ⟨⟩)

theorem failsBehind_member {d : Declaration} (m : Member d) :
    FailsBehind (u16Bytes m.flags.bits ++ u16Bytes m.name ++ u16Bytes m.descriptor) m.Fits
      m.encode :=
  (failsBehind_attributes m.attributes).measured.failsBehind (by rintro ⟨⟩)

theorem failsBehind_code (c : Code) :
    FailsBehind (u16Bytes c.maxStack ++ u16Bytes c.maxLocals) c.Fits c.encode := by
  have bytes := (failsBehind_longRun "code length" c.bytes).measured
  have handlers : Measured _ (counted c.handlers ExceptionEntry.encode) :=
    (failsBehind_countedAs_of_fixed _ (fun _ => rfl) c.handlers).measured
  have attributes := (failsBehind_attributes c.attributes).measured
  have parts := bytes.append (handlers.append attributes)
  have behind : FailsBehind (u16Bytes c.maxStack ++ u16Bytes c.maxLocals) _ c.encode :=
    parts.failsBehind (by rintro ⟨⟩)
  exact behind.congr ⟨fun ⟨b, h, a⟩ => ⟨b, h, a⟩, fun ⟨b, h, a⟩ => ⟨b, h, a⟩⟩

theorem failsBehind_classFile (c : ClassFile) :
    FailsBehind (ClassFile.magic ++ (u16Bytes c.version.minor ++ u16Bytes c.version.major) ++
      u16Bytes c.pool.count) c.Fits c.encode := by
  have interfaces : Measured _ (counted c.interfaces u16) :=
    (failsBehind_countedAs_of_fixed _ (fun _ => rfl) c.interfaces).measured
  have members {d : Declaration} (ms : List (Member d)) :
      Measured (FitsAll Member.Fits ms) (counted ms Member.encode) :=
    (failsBehind_countedAs _ fun m _ => (failsBehind_member m).measured).measured
  have attributes := (failsBehind_attributes c.attributes).measured
  have tables := interfaces.append
    ((members c.fields).append ((members c.methods).append attributes))
  have names : Measured _ (.u16 c.thisClass ++ (.optional16 c.superClass ++ _)) :=
    (tables.behind_put _).behind_put _
  have rest : Measured _ (c.flags.encode ++ _) := names.behind_put _
  unfold ClassFile.encode Pool.encode
  rw [append_assoc (.u16 c.pool.count)]
  have behind : FailsBehind (ClassFile.magic ++ (u16Bytes c.version.minor ++
      u16Bytes c.version.major) ++ u16Bytes c.pool.count) _ (.put _ ++ _) :=
    ((measured_constants c.pool).append rest).failsBehind (by rintro ⟨⟩)
  exact behind.congr
    ⟨fun ⟨p, i, f, m, a⟩ => ⟨p, i, f, m, a⟩, fun ⟨p, i, f, m, a⟩ => ⟨p, i, f, m, a⟩⟩

end Output

inductive Output.Kind : Type 1 where
  | fixed (α : Type) (write : α → List UInt8)
  | sequence (k : Kind)
  | bytecode
  | constant
  | pool
  | attributeInfo
  | exceptions
  | lineNumbers
  | localVariables
  | code
  | member (d : Declaration)
  | classFile

namespace Output.Kind

abbrev Value : Kind → Type
  | fixed α _ => α
  | sequence k => List k.Value
  | bytecode => List UInt8
  | constant => Constant
  | pool => Pool
  | attributeInfo => Attribute
  | exceptions => Exceptions
  | lineNumbers => LineNumberTable
  | localVariables => LocalVariableTable
  | code => Code
  | member d => Member d
  | classFile => ClassFile

def encode : (k : Kind) → k.Value → Output
  | fixed _ write, x => .put (write x)
  | sequence k, xs => .counted xs k.encode
  | bytecode, bytes => .longRun "code length" bytes
  | constant, c => c.encode
  | pool, p => p.encode
  | attributeInfo, a => a.encode
  | exceptions, t => AttributeKind.encode t
  | lineNumbers, t => AttributeKind.encode t
  | localVariables, t => AttributeKind.encode t
  | code, c => c.encode
  | member _, m => m.encode
  | classFile, c => c.encode

/-- The bytes in front of the first length that may be too large.  The length of a sequence is such a
one itself, and when it fits, it stands in front of those of the elements. -/
def head : (k : Kind) → k.Value → List UInt8
  | sequence _, xs => countBytes xs.length
  | pool, p => u16Bytes p.count
  | code, c => u16Bytes c.maxStack ++ u16Bytes c.maxLocals
  | member _, m => u16Bytes m.flags.bits ++ u16Bytes m.name ++ u16Bytes m.descriptor
  | classFile, c => ClassFile.magic ++ (u16Bytes c.version.minor ++ u16Bytes c.version.major) ++
      u16Bytes c.pool.count
  | fixed _ _, _ | bytecode, _ | constant, _ | attributeInfo, _ | exceptions, _ | lineNumbers, _
  | localVariables, _ => []

def Fits : (k : Kind) → k.Value → Prop
  | fixed _ _, _ => True
  | sequence k, xs => FitsAll k.Fits xs
  | bytecode, bytes => bytes.length < 0x100000000
  | constant, c => c.Fits
  | pool, p => p.Fits
  | attributeInfo, a => a.Fits
  | exceptions, t => t.classes.length < 0x10000
  | lineNumbers, t => t.entries.toList.length < 0x10000
  | localVariables, t => t.entries.length < 0x10000
  | code, c => c.Fits
  | member _, m => m.Fits
  | classFile, c => c.Fits

end Output.Kind

namespace Output

theorem failsBehind_encode (k : Kind) (v : k.Value) :
    FailsBehind (k.head v) (k.Fits v) (k.encode v) := by
  induction k with
  | fixed α write => exact failsBehind_put _ _
  | sequence k ih => exact failsBehind_countedAs _ fun x _ => (ih x).measured
  | bytecode => exact failsBehind_longRun _ v
  | constant => exact failsBehind_constant v
  | pool => exact failsBehind_pool v
  | attributeInfo => exact failsBehind_attribute v
  | exceptions => exact failsBehind_countedAs_of_fixed _ (fun _ => rfl) v.classes
  | lineNumbers => exact failsBehind_countedAs_of_fixed _ (fun _ => rfl) v.entries.toList
  | localVariables => exact failsBehind_countedAs_of_fixed _ (fun _ => rfl) v.entries
  | code => exact failsBehind_code v
  | member d => exact failsBehind_member v
  | classFile => exact failsBehind_classFile v

/-- A value of any kind is written unless a length in it is too large.  Then nothing has been put out
just when nothing stands in front of the first length; otherwise what stands there has been. -/
theorem written_of_failure (k : Kind) (v : k.Value) :
    ((k.encode v).failure? = none ↔ k.Fits v) ∧
      ∀ e, (k.encode v).failure? = some e →
        e.IsTooLarge ∧ k.head v <+: (k.encode v).bytes ∧
          ((k.encode v).bytes = [] ↔ k.head v = []) := by
  have behind := failsBehind_encode k v
  refine ⟨behind.measured.none_iff, fun e failed => ?_⟩
  have starts := behind.starts e failed
  refine ⟨behind.measured.tooLarge e failed, starts, fun none => ?_, behind.nothing e failed⟩
  rwa [none, List.prefix_nil] at starts

theorem counted_eq_fail {α : Type} {xs : List α} (encode : α → Output) (long : 0x10000 ≤ xs.length) :
    counted xs encode = .fail (.tooLarge "sequence length" xs.length 0xFFFF) := by
  rw [counted, countedAs, length16, if_neg (by omega)]

theorem written_of_failure_sequence :
    ((Kind.sequence (.fixed UInt8 ([·]))).encode (List.replicate 65536 0)).failure? =
      some (.tooLarge "sequence length" 65536 65535) ∧
    ((Kind.sequence (.fixed UInt8 ([·]))).encode (List.replicate 65536 0)).bytes = [] := by
  have length : (List.replicate 65536 (0 : UInt8)).length = 65536 := List.length_replicate
  have failed : ((Kind.sequence (.fixed UInt8 ([·]))).encode (List.replicate 65536 0)).failure? =
      some (.tooLarge "sequence length" 65536 65535) := by
    rw [Kind.encode, counted_eq_fail _ (Nat.le_of_eq length.symm), length]
    rfl
  have bare : (Kind.sequence (.fixed UInt8 ([·]))).head (List.replicate 65536 0) = [] := by
    rw [Kind.head, countBytes, length, if_neg (by decide)]
  exact ⟨failed, ((written_of_failure _ _).2 _ failed).2.2.mpr bare⟩

def crowded : Code := ⟨0, 0, [0xB1], List.replicate 65536 ⟨0, 1, 0, none⟩, []⟩

/-- The limits and the code array have been put out when the handlers are counted. -/
theorem written_crowded : (Kind.code.encode crowded).failure? =
      some (.tooLarge "sequence length" 65536 65535) ∧
    (Kind.code.encode crowded).bytes = [0, 0, 0, 0, 0, 0, 0, 1, 0xB1] := by
  have length : crowded.handlers.length = 65536 := List.length_replicate
  have handlers := counted_eq_fail ExceptionEntry.encode (Nat.le_of_eq length.symm)
  rw [length] at handlers
  have written : Kind.code.encode crowded = ⟨[0, 0, 0, 0, 0, 0, 0, 1, 0xB1],
      some (.tooLarge "sequence length" 65536 65535)⟩ := by
    rw [Kind.encode, Code.encode, handlers]
    rfl
  rw [written]
  exact ⟨rfl, rfl⟩

end Output

end JvmClass
