import JvmClass.Attribute.Code
import JvmClass.Proofs.Attribute.Tables
import JvmClass.Proofs.ClassFile.Rereading

/-! The contents of attributes of known kinds.  All of them are read from just the bytes that are
written for them.  Only an index that may be absent has a value that is never read: zero stands for
its absence, so an index of zero is lost when it is written. -/

namespace JvmClass

open Decoder Output

/-- Bytes are the contents of an attribute of the kind just when they are written for the value that
they hold, which is a suitable one. -/
def AttributeKind.Inverse (α : Type) [AttributeKind α] (suits : α → Prop) : Prop :=
  ∀ bytes (a : α), (decoder : Decoder α).decode bytes = .ok a ↔
    suits a ∧ (encode a).toExcept = .ok bytes

namespace Decoder

theorem exact_longRun (what : String) :
    Exact Decoder.longRun (Output.longRun what) fun _ => True := by
  refine (accepts_bind accepts_u32 fun n => accepts_run n.toNat).congr fun bytes held => ?_
  rw [longRun_eq_put_iff]
  constructor
  · rintro ⟨n, _, _, rfl, ⟨rfl, length⟩, rfl⟩
    exact ⟨trivial, n, length.symm, rfl⟩
  · rintro ⟨_, n, length, rfl⟩
    exact ⟨n, _, held, rfl, ⟨rfl, length.symm⟩, rfl⟩

theorem exact_optional16 : Exact Decoder.optional16 Output.optional16 fun i => i ≠ some 0 := by
  have each (w : UInt16) : Accepts (pure (if w = 0 then none else some w)) fun bytes i =>
      bytes = [] ∧ i = if w = 0 then none else some w := accepts_pure _
  refine (accepts_bind accepts_u16 each).congr fun bytes i => ?_
  constructor
  · rintro ⟨w, _, _, rfl, ⟨rfl, rfl⟩, rfl⟩
    rw [List.append_nil]
    by_cases zero : w = 0
    · subst zero
      exact ⟨by simp, rfl⟩
    · rw [if_neg zero]
      exact ⟨fun same => zero (Option.some.inj same), rfl⟩
  · rintro ⟨present, written⟩
    refine ⟨i.getD 0, bytes, [], (put_injective written).symm, ⟨rfl, ?_⟩,
      (List.append_nil bytes).symm⟩
    cases i with
    | none => rfl
    | some w => exact (if_neg fun zero => present (congrArg some zero)).symm

end Decoder

theorem Attribute.exact_decoder : Exact decoder encode fun _ => True := by
  refine accepts_decoder.congr fun bytes a =>
    ⟨?_, fun both => writes_attribute a bytes trivial both.2⟩
  rintro ⟨a, ⟨rfl, short⟩, rfl⟩
  have length : length32 "attribute length" a.info.length = .ok a.info.length.toUInt32 :=
    if_pos short
  rw [encode, length]
  exact ⟨trivial, rfl⟩

theorem ExceptionEntry.exact_decoder : Exact decoder encode fun e => e.catches ≠ some 0 := by
  unfold decoder encode
  simp only [append_assoc]
  refine exact_field ExceptionEntry.start exact_u16 (fun _ _ => trivial) fun start _ => ?_
  refine exact_field ExceptionEntry.stop exact_u16 (fun _ _ => trivial) fun stop _ => ?_
  refine exact_field ExceptionEntry.handler exact_u16 (fun _ _ => trivial) fun handler _ => ?_
  refine exact_last ExceptionEntry.catches exact_optional16 (fun _ suitable => suitable.1.1.1)
    fun catches present e => ?_
  constructor
  · rintro ⟨⟨⟨⟨_, rfl⟩, rfl⟩, rfl⟩, rfl⟩
    rfl
  · rintro rfl
    exact ⟨⟨⟨⟨present, rfl⟩, rfl⟩, rfl⟩, rfl⟩

namespace Code

/-- No handler is for the exceptions of the class at index zero, which is not there. -/
def Indexed (c : Code) : Prop := ∀ e ∈ c.handlers, e.catches ≠ some 0

theorem exact_decoder : Exact decoder encode Indexed := by
  unfold decoder encode
  refine exact_field Code.maxStack exact_u16 (fun _ _ => trivial) fun maxStack _ => ?_
  refine exact_field Code.maxLocals exact_u16 (fun _ _ => trivial) fun maxLocals _ => ?_
  refine exact_field Code.bytes (exact_longRun "code length") (fun _ _ => trivial) fun bytes _ => ?_
  refine exact_field Code.handlers (exact_counted ExceptionEntry.exact_decoder)
    (fun _ suitable => suitable.1.1.1) fun handlers indexed => ?_
  refine exact_last Code.attributes (exact_counted Attribute.exact_decoder)
    (fun _ _ _ _ => trivial) fun attributes _ c => ?_
  constructor
  · rintro ⟨⟨⟨⟨⟨_, rfl⟩, rfl⟩, rfl⟩, rfl⟩, rfl⟩
    rfl
  · rintro rfl
    exact ⟨⟨⟨⟨⟨indexed, rfl⟩, rfl⟩, rfl⟩, rfl⟩, rfl⟩

end Code

/-- Reading and writing the contents of an attribute of a known kind undo each other, code with a
handler for the class at index zero apart. -/
theorem inverse_contents :
    AttributeKind.Inverse Code Code.Indexed ∧
      AttributeKind.Inverse LineNumberTable (fun _ => True) ∧
      AttributeKind.Inverse LocalVariableTable (fun _ => True) ∧
      AttributeKind.Inverse Exceptions (fun _ => True) ∧
      AttributeKind.Inverse ConstantValue (fun _ => True) ∧
      AttributeKind.Inverse SourceFile (fun _ => True) := by
  have exceptions := exact_table Exceptions.mk Exceptions.classes "sequence length" exact_u16
    (fun _ => rfl) fun _ => rfl
  have constant := exact_map ConstantValue.mk ConstantValue.constant exact_u16
    (fun _ => rfl) fun _ => rfl
  have file := exact_map SourceFile.mk SourceFile.name exact_u16 (fun _ => rfl) fun _ => rfl
  exact ⟨fun _ _ => Code.exact_decoder.decode_eq_ok_iff,
    fun _ _ => exact_lineNumberTable.decode_eq_ok_iff,
    fun _ _ => exact_localVariableTable.decode_eq_ok_iff,
    fun _ _ => exceptions.decode_eq_ok_iff, fun _ _ => constant.decode_eq_ok_iff,
    fun _ _ => file.decode_eq_ok_iff⟩

example : (ExceptionEntry.encode ⟨0, 1, 2, some 0⟩).toExcept = .ok [0, 0, 0, 1, 0, 2, 0, 0] ∧
    ExceptionEntry.decoder.decode [0, 0, 0, 1, 0, 2, 0, 0] = .ok ⟨0, 1, 2, none⟩ := by
  decide +kernel

end JvmClass
