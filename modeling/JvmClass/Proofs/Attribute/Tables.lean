import JvmClass.Attribute.Tables
import JvmClass.Proofs.Pool.History
import JvmClass.Proofs.Wire.Exact

/-! Lines and local variables as attributes.  What is written of a table is read as the table, and
an attribute that is added for it has the name that belongs to it. -/

namespace JvmClass

open Decoder Output

/-- Whatever is written as an attribute of the kind is read back. -/
def AttributeKind.Faithful (α : Type) [AttributeKind α] : Prop :=
  ∀ (a : α) bytes, encode a = .put bytes → (decoder : Decoder α).decode bytes = .ok a

theorem Decoder.Exact.faithful {α : Type} [AttributeKind α]
    (exact : Exact AttributeKind.decoder AttributeKind.encode fun _ : α => True) :
    AttributeKind.Faithful α :=
  fun _ _ written => exact.decode_eq_ok_iff.mpr ⟨trivial, toExcept_eq_ok_iff.mpr written⟩

theorem exists_put_countedAs {α : Type} {encode : α → Output} {write : α → List UInt8}
    {what : String} {as : List α} (puts : ∀ a, encode a = .put (write a))
    (short : as.length < 65536) : ∃ bytes, countedAs what as encode = .put bytes := by
  have all (as : List α) : concat (as.map encode) = .put (as.flatMap write) := by
    induction as with
    | nil => rfl
    | cons a as ih => rw [concat_map_cons, puts, ih, put_append_put, List.flatMap_cons]
  exact ⟨_, countedAs_eq_put_iff.mpr
    ⟨as.length.toUInt16, UInt16.toNat_ofNat_of_lt' short, _, all as, rfl⟩⟩

theorem exact_lineNumber : Exact LineNumber.decoder LineNumber.encode fun _ => True := by
  unfold LineNumber.decoder LineNumber.encode
  refine exact_field LineNumber.start exact_u16 (fun _ _ => trivial) fun start _ => ?_
  refine exact_last LineNumber.line exact_u16 (fun _ _ => trivial) fun line _ n => ?_
  obtain ⟨start', line'⟩ := n
  simp

theorem exact_lineNumberTable :
    Exact AttributeKind.decoder AttributeKind.encode fun _ : LineNumberTable => True :=
  exact_table (fun ns => LineNumberTable.mk ns.toArray) (fun t => t.entries.toList)
    "line number table length" exact_lineNumber (fun _ => rfl) fun _ => rfl

theorem exists_put_lineNumberTable (t : LineNumberTable) (short : t.entries.toList.length < 65536) :
    ∃ bytes, AttributeKind.encode t = .put bytes :=
  exists_put_countedAs (fun _ => rfl) short

theorem faithful_lineNumberTable : AttributeKind.Faithful LineNumberTable :=
  exact_lineNumberTable.faithful

def LocalVariable.bytes (v : LocalVariable) : List UInt8 :=
  u16Bytes v.start ++ (u16Bytes v.length ++ (u16Bytes v.name ++
    (u16Bytes v.descriptor ++ u16Bytes v.slot)))

theorem LocalVariable.encode_eq_put (v : LocalVariable) : v.encode = .put v.bytes := by
  simp only [encode, Output.u16, put_append_put, bytes, List.append_assoc]

theorem exact_localVariable :
    Exact LocalVariable.decoder LocalVariable.encode fun _ => True := by
  unfold LocalVariable.decoder LocalVariable.encode
  simp only [append_assoc]
  refine exact_field LocalVariable.start exact_u16 (fun _ _ => trivial) fun start _ => ?_
  refine exact_field LocalVariable.length exact_u16 (fun _ _ => trivial) fun length _ => ?_
  refine exact_field LocalVariable.name exact_u16 (fun _ _ => trivial) fun name _ => ?_
  refine exact_field LocalVariable.descriptor exact_u16 (fun _ _ => trivial) fun descriptor _ => ?_
  refine exact_last LocalVariable.slot exact_u16 (fun _ _ => trivial) fun slot _ v => ?_
  obtain ⟨start', length', name', descriptor', slot'⟩ := v
  simp [and_assoc]

theorem exact_localVariableTable :
    Exact AttributeKind.decoder AttributeKind.encode fun _ : LocalVariableTable => True :=
  exact_table LocalVariableTable.mk LocalVariableTable.entries "sequence length"
    exact_localVariable (fun _ => rfl) fun _ => rfl

theorem exists_put_localVariableTable (t : LocalVariableTable) (short : t.entries.length < 65536) :
    ∃ bytes, AttributeKind.encode t = .put bytes :=
  exists_put_countedAs LocalVariable.encode_eq_put short

theorem faithful_localVariableTable : AttributeKind.Faithful LocalVariableTable :=
  exact_localVariableTable.faithful

namespace Pool

variable {α : Type} [AttributeKind α] {p q : Pool} {a : α} {held : Attribute}

theorem Follows.getUtf8 {i : UInt16} {s : String} (follows : p.Follows q) (lawful : p.Lawful)
    (found : p.getUtf8 i = .ok s) : q.getUtf8 i = .ok s := by
  obtain ⟨c, here, found⟩ := bind_eq_ok found
  unfold Pool.getUtf8
  rw [follows.get lawful here]
  exact found

theorem title_of_addAttribute (lawful : p.Lawful) (faithful : AttributeKind.Faithful α)
    (added : addAttribute a p = .ok held q) : p.Follows q ∧
      held.title q = .ok (AttributeKind.title α) ∧ held.value α = .ok a := by
  have adds : Adds (addAttribute a) := fun _ => follows_run (.attributeOf a)
  have follows := adds.follows lawful added
  obtain ⟨name, p', named, added⟩ := run_bind_eq_ok added
  obtain ⟨info, p'', written, added⟩ := run_bind_eq_ok added
  cases added
  obtain ⟨encoded, rfl⟩ := liftExcept_eq_ok_iff.mp written
  refine ⟨follows, ?_, ?_⟩
  · unfold Attribute.title Pool.getUtf8
    rw [lawful.get_of_add named]
    rfl
  · unfold Attribute.value
    rw [faithful a info (toExcept_eq_ok_iff.mp encoded)]
    rfl

end Pool

end JvmClass
