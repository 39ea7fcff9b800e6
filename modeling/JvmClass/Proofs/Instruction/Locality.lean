import JvmClass.Proofs.Instruction.Consumption
import JvmClass.Proofs.Instruction.Forms

/-! What an instruction is decoded from.  An instruction in a code array is one of its forms and the
decoder takes nothing but these, so what stands around the bytes of an instruction does not matter.
Where they stand matters only for the padding of a switch. -/

namespace JvmClass.Instruction

open Decoder

variable {code bytes rest : List UInt8} {offset start width : Nat} {i : Instruction Int32}

theorem switchPadding_congr (aligned : start % 4 = offset % 4) :
    switchPadding start = switchPadding offset := by
  unfold switchPadding
  omega

theorem encodeAt_of_flat (flat : i.isSwitch = false) : i.encodeAt start = i.encodeAt offset := by
  cases i with
  | tableSwitch | lookupSwitch => cases flat
  | _ => rfl

/-- The forms of an instruction depend on the padding only. -/
theorem Form.moved (form : Form offset bytes i)
    (same : switchPadding start = switchPadding offset) : Form start bytes i := by
  cases form with
  | narrow other flat same written =>
    exact .narrow other flat same ((encodeAt_of_flat flat).trans written)
  | wideLocal shape slot => exact .wideLocal shape slot
  | wideIncrement slot delta => exact .wideIncrement slot delta
  | tableSwitch length key => exact .tableSwitch (length.trans same.symm) key
  | lookupSwitch length few => exact .lookupSwitch (length.trans same.symm) few

theorem Form.reads (form : Form offset bytes i) : ReadsAt offset decoder bytes i := by
  cases form with
  | narrow _ _ same written => exact same ▸ (spells_of_encodeAt written).reads
  | wideLocal shape slot => exact (spells_wideLocal shape slot).reads
  | wideIncrement slot delta => exact (spells_wideIncrement slot delta).reads
  | tableSwitch length key => exact (spells_tableSwitch length key).reads
  | lookupSwitch length few => exact (spells_lookupSwitch length few).reads

theorem decodeAt_eq_ok_iff : decodeAt code offset = .ok (i, width) ↔
    decoder ⟨offset, code.drop offset⟩ = .ok (i, ⟨offset + width, code.drop (offset + width)⟩) := by
  unfold decodeAt
  constructor
  · intro here
    split at here
    · rename_i j t found
      cases here
      obtain ⟨n, _, position, rest⟩ := advances_decoder found
      obtain ⟨at?, rest'⟩ := t
      dsimp only at position rest
      subst position rest
      rw [found, List.drop_drop, Nat.add_sub_cancel_left]
    · cases here
  · intro found
    rw [found]
    simp

theorem form_of_decodeAt (here : decodeAt code offset = .ok (i, width)) :
    ∃ bytes, Form offset bytes i ∧ bytes.length = width ∧
      code.drop offset = bytes ++ code.drop (offset + width) := by
  obtain ⟨bytes, form, rest, position⟩ := form_of_decoder (decodeAt_eq_ok_iff.mp here)
  dsimp only at form rest position
  exact ⟨bytes, form, by omega, rest⟩

theorem decodeAt_of_spells (spells : Spells offset bytes i width)
    (here : code.drop offset = bytes ++ rest) : decodeAt code offset = .ok (i, width) := by
  have length := spells.length
  rw [decodeAt_eq_ok_iff, ← List.drop_drop, here, spells.reads rest, length,
    List.drop_left' length]

theorem decodeAt_iff_form : decodeAt code offset = .ok (i, width) ↔
    ∃ bytes, Form offset bytes i ∧ bytes.length = width ∧ bytes <+: code.drop offset := by
  constructor
  · intro here
    obtain ⟨bytes, form, length, split⟩ := form_of_decodeAt here
    exact ⟨bytes, form, length, _, split.symm⟩
  · rintro ⟨bytes, form, length, rest, split⟩
    exact decodeAt_of_spells ⟨form.reads, length⟩ split.symm

theorem bounds_of_decodeAt (here : decodeAt code offset = .ok (i, width)) :
    1 ≤ width ∧ offset + width ≤ code.length := by
  obtain ⟨later, whole⟩ := position_of_decoder (decodeAt_eq_ok_iff.mp here)
  dsimp only at later whole
  rw [List.length_drop, List.length_drop] at whole
  omega

/-- What is written for an instruction has its width, and is decoded as the instruction in whatever
code it is put into.  What is decoded of a code array depends on the bytes of the instruction only,
and on how its offset is aligned. -/
theorem decodeAt_local :
    (∀ (i : Instruction Int32) offset bytes, i.encodeAt offset = .ok bytes →
      bytes.length = i.widthAt offset ∧
        ∀ code, bytes <+: code.drop offset →
          decodeAt code offset = .ok (i.reread, i.widthAt offset)) ∧
      ∀ code offset i width, decodeAt code offset = .ok (i, width) →
        1 ≤ width ∧ offset + width ≤ code.length ∧
          ∀ other start, start % 4 = offset % 4 →
            (code.drop offset).take width <+: other.drop start →
              decodeAt other start = .ok (i, width) := by
  refine ⟨fun i offset bytes written => ?_, fun code offset i width here => ?_⟩
  · have spells := spells_of_encodeAt written
    refine ⟨spells.length, fun code there => ?_⟩
    obtain ⟨rest, split⟩ := there
    exact decodeAt_of_spells spells split.symm
  · obtain ⟨some, inside⟩ := bounds_of_decodeAt here
    refine ⟨some, inside, fun other start aligned there => ?_⟩
    obtain ⟨bytes, form, length, split⟩ := decodeAt_iff_form.mp here
    rw [← length, ← List.prefix_iff_eq_take.mp split] at there
    exact decodeAt_iff_form.mpr ⟨bytes, form.moved (switchPadding_congr aligned), length, there⟩

/-- A constant that is loaded with the wide instruction, and a switch with bytes other than zeros
in front of its operands that is moved on by four. -/
theorem decodeAt_local_constant_and_switch :
    (constant .ldc 300 : Instruction Int32).encodeAt 1 = .ok [0x13, 1, 0x2c] ∧
      decodeAt [0, 0x13, 1, 0x2c, 0xb1] 1 = .ok (constant .ldcWide 300, 3) ∧
      decodeAt [0xab, 1, 2, 3, 0, 0, 0, 9, 0, 0, 0, 0, 0xb1] 0 = .ok (lookupSwitch ⟨9, []⟩, 12) ∧
      decodeAt [0, 0, 0, 0, 0xab, 1, 2, 3, 0, 0, 0, 9, 0, 0, 0, 0] 4 =
        .ok (lookupSwitch ⟨9, []⟩, 12) := by
  have written : (constant .ldc 300 : Instruction Int32).encodeAt 1 = .ok [0x13, 1, 0x2c] := by
    decide +kernel
  have first : decodeAt [0xab, 1, 2, 3, 0, 0, 0, 9, 0, 0, 0, 0, 0xb1] 0 =
      .ok (lookupSwitch ⟨9, []⟩, 12) := by
    decide +kernel
  obtain ⟨_, put⟩ := decodeAt_local.1 _ 1 _ written
  obtain ⟨_, _, moved⟩ := decodeAt_local.2 _ 0 _ _ first
  exact ⟨written, put _ ⟨[0xb1], rfl⟩, first, moved _ 4 rfl ⟨[], rfl⟩⟩

end JvmClass.Instruction
