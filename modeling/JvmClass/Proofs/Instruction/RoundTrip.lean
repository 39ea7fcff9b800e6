import JvmClass.Instruction.Codec
import JvmClass.Proofs.Wire.Reads

/-! Instructions written and read again.  The bytes of an instruction are as many as its width,
and the decoder takes exactly them and gives the instruction back.  A constant index above 255
makes `ldc` the wide form of itself, which is the one thing that changes. -/

namespace JvmClass

namespace Opcode

theorem row_of_entry? {op : Opcode} {e : Entry} (known : op.entry? = some e) :
    ∃ n, (e, n) ∈ table.toList.zipIdx ∧ op = ⟨UInt8.ofNat n⟩ := by
  refine ⟨op.code.toNat, ?_, by rw [UInt8.ofNat_toNat]⟩
  rw [List.mem_zipIdx_iff_getElem?, Array.getElem?_toList]
  exact known

theorem row_of_shape? {op : Opcode} {shape : OperandShape} (known : op.shape? = some shape) :
    ∃ e n, (e, n) ∈ table.toList.zipIdx ∧ op = ⟨UInt8.ofNat n⟩ ∧ e.shape = shape := by
  obtain ⟨e, entry, same⟩ := Option.map_eq_some_iff.mp known
  obtain ⟨n, row, code⟩ := row_of_entry? entry
  exact ⟨e, n, row, code, same⟩

theorem eq_ldc_of_shape {op : Opcode} (short : op.shape? = some .shortConstant) : op = .ldc := by
  have only : ∀ row ∈ table.toList.zipIdx, row.1.shape = .shortConstant →
      (⟨UInt8.ofNat row.2⟩ : Opcode) = .ldc := by
    decide +kernel
  obtain ⟨e, n, row, rfl, same⟩ := row_of_shape? short
  exact only (e, n) row same

theorem isWidenable_of_shape {op : Opcode} (explicit : op.shape? = some .local) :
    op.isWidenable := by
  have only : ∀ row ∈ table.toList.zipIdx, row.1.shape = .local →
      isWidenable ⟨UInt8.ofNat row.2⟩ := by
    decide +kernel
  obtain ⟨e, n, row, rfl, same⟩ := row_of_shape? explicit
  exact only (e, n) row same

theorem ne_iinc_of_shape {op : Opcode} (explicit : op.shape? = some .local) : op ≠ .iinc := by
  rintro rfl
  exact absurd explicit (by decide +kernel)

end Opcode

theorem toUInt16_toUInt8_of_le {v : UInt16} (small : v ≤ 255) : v.toUInt8.toUInt16 = v := by
  have bound : v.toNat ≤ 255 := by simpa using UInt16.le_iff_toNat_le.mp small
  apply UInt16.toNat_inj.mp
  rw [UInt8.toNat_toUInt16, UInt16.toNat_toUInt8]
  omega

theorem toInt16_toInt8_of_fits {d : Int16} (fits : fitsByte d.toInt) :
    d.toInt8.toInt16 = d := by
  simp only [fitsByte, Bool.and_eq_true, decide_eq_true_eq] at fits
  apply Int16.toInt_inj.mp
  rw [Int8.toInt_toInt16, Int16.toInt_toInt8]
  exact Int.bmod_eq_of_le (by omega) (by omega)

theorem toInt32_toInt16_of_fits {t : Int32} (fits : fitsShort t.toInt) :
    t.toInt16.toInt32 = t := by
  simp only [fitsShort, Bool.and_eq_true, decide_eq_true_eq] at fits
  apply Int32.toInt_inj.mp
  rw [Int16.toInt_toInt32, Int32.toInt_toInt16]
  exact Int.bmod_eq_of_le (by omega) (by omega)

namespace Instruction

open Decoder Output

variable {τ σ : Type}

def reread : Instruction τ → Instruction τ
  | constant op i => if op = .ldc ∧ 255 < i then constant .ldcWide i else constant op i
  | i => i

@[simp] theorem targets_reread (i : Instruction τ) : i.reread.targets = i.targets := by
  cases i <;> simp only [reread]
  split <;> rfl

theorem reread_map (f : τ → σ) (i : Instruction τ) : (i.map f).reread = i.reread.map f := by
  cases i <;> simp only [reread, map]
  split <;> rfl

theorem readsAt_decoder {offset : Nat} {code : UInt8} {bytes : List UInt8} {i : Instruction Int32}
    (reads : ReadsAt (offset + 1) (operands offset ⟨code⟩) bytes i) :
    ReadsAt offset decoder (code :: bytes) i := by
  have start : ReadsAt offset position [] offset := fun _ => rfl
  have opcode :=
    readsAt_bind (f := fun code => operands offset ⟨code⟩) (reads_byte code offset) reads
  have whole :=
    readsAt_bind (f := fun offset => byte >>= fun code => operands offset ⟨code⟩) start opcode
  exact whole

/-- The bytes at an offset are an instruction of the given width. -/
structure Spells (offset : Nat) (bytes : List UInt8) (i : Instruction Int32) (width : Nat) :
    Prop where
  reads : ReadsAt offset decoder bytes i
  length : bytes.length = width

theorem spells_of_operands {offset width : Nat} {op : Opcode} {bytes : List UInt8}
    {i : Instruction Int32} (reads : ReadsAt (offset + 1) (operands offset op) bytes i)
    (length : bytes.length + 1 = width) : Spells offset (op.code :: bytes) i width where
  reads := by
    cases op
    exact readsAt_decoder reads
  length := length

section Shapes

variable {offset : Nat} {op : Opcode}

theorem spells_plain (shape : op.shape? = some .none) : Spells offset [op.code] (plain op) 1 := by
  refine spells_of_operands ?_ rfl
  unfold operands
  rw [shape]
  exact readsAt_pure _

theorem spells_bipush (v : Int8) : Spells offset [Opcode.bipush.code, v.toUInt8] (bipush v) 2 := by
  have shape : Opcode.bipush.shape? = some .byte := by cbv
  refine spells_of_operands ?_ rfl
  unfold operands
  rw [shape]
  exact readsAt_map bipush (reads_i8 v _)

theorem spells_sipush (v : Int16) :
    Spells offset (Opcode.sipush.code :: u16Bytes v.toUInt16) (sipush v) 3 := by
  have shape : Opcode.sipush.shape? = some .short := by cbv
  refine spells_of_operands ?_ rfl
  unfold operands
  rw [shape]
  exact readsAt_map sipush (reads_i16 v _)

theorem spells_shortConstant {index : UInt16} (small : index ≤ 255) :
    Spells offset [Opcode.ldc.code, index.toUInt8] (constant .ldc index) 2 := by
  have shape : Opcode.ldc.shape? = some .shortConstant := by cbv
  refine spells_of_operands ?_ rfl
  unfold operands
  rw [shape]
  have read := readsAt_map (fun b : UInt8 => constant (τ := Int32) .ldc b.toUInt16)
    (reads_byte index.toUInt8 (offset + 1))
  rwa [toUInt16_toUInt8_of_le small] at read

theorem spells_constant (shape : op.shape? = some .constant) (index : UInt16) :
    Spells offset (op.code :: u16Bytes index) (constant op index) 3 := by
  refine spells_of_operands ?_ rfl
  unfold operands
  rw [shape]
  exact readsAt_map (constant op) (reads_u16 index _)

theorem spells_shortLocal (shape : op.shape? = some .local) {slot : UInt16} (small : slot ≤ 255) :
    Spells offset [op.code, slot.toUInt8] (localVariable op slot) 2 := by
  refine spells_of_operands ?_ rfl
  unfold operands
  rw [shape]
  have read := readsAt_map (fun b : UInt8 => localVariable (τ := Int32) op b.toUInt16)
    (reads_byte slot.toUInt8 (offset + 1))
  rwa [toUInt16_toUInt8_of_le small] at read

theorem spells_widened {width : Nat} {bytes : List UInt8} {i : Instruction Int32}
    (reads : Reads (widened offset) bytes i) (length : bytes.length + 1 = width) :
    Spells offset (Opcode.wide.code :: bytes) i width := by
  have shape : Opcode.wide.shape? = some .wide := by cbv
  refine spells_of_operands ?_ length
  unfold operands
  rw [shape]
  exact reads _

theorem spells_wideLocal (shape : op.shape? = some .local) (slot : UInt16) :
    Spells offset (Opcode.wide.code :: op.code :: u16Bytes slot) (localVariable op slot) 4 := by
  refine spells_widened ?_ rfl
  refine reads_bind (reads_byte op.code) ?_
  change Reads (if op = .iinc then _ else _) _ _
  rw [if_neg (Opcode.ne_iinc_of_shape shape), if_pos (Opcode.isWidenable_of_shape shape)]
  exact reads_map (localVariable op) (reads_u16 slot)

theorem spells_shortIncrement {slot : UInt16} {delta : Int16} (small : slot ≤ 255)
    (fits : fitsByte delta.toInt) :
    Spells offset [Opcode.iinc.code, slot.toUInt8, delta.toInt8.toUInt8] (increment slot delta)
      3 := by
  have shape : Opcode.iinc.shape? = some .increment := by cbv
  refine spells_of_operands ?_ rfl
  unfold operands
  rw [shape]
  refine readsAt_bind (reads_byte slot.toUInt8 _) ?_
  have read := reads_return (fun d : Int8 => increment (τ := Int32) slot.toUInt8.toUInt16 d.toInt16)
    (reads_i8 delta.toInt8)
  rw [toUInt16_toUInt8_of_le small, toInt16_toInt8_of_fits fits] at read
  rw [toUInt16_toUInt8_of_le small]
  exact read _

theorem spells_wideIncrement (slot : UInt16) (delta : Int16) :
    Spells offset
      (Opcode.wide.code :: Opcode.iinc.code :: (u16Bytes slot ++ u16Bytes delta.toUInt16))
      (increment slot delta) 6 := by
  refine spells_widened ?_ rfl
  refine reads_bind (reads_byte Opcode.iinc.code) ?_
  exact reads_bind (reads_u16 slot) (reads_return (increment slot) (reads_i16 delta))

theorem spells_interfaceCall (method : UInt16) (count : UInt8) :
    Spells offset (Opcode.invokeinterface.code :: (u16Bytes method ++ [count, 0]))
      (interfaceCall method count) 5 := by
  have shape : Opcode.invokeinterface.shape? = some .interfaceCall := by cbv
  refine spells_of_operands ?_ rfl
  unfold operands
  rw [shape]
  refine readsAt_bind (reads_u16 method _) (readsAt_bind (reads_byte count _) ?_)
  exact readsAt_bind (reads_byte 0 _) (readsAt_pure _)

theorem spells_dynamicCall (index : UInt16) :
    Spells offset (Opcode.invokedynamic.code :: (u16Bytes index ++ [0, 0])) (dynamicCall index)
      5 := by
  have shape : Opcode.invokedynamic.shape? = some .dynamicCall := by cbv
  refine spells_of_operands ?_ rfl
  unfold operands
  rw [shape]
  refine readsAt_bind (reads_u16 index _) ?_
  exact readsAt_bind (reads_u16 0 _) (readsAt_pure _)

theorem spells_newArray (element : BaseType) :
    Spells offset [Opcode.newarray.code, element.arrayCode] (newArray element) 2 := by
  have shape : Opcode.newarray.shape? = some .newArray := by cbv
  refine spells_of_operands ?_ rfl
  unfold operands
  rw [shape]
  refine readsAt_bind (reads_byte element.arrayCode _) ?_
  rw [BaseType.ofArrayCode?_arrayCode]
  exact readsAt_pure _

theorem spells_multiArray (type : UInt16) (dimensions : UInt8) :
    Spells offset (Opcode.multianewarray.code :: (u16Bytes type ++ [dimensions]))
      (multiArray type dimensions) 4 := by
  have shape : Opcode.multianewarray.shape? = some .multiArray := by cbv
  refine spells_of_operands ?_ rfl
  unfold operands
  rw [shape]
  refine readsAt_bind (reads_u16 type _) ?_
  exact reads_return (multiArray type) (reads_byte dimensions) _

theorem spells_shortBranch (shape : op.shape? = some .branch) {target : Int32}
    (fits : fitsShort target.toInt) :
    Spells offset (op.code :: u16Bytes target.toInt16.toUInt16) (branch op target) 3 := by
  refine spells_of_operands ?_ rfl
  unfold operands
  rw [shape]
  have read := readsAt_map (fun d : Int16 => branch op d.toInt32)
    (reads_i16 target.toInt16 (offset + 1))
  rwa [toInt32_toInt16_of_fits fits] at read

theorem spells_wideBranch (shape : op.shape? = some .wideBranch) (target : Int32) :
    Spells offset (op.code :: i32Bytes target) (branch op target) 5 := by
  refine spells_of_operands ?_ rfl
  unfold operands
  rw [shape]
  exact readsAt_map (branch op) (reads_i32 target _)

end Shapes

section Switches

variable {offset : Nat}

theorem reads_skipPadding {skipped : List UInt8} (length : skipped.length = switchPadding offset) :
    Reads (skipPadding offset) skipped skipped := by
  have read : Reads (times skipped.length byte) (skipped.flatMap fun b => [b]) skipped :=
    reads_times fun b _ => reads_byte b
  rwa [List.flatMap_singleton', length] at read

@[simp] theorem length_padding : (padding offset).length = switchPadding offset :=
  List.length_replicate

@[simp] theorem length_i32Bytes (n : Int32) : (i32Bytes n).length = 4 := rfl

@[simp] theorem length_flatMap_i32Bytes (ts : List Int32) :
    (ts.flatMap i32Bytes).length = 4 * ts.length := by
  induction ts with
  | nil => rfl
  | cons t ts ih =>
    simp only [List.flatMap_cons, List.length_append, length_i32Bytes, ih, List.length_cons]
    omega

def pairBytes (pair : Int32 × Int32) : List UInt8 := i32Bytes pair.1 ++ i32Bytes pair.2

@[simp] theorem length_flatMap_pairBytes (pairs : List (Int32 × Int32)) :
    (pairs.flatMap pairBytes).length = 8 * pairs.length := by
  induction pairs with
  | nil => rfl
  | cons pair pairs ih =>
    simp only [List.flatMap_cons, List.length_append, pairBytes, length_i32Bytes, ih,
      List.length_cons]
    omega

theorem readsAt_checkRoom {position count size : Nat} {entries : Decoder (Instruction Int32)}
    {bytes : List UInt8} {i : Instruction Int32} (room : bytes.length = count * size)
    (reads : ReadsAt position entries bytes i) :
    ReadsAt position (do checkRoom offset count size; entries) bytes i := by
  intro rest
  change (checkRoom offset count size ⟨position, bytes ++ rest⟩ >>= fun p => entries p.2) = _
  have taken : ((bytes ++ rest).take (count * size)).length = count * size := by
    rw [← room, List.take_left' rfl]
  have enough : ¬ ((bytes ++ rest).take (count * size)).length < count * size := by omega
  rw [checkRoom, if_neg enough]
  exact reads rest

theorem toInt_highKey {low high : Int32} {count : Nat} (key : highKey? low count = some high) :
    0 < count ∧ high.toInt = low.toInt + count - 1 := by
  simp only [highKey?] at key
  split at key
  · rename_i fits
    cases key
    have least := low.le_toInt
    exact ⟨fits.1, Int32.toInt_ofInt_of_le (by omega) (by omega)⟩
  · cases key

theorem spells_tableSwitch {skipped : List UInt8} {default low high : Int32} {targets : List Int32}
    (length : skipped.length = switchPadding offset)
    (key : highKey? low targets.length = some high) :
    Spells offset (Opcode.tableswitch.code :: (skipped ++ (i32Bytes default ++
        (i32Bytes low ++ (i32Bytes high ++ targets.flatMap i32Bytes)))))
      (tableSwitch default low targets) (1 + switchPadding offset + 12 + 4 * targets.length) := by
  have shape : Opcode.tableswitch.shape? = some .tableSwitch := by cbv
  obtain ⟨some, greatest⟩ := toInt_highKey key
  have count : (high.toInt - low.toInt + 1).toNat = targets.length := by omega
  have ordered : ¬ high < low := by
    rw [Int32.lt_iff_toInt_lt]
    omega
  refine spells_of_operands ?_ ?_
  · unfold operands
    rw [shape]
    refine readsAt_bind (reads_skipPadding length _) (readsAt_bind (reads_i32 default _)
      (readsAt_bind (reads_i32 low _) (readsAt_bind (reads_i32 high _) ?_)))
    simp only [if_neg ordered, count]
    refine readsAt_checkRoom (by rw [length_flatMap_i32Bytes, Nat.mul_comm]) ?_
    exact reads_return (tableSwitch default low) (reads_times fun t _ => reads_i32 t) _
  · simp only [List.length_append, length, length_i32Bytes, length_flatMap_i32Bytes]
    omega

theorem reads_keyAndTarget (pair : Int32 × Int32) : Reads keyAndTarget (pairBytes pair) pair :=
  reads_bind (reads_i32 pair.1) (reads_return (pair.1, ·) (reads_i32 pair.2))

theorem spells_lookupSwitch {skipped : List UInt8} {s : Select Int32}
    (length : skipped.length = switchPadding offset) (few : s.pairs.length ≤ 0x7FFFFFFF) :
    Spells offset (Opcode.lookupswitch.code :: (skipped ++ (i32Bytes s.default ++
        (u32Bytes s.pairs.length.toUInt32 ++ s.pairs.flatMap pairBytes))))
      (lookupSwitch s) (1 + switchPadding offset + 8 + 8 * s.pairs.length) := by
  have shape : Opcode.lookupswitch.shape? = some .lookupSwitch := by cbv
  have count : (Int32.ofNat s.pairs.length).toInt = s.pairs.length :=
    Int32.toInt_ofNat_of_lt (by omega)
  have written : (Int32.ofNat s.pairs.length).toUInt32 = s.pairs.length.toUInt32 := rfl
  have positive : ¬ Int32.ofNat s.pairs.length < 0 := by
    rw [Int32.lt_iff_toInt_lt, count]
    simp
  refine spells_of_operands ?_ ?_
  · unfold operands
    rw [shape, ← written]
    refine readsAt_bind (reads_skipPadding length _) (readsAt_bind (reads_i32 s.default _)
      (readsAt_bind (reads_i32 (Int32.ofNat s.pairs.length) _) ?_))
    simp only [if_neg positive, count, Int.toNat_natCast]
    refine readsAt_checkRoom (by rw [length_flatMap_pairBytes, Nat.mul_comm]) ?_
    exact reads_return (fun pairs => lookupSwitch ⟨s.default, pairs⟩)
      (reads_times fun pair _ => reads_keyAndTarget pair) _
  · simp only [List.length_append, length, length_i32Bytes, length_flatMap_pairBytes]
    have four : (u32Bytes s.pairs.length.toUInt32).length = 4 := rfl
    omega

end Switches

def takes (shape : OperandShape) : Instruction τ → Bool
  | plain _ => shape == .none
  | constant _ _ => shape == .constant || shape == .shortConstant
  | localVariable _ _ => shape == .local
  | branch _ _ => shape == .branch || shape == .wideBranch
  | _ => true

theorem takes_of_checkShape {i : Instruction τ} (checked : i.checkShape = .ok ()) :
    ∃ shape, i.opcode.shape? = some shape ∧ i.takes shape := by
  unfold checkShape at checked
  conv at checked => lhs; zeta
  cases known : i.opcode.shape? with
  | none =>
    rw [known] at checked
    cases checked
  | some shape =>
    rw [known] at checked
    refine ⟨shape, rfl, ?_⟩
    by_cases fits : i.takes shape
    · exact fits
    · change (if i.takes shape then _ else _) = _ at checked
      rw [if_neg fits] at checked
      cases checked

section Written

variable {offset : Nat} {op : Opcode} {bytes : List UInt8}

theorem spells_constant_of_written {index : UInt16} {shape : OperandShape}
    (known : op.shape? = some shape) (fits : (constant op index : Instruction Int32).takes shape)
    (written : (if op = .ldc ∧ index ≤ 255 then .ok [op.code, index.toUInt8]
      else .ok ((if op = .ldc then Opcode.ldcWide.code else op.code) :: u16Bytes index) :
        Except Error (List UInt8)) = .ok bytes) :
    Spells offset bytes (constant op index).reread
      ((constant op index : Instruction Int32).widthAt offset) := by
  by_cases short : op = .ldc ∧ index ≤ 255
  · rw [if_pos short] at written
    cases written
    obtain ⟨rfl, small⟩ := short
    rw [reread, if_neg (by simpa using small), widthAt, if_pos ⟨rfl, small⟩]
    exact spells_shortConstant small
  · rw [if_neg short] at written
    cases written
    rw [widthAt, if_neg short, reread]
    by_cases wide : op = .ldc
    · have large : 255 < index := by simpa [wide] using short
      have shape : Opcode.ldcWide.shape? = some .constant := by cbv
      rw [if_pos wide, if_pos ⟨wide, large⟩]
      exact spells_constant shape index
    · rw [if_neg wide, if_neg fun both => wide both.1]
      rcases Bool.or_eq_true_iff.mp fits with fit | fit <;> rw [eq_of_beq fit] at known
      · exact spells_constant known index
      · exact absurd (Opcode.eq_ldc_of_shape known) wide

theorem spells_local_of_written {slot : UInt16} (known : op.shape? = some .local)
    (written : (if slot ≤ 255 then .ok [op.code, slot.toUInt8]
      else .ok (Opcode.wide.code :: op.code :: u16Bytes slot) : Except Error (List UInt8)) =
        .ok bytes) :
    Spells offset bytes (localVariable op slot)
      ((localVariable op slot : Instruction Int32).widthAt offset) := by
  by_cases small : slot ≤ 255
  · rw [if_pos small] at written
    cases written
    rw [widthAt, if_pos small]
    exact spells_shortLocal known small
  · rw [if_neg small] at written
    cases written
    rw [widthAt, if_neg small]
    exact spells_wideLocal known slot

theorem spells_branch_of_written {target : Int32} {shape : OperandShape}
    (known : op.shape? = some shape) (fits : (branch op target : Instruction Int32).takes shape)
    (written : (if isWideBranch op then .ok (op.code :: i32Bytes target)
      else if fitsShort target.toInt then .ok (op.code :: u16Bytes target.toInt16.toUInt16)
      else .error (.malformed (.branchDistance op target)) : Except Error (List UInt8)) =
        .ok bytes) :
    Spells offset bytes (branch op target) ((branch op target).widthAt offset) := by
  by_cases wide : isWideBranch op
  · rw [if_pos wide] at written
    cases written
    rw [widthAt, if_pos wide]
    exact spells_wideBranch (eq_of_beq wide) target
  · rw [if_neg wide] at written
    rw [widthAt, if_neg wide]
    by_cases near : fitsShort target.toInt
    · rw [if_pos near] at written
      cases written
      rcases Bool.or_eq_true_iff.mp fits with fit | fit <;> rw [eq_of_beq fit] at known
      · exact spells_shortBranch known near
      · exact absurd (beq_iff_eq.mpr known) wide
    · rw [if_neg near] at written
      cases written

end Written

/-- What is written is read back, and takes up the width. -/
theorem spells_of_encodeAt {offset : Nat} {i : Instruction Int32} {bytes : List UInt8}
    (written : i.encodeAt offset = .ok bytes) :
    Spells offset bytes i.reread (i.widthAt offset) := by
  obtain ⟨⟨⟩, checked, written⟩ := bind_eq_ok written
  obtain ⟨shape, known, fits⟩ := takes_of_checkShape checked
  cases i with
  | plain op =>
    cases written
    rw [eq_of_beq fits] at known
    exact spells_plain known
  | bipush v =>
    cases written
    exact spells_bipush v
  | sipush v =>
    cases written
    exact spells_sipush v
  | constant op index => exact spells_constant_of_written known fits written
  | localVariable op slot =>
    rw [eq_of_beq fits] at known
    exact spells_local_of_written known written
  | increment slot delta =>
    change (if slot ≤ 255 ∧ fitsByte delta.toInt then _ else _) = _ at written
    by_cases small : slot ≤ 255 ∧ fitsByte delta.toInt
    · rw [if_pos small] at written
      cases written
      rw [widthAt, if_pos small]
      exact spells_shortIncrement small.1 small.2
    · rw [if_neg small] at written
      cases written
      rw [widthAt, if_neg small]
      exact spells_wideIncrement slot delta
  | interfaceCall method count =>
    cases written
    exact spells_interfaceCall method count
  | dynamicCall index =>
    cases written
    exact spells_dynamicCall index
  | newArray element =>
    cases written
    exact spells_newArray element
  | multiArray type dimensions =>
    cases written
    exact spells_multiArray type dimensions
  | branch op target => exact spells_branch_of_written known fits written
  | tableSwitch default low targets =>
    dsimp only at written
    split at written
    · cases written
    · rename_i high key
      cases written
      exact spells_tableSwitch length_padding key
  | lookupSwitch s =>
    change (if s.pairs.length ≤ 0x7FFFFFFF then _ else _) = _ at written
    by_cases few : s.pairs.length ≤ 0x7FFFFFFF
    · rw [if_pos few] at written
      cases written
      exact spells_lookupSwitch length_padding few
    · rw [if_neg few] at written
      cases written

end Instruction

end JvmClass
