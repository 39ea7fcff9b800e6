import JvmClass.Wire.Input
import JvmClass.Wire.Output

/-! What a decoder reads.  `ReadsAt` says that from a position on a decoder takes exactly the given
bytes and gives a value, whatever follows them; `Reads` says so for every position.  Both are
stated with what follows left open, so that they pass through sequencing and counted repetition. -/

namespace JvmClass.Decoder

variable {α β : Type}

def ReadsAt (position : Nat) (d : Decoder α) (bytes : List UInt8) (a : α) : Prop :=
  ∀ rest, d ⟨position, bytes ++ rest⟩ = .ok (a, ⟨position + bytes.length, rest⟩)

def Reads (d : Decoder α) (bytes : List UInt8) (a : α) : Prop :=
  ∀ position, ReadsAt position d bytes a

section Sequencing

variable {d : Decoder α} {f : α → Decoder β} {a : α} {b : β} {position : Nat}
  {bytes more : List UInt8}

theorem readsAt_pure (a : α) : ReadsAt position (pure a) [] a := fun _ => rfl

theorem readsAt_bind (first : ReadsAt position d bytes a)
    (second : ReadsAt (position + bytes.length) (f a) more b) :
    ReadsAt position (d >>= f) (bytes ++ more) b := by
  intro rest
  change (d ⟨position, bytes ++ more ++ rest⟩ >>= fun p => f p.1 p.2) = _
  rw [List.append_assoc, first (more ++ rest)]
  change f a ⟨position + bytes.length, more ++ rest⟩ = _
  rw [second rest, List.length_append, Nat.add_assoc]

theorem readsAt_map (g : α → β) (reads : ReadsAt position d bytes a) :
    ReadsAt position (g <$> d) bytes (g a) := by
  rw [← bind_pure_comp]
  simpa only [List.append_nil] using
    readsAt_bind (f := fun x => pure (g x)) reads (readsAt_pure (g a))

theorem reads_pure (a : α) : Reads (pure a) [] a := fun _ => readsAt_pure a

theorem reads_bind (first : Reads d bytes a) (second : Reads (f a) more b) :
    Reads (d >>= f) (bytes ++ more) b :=
  fun position => readsAt_bind (first position) (second _)

theorem reads_map (g : α → β) (reads : Reads d bytes a) : Reads (g <$> d) bytes (g a) :=
  fun position => readsAt_map g (reads position)

theorem reads_return (g : α → β) (reads : Reads d bytes a) :
    Reads (d >>= fun x => pure (g x)) bytes (g a) := by
  simpa only [List.append_nil] using
    reads_bind (f := fun x => pure (g x)) reads (reads_pure (g a))

end Sequencing

section Words

theorem toNat_join16 (a b : UInt8) :
    (a.toUInt16 <<< 8 ||| b.toUInt16).toNat = a.toNat * 256 + b.toNat := by
  have high := a.toNat_lt
  have low := b.toNat_lt
  simp only [UInt16.toNat_or, UInt16.toNat_shiftLeft, UInt8.toNat_toUInt16]
  change a.toNat <<< 8 % 2 ^ 16 ||| b.toNat = _
  rw [Nat.mod_eq_of_lt (by rw [Nat.shiftLeft_eq]; omega), ← Nat.shiftLeft_add_eq_or_of_lt low,
    Nat.shiftLeft_eq]

theorem toNat_join32 (a b : UInt16) :
    (a.toUInt32 <<< 16 ||| b.toUInt32).toNat = a.toNat * 65536 + b.toNat := by
  have high := a.toNat_lt
  have low := b.toNat_lt
  simp only [UInt32.toNat_or, UInt32.toNat_shiftLeft, UInt16.toNat_toUInt32]
  change a.toNat <<< 16 % 2 ^ 32 ||| b.toNat = _
  rw [Nat.mod_eq_of_lt (by rw [Nat.shiftLeft_eq]; omega), ← Nat.shiftLeft_add_eq_or_of_lt low,
    Nat.shiftLeft_eq]

theorem toNat_join64 (a b : UInt32) :
    (a.toUInt64 <<< 32 ||| b.toUInt64).toNat = a.toNat * 4294967296 + b.toNat := by
  have high := a.toNat_lt
  have low := b.toNat_lt
  simp only [UInt64.toNat_or, UInt64.toNat_shiftLeft, UInt32.toNat_toUInt64]
  change a.toNat <<< 32 % 2 ^ 64 ||| b.toNat = _
  rw [Nat.mod_eq_of_lt (by rw [Nat.shiftLeft_eq]; omega), ← Nat.shiftLeft_add_eq_or_of_lt low,
    Nat.shiftLeft_eq]

theorem toNat_high16 (w : UInt16) : (w >>> 8).toUInt8.toNat = w.toNat / 256 := by
  have bound := w.toNat_lt
  simp only [UInt16.toNat_toUInt8, UInt16.toNat_shiftRight]
  change w.toNat >>> 8 % 256 = _
  rw [Nat.shiftRight_eq_div_pow]
  omega

theorem toNat_high32 (w : UInt32) : (w >>> 16).toUInt16.toNat = w.toNat / 65536 := by
  have bound := w.toNat_lt
  simp only [UInt32.toNat_toUInt16, UInt32.toNat_shiftRight]
  change w.toNat >>> 16 % 65536 = _
  rw [Nat.shiftRight_eq_div_pow]
  omega

theorem toNat_high64 (w : UInt64) : (w >>> 32).toUInt32.toNat = w.toNat / 4294967296 := by
  have bound := w.toNat_lt
  simp only [UInt64.toNat_toUInt32, UInt64.toNat_shiftRight]
  change w.toNat >>> 32 % 4294967296 = _
  rw [Nat.shiftRight_eq_div_pow]
  omega

theorem join16_split (w : UInt16) :
    (w >>> 8).toUInt8.toUInt16 <<< 8 ||| w.toUInt8.toUInt16 = w := by
  apply UInt16.toNat_inj.mp
  rw [toNat_join16, toNat_high16, UInt16.toNat_toUInt8]
  omega

theorem join32_split (w : UInt32) :
    (w >>> 16).toUInt16.toUInt32 <<< 16 ||| w.toUInt16.toUInt32 = w := by
  apply UInt32.toNat_inj.mp
  rw [toNat_join32, toNat_high32, UInt32.toNat_toUInt16]
  omega

theorem join64_split (w : UInt64) :
    (w >>> 32).toUInt32.toUInt64 <<< 32 ||| w.toUInt32.toUInt64 = w := by
  apply UInt64.toNat_inj.mp
  rw [toNat_join64, toNat_high64, UInt64.toNat_toUInt32]
  omega

end Words

section Numbers

open Output

theorem reads_byte (b : UInt8) : Reads byte [b] b := fun _ _ => rfl

theorem reads_u16 (w : UInt16) : Reads u16 (u16Bytes w) w := by
  have joined := reads_return (fun b : UInt8 => (w >>> 8).toUInt8.toUInt16 <<< 8 ||| b.toUInt16)
    (reads_byte w.toUInt8)
  rw [join16_split] at joined
  exact reads_bind (reads_byte (w >>> 8).toUInt8) joined

theorem reads_u32 (w : UInt32) : Reads u32 (u32Bytes w) w := by
  have joined := reads_return
    (fun b : UInt16 => (w >>> 16).toUInt16.toUInt32 <<< 16 ||| b.toUInt32) (reads_u16 w.toUInt16)
  rw [join32_split] at joined
  exact reads_bind (reads_u16 (w >>> 16).toUInt16) joined

theorem reads_i8 (n : Int8) : Reads i8 [n.toUInt8] n := by
  have read := reads_map UInt8.toInt8 (reads_byte n.toUInt8)
  rwa [Int8.toInt8_toUInt8] at read

theorem reads_i16 (n : Int16) : Reads i16 (u16Bytes n.toUInt16) n := by
  have read := reads_map UInt16.toInt16 (reads_u16 n.toUInt16)
  rwa [Int16.toInt16_toUInt16] at read

theorem reads_i32 (n : Int32) : Reads i32 (u32Bytes n.toUInt32) n := by
  have read := reads_map UInt32.toInt32 (reads_u32 n.toUInt32)
  rwa [Int32.toInt32_toUInt32] at read

theorem reads_run (bytes : List UInt8) : Reads (run bytes.length) bytes bytes := by
  intro position rest
  simp [run, Input.take]

end Numbers

section Repetition

variable {d : Decoder α} {encode : α → List UInt8}

theorem reads_times {xs : List α} (each : ∀ x ∈ xs, Reads d (encode x) x) :
    Reads (times xs.length d) (xs.flatMap encode) xs := by
  induction xs with
  | nil => exact reads_pure []
  | cons x xs ih =>
    have later := ih fun y member => each y (List.mem_cons_of_mem x member)
    exact reads_bind (each x List.mem_cons_self) (reads_return (x :: ·) later)

end Repetition

end JvmClass.Decoder
