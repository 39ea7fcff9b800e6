import JvmClass.Proofs.Wire.Accepts

/-! What a decoder complains of.  `Blames` says that a decoder fails in no other way than by calling
its input malformed.  Where one step follows another, the second has to do so only for values that
the first one reads.  Behind what a decoder accepts, more input is left over, so no accepted input
begins with another one. -/

namespace JvmClass.Decoder

variable {α β : Type} {d : Decoder α} {f : α → Decoder β}

def Blames (d : Decoder α) : Prop := ∀ s e, d s = .error e → ∃ why, e = .malformed why

@[simp] theorem blames_pure (a : α) : Blames (pure a) := fun _ _ => nofun

@[simp] theorem blames_fail (why : Malformed) : Blames (fail why : Decoder α) :=
  fun _ _ failed => ⟨why, (Except.error.inj failed).symm⟩

theorem blames_bind (first : Blames d) (second : ∀ s a t, d s = .ok (a, t) → Blames (f a)) :
    Blames (d >>= f) := by
  intro s e failed
  change (d s >>= fun r => f r.1 r.2) = .error e at failed
  rcases bind_eq_error_iff.mp failed with here | ⟨⟨a, t⟩, read, later⟩
  · exact first s e here
  · exact second s a t read t e later

@[simp] theorem blames_seq (first : Blames d) (second : ∀ a, Blames (f a)) : Blames (d >>= f) :=
  blames_bind first fun _ a _ _ => second a

@[simp] theorem blames_map (g : α → β) (blames : Blames d) : Blames (g <$> d) := by
  rw [← bind_pure_comp]
  exact blames_seq blames fun a => blames_pure (g a)

@[simp] theorem blames_byte : Blames byte := by
  intro s e failed
  unfold byte at failed
  split at failed
  · exact ⟨_, (Except.error.inj failed).symm⟩
  · cases failed

@[simp] theorem blames_run (n : Nat) : Blames (run n) := by
  intro s e failed
  unfold run Input.take at failed
  dsimp only at failed
  by_cases enough : (s.rest.take n).length = n
  · rw [if_pos enough] at failed
    cases failed
  · rw [if_neg enough] at failed
    exact ⟨_, (Except.error.inj failed).symm⟩

@[simp] theorem blames_u16 : Blames u16 := by simp [u16]

@[simp] theorem blames_u32 : Blames u32 := by simp [u32]

@[simp] theorem blames_u64 : Blames u64 := by simp [u64]

@[simp] theorem blames_i32 : Blames i32 := by simp [i32]

@[simp] theorem blames_i64 : Blames i64 := by simp [i64]

@[simp] theorem blames_times (blames : Blames d) (n : Nat) : Blames (times n d) := by
  induction n with
  | zero => simp [times]
  | succ n ih => simp [times, blames, ih]

@[simp] theorem blames_counted (blames : Blames d) : Blames (counted d) := by
  simp [counted, blames]

variable {P : List UInt8 → α → Prop} {bytes other : List UInt8} {a : α} {e : Error}

theorem exists_of_decode_eq_error (blames : Blames d) (failed : d.decode bytes = .error e) :
    ∃ why, e = .malformed why := by
  unfold decode at failed
  split at failed
  · rename_i here
    cases failed
    exact blames _ _ here
  · cases failed
  · exact ⟨_, (Except.error.inj failed).symm⟩

theorem decode_append (accepts : Accepts d P) (read : d.decode bytes = .ok a)
    {more : List UInt8} (longer : more ≠ []) : d.decode (bytes ++ more) =
      .error (.malformed (.leftover (bytes ++ more).length bytes.length)) := by
  have form : P bytes a := (decode_eq_ok_iff accepts).mp read
  have stops : d ⟨0, bytes ++ more⟩ = .ok (a, ⟨bytes.length, more⟩) :=
    (accepts _ _ _).mpr ⟨bytes, form, rfl, (Nat.zero_add _).symm⟩
  obtain ⟨b, more, rfl⟩ := List.exists_cons_of_ne_nil longer
  unfold decode Input.ofBytes
  rw [stops]

/-- Neither a beginning of an accepted input nor an input that begins with it is accepted. -/
theorem not_decode_of_begins (accepts : Accepts d P) (read : d.decode bytes = .ok a)
    (different : other ≠ bytes) (begins : other <+: bytes ∨ bytes <+: other) (b : α) :
    d.decode other ≠ .ok b := by
  intro read'
  rcases begins with ⟨more, rfl⟩ | ⟨more, rfl⟩
  · have longer : more ≠ [] := by simpa using different.symm
    cases read.symm.trans (decode_append accepts read' longer)
  · have longer : more ≠ [] := by simpa using different
    cases read'.symm.trans (decode_append accepts read longer)

end JvmClass.Decoder
