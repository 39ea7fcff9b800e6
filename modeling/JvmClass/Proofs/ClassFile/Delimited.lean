import JvmClass.Proofs.ClassFile.Forms
import JvmClass.Proofs.Wire.Faults

/-! Class files delimit themselves.  Whatever is wrong with bytes, reading them as a class file only
ever calls them malformed: a constant that has been read can be written again and finds its place in
the pool, so that neither is a fault of its own.  Of two class files, none is a beginning of the
other. -/

namespace JvmClass

open Decoder

theorem HandleKind.blames_decoder : Blames HandleKind.decoder := by
  refine blames_seq blames_byte fun code => ?_
  cases HandleKind.ofCode? code <;> simp

namespace Constant

theorem blames_text : Blames (do
    let n ← Decoder.u16
    let bytes ← run n.toNat
    match Text.ModifiedUtf8.decode bytes with
    | .ok s => pure (utf8 s)
    | .error cause => .fail (.text cause)) := by
  refine blames_seq blames_u16 fun n => blames_seq (blames_run n.toNat) fun bytes => ?_
  cases Text.ModifiedUtf8.decode bytes <;> simp

theorem blames_decoder : Blames decoder := by
  refine blames_seq blames_byte fun tag => ?_
  split
  · exact blames_text
  all_goals simp [HandleKind.blames_decoder]

theorem checkLength_of_read {s t : Input} {c : Constant} (read : decoder s = .ok (c, t)) :
    c.checkLength = .ok () := by
  obtain ⟨_, ⟨form, means, _⟩, _⟩ := (accepts_decoder s c t).mp read
  exact means.checkLength

end Constant

namespace Pool

theorem blames_fill (count : Nat) (p : Pool) (room : p.entries.next ≤ count)
    (bound : count < 65536) : Blames (fill count p) := by
  induction p using fill.induct count with
  | case1 p more ih =>
    rw [fill_of_lt more]
    refine blames_bind Constant.blames_decoder fun s c t read => ?_
    by_cases spill : p.entries.next + Width.width c > count
    · rw [if_pos spill]
      exact blames_fail _
    · have fits : p.entries.next + Width.width c ≤ count := Nat.le_of_not_lt spill
      have entered := enter_eq (Nat.lt_of_le_of_lt fits bound)
      rw [Constant.checkLength_of_read read] at entered
      rw [if_neg spill, entered]
      exact ih c spill _ entered fits
  | case2 p done =>
    rw [fill, if_neg done]
    exact blames_pure p

theorem blames_decoder : Blames decoder := by
  refine blames_seq blames_u16 fun count => ?_
  by_cases zero : count = 0
  · rw [if_pos zero]
    exact blames_fail _
  · rw [if_neg zero]
    refine blames_fill count.toNat empty ?_ count.toNat_lt
    exact Nat.one_le_iff_ne_zero.mpr fun same => zero (UInt16.toNat_inj.mp same)

end Pool

theorem Attribute.blames_decoder : Blames Attribute.decoder :=
  blames_seq blames_u16 fun _ => blames_seq blames_u32 fun n => blames_seq (blames_run n.toNat)
    fun _ => blames_pure _

theorem AccessFlags.blames_decoder (d : Declaration) :
    Blames (AccessFlags.decoder : Decoder (AccessFlags d)) := by
  simp [AccessFlags.decoder]

theorem Member.blames_decoder (d : Declaration) :
    Blames (Member.decoder : Decoder (Member d)) :=
  blames_seq (AccessFlags.blames_decoder d) fun _ => blames_seq blames_u16 fun _ =>
    blames_seq blames_u16 fun _ => blames_seq (blames_counted Attribute.blames_decoder) fun _ =>
      blames_pure _

theorem Version.blames_decoder : Blames Version.decoder := by
  simp [Version.decoder]

theorem blames_optional16 : Blames optional16 := by
  simp [optional16]

namespace ClassFile

theorem blames_decoder : Blames decoder := by
  refine blames_seq (blames_run 4) fun found => ?_
  split
  · exact blames_fail _
  · exact blames_seq Version.blames_decoder fun _ => blames_seq Pool.blames_decoder fun _ =>
      blames_seq (AccessFlags.blames_decoder _) fun _ => blames_seq blames_u16 fun _ =>
        blames_seq blames_optional16 fun _ => blames_seq (blames_counted blames_u16) fun _ =>
          blames_seq (blames_counted (Member.blames_decoder _)) fun _ =>
            blames_seq (blames_counted (Member.blames_decoder _)) fun _ =>
              blames_seq (blames_counted Attribute.blames_decoder) fun _ => blames_pure _

/-- Bytes are a class file or malformed.  If they are a class file, then all that is gained by
taking bytes off their end, and all that is gained by putting bytes behind it, is malformed. -/
theorem parse_or_malformed (bytes : List UInt8) :
    (∃ c, parse bytes = .ok c ∧ ∀ other, other ≠ bytes → other <+: bytes ∨ bytes <+: other →
      ∃ why, parse other = .error (.malformed why)) ∨
    ∃ why, parse bytes = .error (.malformed why) := by
  have malformed {bytes : List UInt8} {e : Error} (failed : parse bytes = .error e) :
      ∃ why, parse bytes = .error (.malformed why) := by
    obtain ⟨why, rfl⟩ := exists_of_decode_eq_error blames_decoder failed
    exact ⟨why, failed⟩
  cases read : parse bytes with
  | error e => exact .inr (read ▸ malformed read)
  | ok c =>
    refine .inl ⟨c, rfl, fun other different begins => ?_⟩
    cases read' : parse other with
    | error e => exact read' ▸ malformed read'
    | ok c' => exact absurd read' (not_decode_of_begins accepts_decoder read different begins c')

end ClassFile

end JvmClass
