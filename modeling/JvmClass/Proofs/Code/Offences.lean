import JvmClass.Proofs.Code.Placements
import JvmClass.Proofs.Code.Shrinking
import JvmClass.Proofs.Instruction.Writable

/-! How writing a listing ends.  All instructions are laid out before the first one is written, so
code that is too long is refused first.  After that the first instruction that cannot be written
decides: a branch with two bytes for the distance to its target may be too far from it, and
otherwise the opcode or the keys are wrong. -/

namespace JvmClass

namespace Listing

open Instruction

variable {entries : Targeter → List Handle} {l m : Listing} {o : Offsets}
  {p : Handle × Nat × Instruction Handle} {d : Int} {e : Error}

def Jumps (l : Listing) (p : Handle × Nat × Instruction Handle) (d : Int) : Prop :=
  ∃ op t x j, p.2.2 = .branch op t ∧ op.shape? = some .branch ∧ (t, x, j) ∈ l.placements ∧
    d = (x : Int) - p.2.1

structure Writable (l : Listing) (p : Handle × Nat × Instruction Handle) : Prop where
  near : ∀ d, l.Jumps p d → -32768 ≤ d ∧ d ≤ 32767
  variant : p.2.2.InVariant
  keys : p.2.2.HasKeys

/-- What the error says of an instruction that cannot be written: how far the jump is, if that is
too far, or else that something is malformed. -/
def Blames (l : Listing) (p : Handle × Nat × Instruction Handle) (e : Error) : Prop :=
  (∃ d, l.Jumps p d ∧ ¬ (-32768 ≤ d ∧ d ≤ 32767) ∧ e = .branchTooFar p.1 d) ∨
    (∀ d, l.Jumps p d → -32768 ≤ d ∧ d ≤ 32767) ∧ ∃ why, e = .malformed why

theorem fitsShort_iff {n : Int} : fitsShort n = true ↔ -32768 ≤ n ∧ n ≤ 32767 := by
  simp [fitsShort]

structure Ready (l : Listing) (o : Offsets) : Prop where
  coherent : ∃ entries, l.Coherent entries
  laid : l.Laid o
  stored : ∀ p ∈ l.placements, o.starts[p.1]? = some p.2.1 ∧ l.get? p.1 = some p.2.2
  short : l.width ≤ maxCodeLength

namespace Ready

variable (ready : l.Ready o) (member : p ∈ l.placements)
include ready member

theorem exists_target {t : Handle} (target : t ∈ p.2.2.targets) :
    ∃ x j, (t, x, j) ∈ l.placements ∧ o.starts[t]? = some x ∧
      p.2.1 + (distance o p.2.1 t).toInt = x := by
  obtain ⟨entries, coherent⟩ := ready.coherent
  obtain ⟨x, j, there⟩ := coherent.exists_placement (ready.stored p member).2 target
  have start := (ready.stored _ there).1
  have here := stop_le_width member
  have stop := stop_le_width there
  have short := ready.short
  dsimp only at stop start
  exact ⟨x, j, there, start, add_distance start (by omega) (by omega)⟩

theorem encodeOne_eq (near : ∀ d, l.Jumps p d → -32768 ≤ d ∧ d ≤ 32767) :
    l.encodeOne o p.1 = (p.2.2.map (distance o p.2.1)).encodeAt p.2.1 := by
  obtain ⟨start, stored⟩ := ready.stored p member
  refine encodeOne_of_near stored start fun t target => ?_
  obtain ⟨x, j, there, found, _⟩ := ready.exists_target member target
  refine ⟨x, found, fun short => fitsShort_iff.mpr (near _ ?_)⟩
  cases same : p.2.2 with
  | branch op u =>
    rw [same] at short target
    obtain rfl := List.mem_singleton.mp target
    exact ⟨op, t, x, j, same, eq_of_beq short, there, rfl⟩
  | _ =>
    rw [same] at short
    cases short

theorem exists_encodeOne (writable : l.Writable p) : ∃ bytes, l.encodeOne o p.1 = .ok bytes := by
  rw [ready.encodeOne_eq member writable.near]
  refine exists_encodeAt (inVariant_map.mpr writable.variant) (hasKeys_map.mpr writable.keys) ?_ ?_
  · intro op t same short
    cases here : p.2.2 with
    | branch op' u =>
      rw [here] at same
      cases same
      have target : u ∈ p.2.2.targets := by
        rw [here]
        exact List.mem_singleton_self u
      obtain ⟨x, j, there, _, sum⟩ := ready.exists_target member target
      have near := writable.near _ ⟨op, u, x, j, here, short, there, rfl⟩
      rw [fitsShort_iff]
      omega
    | _ =>
      rw [here] at same
      cases same
  · intro s same
    have stop := stop_le_width member
    have short := ready.short
    have width := widthAt_map (distance o p.2.1) p.2.1 p.2.2
    rw [same, widthAt] at width
    unfold maxCodeLength at short
    omega

theorem encodeOne_eq_error (wrong : ¬ l.Writable p) :
    ∃ e, l.encodeOne o p.1 = .error e ∧ l.Blames p e := by
  by_cases near : ∀ d, l.Jumps p d → -32768 ≤ d ∧ d ≤ 32767
  · rw [ready.encodeOne_eq member near]
    have wrong' : ¬ ((p.2.2.map (distance o p.2.1)).InVariant ∧
        (p.2.2.map (distance o p.2.1)).HasKeys) := by
      rw [inVariant_map, hasKeys_map]
      exact fun both => wrong ⟨near, both.1, both.2⟩
    obtain ⟨why, failed⟩ : ∃ why, (p.2.2.map (distance o p.2.1)).encodeAt p.2.1 =
        .error (.malformed why) := encodeAt_eq_malformed wrong'
    exact ⟨_, failed, .inr ⟨near, why, rfl⟩⟩
  · simp only [not_forall] at near
    obtain ⟨d, jumps, far⟩ := near
    obtain ⟨op, t, x, j, here, shape, there, rfl⟩ := jumps
    obtain ⟨start, stored⟩ := ready.stored p member
    have out : fitsShort ((x : Int) - p.2.1) = false :=
      Bool.eq_false_iff.mpr fun fits => far (fitsShort_iff.mp fits)
    refine ⟨_, encodeOne_of_far (here ▸ stored) start (ready.stored _ there).1 shape out, .inl ?_⟩
    exact ⟨_, ⟨op, t, x, j, here, shape, there, rfl⟩, far, rfl⟩

end Ready

/-- Writing ends with code when nothing is wrong with any instruction. -/
theorem Ready.encode_cases (ready : l.Ready o) (laid : l.layout = .ok o) :
    ((∃ code m, encode l = .ok code m) ∧ ∀ p ∈ l.placements, l.Writable p) ∨
      ∃ before p after e m, l.placements = before ++ p :: after ∧
        (∀ q ∈ before, l.Writable q) ∧ ¬ l.Writable p ∧ l.Blames p e ∧ encode l = .error e m := by
  obtain ⟨entries, coherent⟩ := ready.coherent
  obtain ⟨is, lists⟩ := coherent.exists_lists
  have one {p : Handle × Nat × Instruction Handle} (member : p ∈ l.placements) :
      (∃ bytes, l.encodeOne o p.1 = .ok bytes) ↔ l.Writable p := by
    refine ⟨fun written => ?_, ready.exists_encodeOne member⟩
    by_contra wrong
    obtain ⟨bytes, written⟩ := written
    obtain ⟨e, failed, _⟩ := ready.encodeOne_eq_error member wrong
    cases written.symm.trans failed
  have along : l.order.toList.mapM (l.encodeOne o) =
      l.placements.mapM fun p => l.encodeOne o p.1 := by
    rw [← lists.map_fst_placements, List.mapM_map]
    rfl
  have encoded := encode_of_layout laid
  rw [along] at encoded
  cases written : l.placements.mapM fun p => l.encodeOne o p.1 with
  | ok pieces =>
    rw [written] at encoded
    refine .inl ⟨⟨_, _, encoded⟩, fun p member => (one member).mp ?_⟩
    obtain ⟨bytes, _, piece⟩ := exists_right_of_forall₂ (mapM_eq_ok_iff.mp written) member
    exact ⟨bytes, piece⟩
  | error e =>
    rw [written] at encoded
    obtain ⟨before, p, after, split, passed, failed⟩ := mapM_eq_error_iff.mp written
    have listed : ∀ q ∈ before ++ p :: after, q ∈ l.placements := fun q member => split ▸ member
    have member := listed p (by simp)
    have wrong : ¬ l.Writable p := fun writable => by
      obtain ⟨bytes, piece⟩ := ready.exists_encodeOne member writable
      cases failed.symm.trans piece
    obtain ⟨e', failed', blames⟩ := ready.encodeOne_eq_error member wrong
    cases failed.symm.trans failed'
    refine .inr ⟨before, p, after, e, _, split, fun q early => ?_, wrong, blames, encoded⟩
    exact (one (listed q (List.mem_append_left _ early))).mp (passed q early)

theorem Coherent.encode_cases (coherent : l.Coherent entries) :
    (l.width ≤ maxCodeLength ∧ (∀ p ∈ l.placements, l.Writable p) ∧
        ∃ code m, encode l = .ok code m) ∨
      (maxCodeLength < l.width ∧ encode l = .error (.codeTooLong l.width) l) ∨
      l.width ≤ maxCodeLength ∧ ∃ before p after e m, l.placements = before ++ p :: after ∧
        (∀ q ∈ before, l.Writable q) ∧ ¬ l.Writable p ∧ l.Blames p e ∧ encode l = .error e m := by
  obtain ⟨short, o, laid, fits, stored⟩ | ⟨long, refused⟩ := coherent.layout_cases
  · have ready : l.Ready o := ⟨⟨_, coherent⟩, fits, stored, short⟩
    obtain ⟨encoded, writable⟩ | failed := ready.encode_cases laid
    · exact .inl ⟨short, writable, encoded⟩
    · exact .inr (.inr ⟨short, failed⟩)
  · have unresolved : resolve l = .error (.codeTooLong l.width) l := by
      unfold resolve
      rw [refused]
    exact .inr (.inl ⟨long, bind_of_error unresolved⟩)

/-- Code is written just when it is short enough and nothing is wrong with any instruction where it
is placed.  Code that is too long is refused for its length.  Otherwise the first instruction with
which something is wrong decides what goes wrong, and it is never a handle that is not there or a
value that is too large. -/
theorem encode_ends (reachable : l.Reachable) :
    ((∃ code m, encode l = .ok code m) ↔
        l.width ≤ 65535 ∧ ∀ p ∈ l.placements, l.Writable p) ∧
      (65535 < l.width → ∃ m, encode l = .error (.codeTooLong l.width) m) ∧
      (l.width ≤ 65535 → ∀ e m, encode l = .error e m → ∃ before p after,
        l.placements = before ++ p :: after ∧ (∀ q ∈ before, l.Writable q) ∧ ¬ l.Writable p ∧
          l.Blames p e) ∧
      ∀ e m, encode l = .error e m →
        (∀ h, e ≠ .unknownHandle h) ∧ ∀ what value max, e ≠ .tooLarge what value max := by
  obtain ⟨short, writable, code, m, encoded⟩ | ⟨long, encoded⟩ |
    ⟨short, before, p, after, e, m, split, early, wrong, blames, encoded⟩ :=
      (coherent_of_reachable reachable).encode_cases
  · rw [encoded]
    exact ⟨iff_of_true ⟨code, m, rfl⟩ ⟨short, writable⟩,
      fun long => absurd short (Nat.not_le_of_lt long), fun _ _ _ => nofun, fun _ _ => nofun⟩
  · rw [encoded]
    refine ⟨iff_of_false nofun fun both => absurd both.1 (Nat.not_le_of_lt long),
      fun _ => ⟨l, rfl⟩, fun short => absurd short (Nat.not_le_of_lt long), ?_⟩
    rintro e m ⟨⟩
    exact ⟨fun _ => nofun, fun _ _ _ => nofun⟩
  · rw [encoded]
    have member : p ∈ l.placements := by
      rw [split]
      exact List.mem_append_right before List.mem_cons_self
    refine ⟨iff_of_false nofun fun both => wrong (both.2 p member),
      fun long => absurd short (Nat.not_le_of_lt long), ?_, ?_⟩
    · rintro _ e m ⟨⟩
      exact ⟨before, p, after, split, early, wrong, blames⟩
    · rintro e m ⟨⟩
      obtain ⟨d, _, _, rfl⟩ | ⟨_, why, rfl⟩ := blames
      · exact ⟨fun _ => nofun, fun _ _ _ => nofun⟩
      · exact ⟨fun _ => nofun, fun _ _ _ => nofun⟩

def plainJump : Listing := (Command.append (.plain .goto)).run (empty 0)

theorem toList_plainJump : plainJump.toList = [(⟨0, 0⟩, .plain .goto)] := by
  have order : plainJump.order.toList = [⟨0, 0⟩] := order_placeAll [.plain .goto] (empty 0)
  have stored : List.Forall₂ (fun h i => plainJump.get? h = some i) [⟨0, 0⟩] [.plain .goto] :=
    get?_placeAll [.plain .goto] (empty 0)
  exact toList_eq order stored

theorem encode_ends_plainJump : plainJump.Reachable ∧ plainJump.width ≤ 65535 ∧
    ∃ why m, encode plainJump = .error (.malformed why) m := by
  have reachable : plainJump.Reachable := .edited _ (.empty 0)
  have placements : plainJump.placements = [(⟨0, 0⟩, 0, .plain .goto)] := by
    rw [Listing.placements, toList_plainJump]
    rfl
  have short : plainJump.width ≤ 65535 := by
    rw [width, toList_plainJump]
    decide
  obtain ⟨succeeds, _, fails, _⟩ := encode_ends reachable
  refine ⟨reachable, short, ?_⟩
  cases encoded : encode plainJump with
  | ok code m =>
    have writable := (succeeds.mp ⟨code, m, encoded⟩).2 _ (placements ▸ List.mem_singleton_self _)
    exact absurd writable.variant (by decide +kernel)
  | error e m =>
    obtain ⟨before, p, after, split, _, _, blames⟩ := fails short e m encoded
    have member : p ∈ plainJump.placements := by
      rw [split]
      exact List.mem_append_right before List.mem_cons_self
    rw [placements] at member
    obtain rfl := List.mem_singleton.mp member
    obtain ⟨_, ⟨_, _, _, _, jumps, _⟩, _⟩ | ⟨_, why, rfl⟩ := blames
    · cases jumps
    · exact ⟨why, m, rfl⟩

end Listing

end JvmClass
