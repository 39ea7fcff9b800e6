import JvmClass.Proofs.Code.Linking
import JvmClass.Proofs.Instruction.Consumption
import JvmClass.Proofs.Instruction.RoundTrip

/-! Instructions laid out one after the other.  The layout of a listing gives each instruction the
offset at which its bytes begin, and reading such bytes finds the instructions at those offsets. -/

namespace JvmClass

namespace Instruction

variable {τ σ : Type} {start : Nat}

def placed (start : Nat) : List (Instruction τ) → List (Nat × Instruction τ)
  | [] => []
  | i :: is => (start, i) :: placed (start + i.widthAt start) is

def extent (start : Nat) : List (Instruction τ) → Nat
  | [] => start
  | i :: is => extent (start + i.widthAt start) is

theorem map_snd_placed (start : Nat) (is : List (Instruction τ)) :
    (placed start is).map (·.2) = is := by
  induction is generalizing start with
  | nil => rfl
  | cons i is ih => rw [placed, List.map_cons, ih]

theorem length_placed (start : Nat) (is : List (Instruction τ)) :
    (placed start is).length = is.length := by
  have same := congrArg List.length (map_snd_placed start is)
  rwa [List.length_map] at same

theorem le_extent (is : List (Instruction τ)) : start ≤ extent start is := by
  induction is generalizing start with
  | nil => exact Nat.le_refl _
  | cons i is ih => exact Nat.le_trans (Nat.le_add_right _ _) ih

theorem bounds_of_placed {is : List (Instruction τ)} {p : Nat × Instruction τ}
    (member : p ∈ placed start is) : start ≤ p.1 ∧ p.1 ≤ extent start is := by
  induction is generalizing start with
  | nil => exact absurd member List.not_mem_nil
  | cons i is ih =>
    obtain rfl | member := List.mem_cons.mp member
    · exact ⟨Nat.le_refl _, le_extent (i :: is)⟩
    · have later := ih member
      exact ⟨Nat.le_trans (Nat.le_add_right _ _) later.1, later.2⟩

theorem stop_le_of_placed {is : List (Instruction τ)} {p : Nat × Instruction τ}
    (member : p ∈ placed start is) : p.1 + p.2.widthAt p.1 ≤ extent start is := by
  induction is generalizing start with
  | nil => exact absurd member List.not_mem_nil
  | cons i is ih =>
    obtain rfl | member := List.mem_cons.mp member
    · exact le_extent is
    · exact ih member

theorem increasing_placed (is : List (Instruction τ)) :
    (placed start is).Pairwise fun p q => p.1 < q.1 := by
  induction is generalizing start with
  | nil => exact .nil
  | cons i is ih =>
    refine .cons (fun q member => ?_) ih
    have := (bounds_of_placed member).1
    have := i.widthAt_pos start
    dsimp only
    omega

theorem placed_congr {is : List (Instruction τ)} {js : List (Instruction σ)}
    (wide : List.Forall₂ (fun i j => ∀ n, i.widthAt n = j.widthAt n) is js) :
    (placed start is).map (·.1) = (placed start js).map (·.1) ∧
      extent start is = extent start js := by
  induction wide generalizing start with
  | nil => exact ⟨rfl, rfl⟩
  | @cons i j is js same _ ih =>
    obtain ⟨starts, ends⟩ := @ih (start + i.widthAt start)
    rw [same] at starts ends
    rw [placed, placed, List.map_cons, List.map_cons, same, starts, extent, extent, same, ends]
    exact ⟨rfl, rfl⟩

end Instruction

namespace Listing

open Instruction

variable {entries : Targeter → List Handle} {l : Listing} {τ : Type} {start : Nat}

/-- Handles laid out in order: each has the offset and the instruction of its place. -/
def Located (l : Listing) (starts : Std.HashMap Handle Nat) :
    List Handle → List (Nat × Instruction Handle) → Prop :=
  List.Forall₂ fun h p => starts[h]? = some p.1 ∧ l.get? h = some p.2

theorem layOut_eq_ok {hs : List Handle} {is : List (Instruction Handle)} {o : Offsets}
    (stored : List.Forall₂ (fun h i => l.get? h = some i) hs is) (nodup : hs.Nodup) :
    ∃ p, l.layOut hs o = .ok p ∧ p.length = extent o.length is ∧
      (∀ h, h ∉ hs → p.starts[h]? = o.starts[h]?) ∧ l.Located p.starts hs (placed o.length is) := by
  induction stored generalizing o with
  | nil => exact ⟨o, rfl, rfl, fun _ _ => rfl, .nil⟩
  | @cons h i hs is here _ ih =>
    obtain ⟨apart, nodup⟩ := List.nodup_cons.mp nodup
    obtain ⟨p, run, length, others, located⟩ :=
      ih (o := ⟨o.starts.insert h o.length, o.length + i.widthAt o.length⟩) nodup
    refine ⟨p, ?_, length, ?_, .cons ⟨?_, here⟩ located⟩
    · rw [layOut, here]
      exact run
    · intro k absent
      rw [List.mem_cons, not_or] at absent
      rw [others k absent.2, Std.HashMap.getElem?_insert]
      simp [Ne.symm absent.1]
    · rw [others h apart, Std.HashMap.getElem?_insert]
      simp

theorem readAll_pieces {is : List (Instruction τ)} {pieces : List (List UInt8)}
    {f : Nat → Instruction τ → Instruction Int32}
    (spelled : List.Forall₂ (fun p bytes => Spells p.1 bytes (f p.1 p.2) (p.2.widthAt p.1))
      (placed start is) pieces) :
    readAll ⟨start, pieces.flatten⟩ = .ok ((placed start is).map fun p => (p.1, f p.1 p.2)) ∧
      start + pieces.flatten.length = extent start is := by
  rw [readAll_eq_ok_iff]
  induction is generalizing start pieces with
  | nil =>
    cases spelled
    exact ⟨.stop rfl, rfl⟩
  | cons i is ih =>
    cases spelled with
    | @cons _ bytes _ pieces first others =>
      obtain ⟨run, length⟩ := ih others
      have width : bytes.length = i.widthAt start := first.length
      have step := first.reads pieces.flatten
      rw [width] at step
      refine ⟨.step step run, ?_⟩
      rw [List.flatten_cons, List.length_append, width, extent, ← length]
      omega

end Listing

end JvmClass
