import JvmClass.Proofs.Wire.Accepts

/-! Writing again what was read.  The output is never longer than what it stands for, so that the
pieces of two outputs of the same length are of the same lengths too. -/

namespace JvmClass.Output

variable {α ρ : Type} {o o' : Output} {new new' old old' : List UInt8} {same same' : Prop}

/-- The output puts out `new` for `old`.  These are the same just when `same` holds. -/
structure Rewrites (o : Output) (new old : List UInt8) (same : Prop) : Prop where
  puts : o = .put new
  shrinks : new.length ≤ old.length
  same_iff : new = old ↔ same

theorem rewrites_put (bytes : List UInt8) : Rewrites (.put bytes) bytes bytes True :=
  ⟨rfl, Nat.le_refl _, by simp⟩

theorem Rewrites.congr (rewrites : Rewrites o new old same) (iff : same ↔ same') :
    Rewrites o new old same' :=
  ⟨rewrites.puts, rewrites.shrinks, rewrites.same_iff.trans iff⟩

/-- Pieces that are no longer make up the same bytes just when each of them does. -/
theorem append_eq_append_iff_of_length_le (first : new.length ≤ old.length)
    (second : new'.length ≤ old'.length) :
    new ++ new' = old ++ old' ↔ new = old ∧ new' = old' := by
  constructor
  · intro whole
    have total := congrArg List.length whole
    rw [List.length_append, List.length_append] at total
    exact List.append_inj whole (by omega)
  · rintro ⟨rfl, rfl⟩
    rfl

theorem Rewrites.append (first : Rewrites o new old same) (second : Rewrites o' new' old' same') :
    Rewrites (o ++ o') (new ++ new') (old ++ old') (same ∧ same') := by
  refine ⟨?_, ?_, ?_⟩
  · rw [first.puts, second.puts, put_append_put]
  · rw [List.length_append, List.length_append]
    exact Nat.add_le_add first.shrinks second.shrinks
  · rw [append_eq_append_iff_of_length_le first.shrinks second.shrinks, first.same_iff,
      second.same_iff]

/-- What is written again after it was read from one of its forms takes the place of that form
with a form of its own. -/
def Renews (means : ρ → α → Prop) (write : ρ → List UInt8) (encode : α → Output)
    (minimal : ρ → Prop) : Prop :=
  ∀ r a, means r a → ∃ r₀, means r₀ a ∧ Rewrites (encode a) (write r₀) (write r) (minimal r)

variable {means : ρ → α → Prop} {write : ρ → List UInt8} {encode : α → Output} {minimal : ρ → Prop}

theorem concat_map_cons (encode : α → Output) (a : α) (as : List α) :
    concat ((a :: as).map encode) = encode a ++ concat (as.map encode) := rfl

theorem renews_list (renews : Renews means write encode minimal) {rs : List ρ} {as : List α}
    (each : List.Forall₂ means rs as) :
    ∃ rs₀, List.Forall₂ means rs₀ as ∧
      Rewrites (concat (as.map encode)) (rs₀.flatMap write) (rs.flatMap write)
        (∀ r ∈ rs, minimal r) := by
  induction each with
  | nil =>
    refine ⟨[], .nil, (rewrites_put []).congr ?_⟩
    simp
  | @cons r a rs as first _ ih =>
    obtain ⟨r₀, first₀, here⟩ := renews r a first
    obtain ⟨rs₀, each₀, there⟩ := ih
    refine ⟨r₀ :: rs₀, .cons first₀ each₀, ?_⟩
    rw [concat_map_cons, List.flatMap_cons, List.flatMap_cons]
    exact (here.append there).congr List.forall_mem_cons.symm

theorem renews_counted (renews : Renews means write encode minimal) :
    Renews (Decoder.Each means) (Decoder.countedBytes write) (counted · encode)
      fun rs => ∀ r ∈ rs, minimal r := by
  rintro rs as ⟨each, short⟩
  obtain ⟨rs₀, each₀, others⟩ := renews_list renews each
  have length : as.length = rs.length := each.length_eq.symm
  have length₀ : rs₀.length = rs.length := each₀.length_eq.trans length
  refine ⟨rs₀, ⟨each₀, length₀ ▸ short⟩, ?_⟩
  have count : length16 "sequence length" as.length = .ok rs.length.toUInt16 := by
    rw [length]
    exact if_pos short
  beta_reduce
  rw [counted, countedAs, count, Decoder.countedBytes, Decoder.countedBytes, length₀]
  exact ((rewrites_put _).append others).congr (and_iff_right trivial)

end JvmClass.Output
