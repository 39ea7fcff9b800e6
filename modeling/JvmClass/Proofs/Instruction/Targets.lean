import JvmClass.Instruction.Basic
import JvmClass.Proofs.Results

/-! Replacing the targets of an instruction when finding the new one may fail. -/

namespace JvmClass.Instruction

variable {τ σ ε : Type} {f : τ → Except ε σ} {i : Instruction τ} {j : Instruction σ}

theorem forall₂_pairs {pairs : List (Int32 × τ)} {others : List (Int32 × σ)}
    (found : List.Forall₂ (fun p q => (p.1, ·) <$> f p.2 = .ok q) pairs others) :
    List.Forall₂ (fun a b => f a = .ok b) (pairs.map (·.2)) (others.map (·.2)) := by
  rw [List.forall₂_map_left_iff, List.forall₂_map_right_iff]
  refine found.imp fun p q same => ?_
  cases target : f p.2 with
  | error e => rw [target] at same; cases same
  | ok b => rw [target] at same; cases same; rfl

theorem forall₂_targets (found : i.mapM f = .ok j) :
    List.Forall₂ (fun a b => f a = .ok b) i.targets j.targets := by
  cases i with
  | branch op t =>
    change branch op <$> f t = .ok j at found
    cases target : f t with
    | error e => rw [target] at found; cases found
    | ok b => rw [target] at found; cases found; exact .cons target .nil
  | tableSwitch d low ts =>
    obtain ⟨b, default, found⟩ := bind_eq_ok found
    obtain ⟨bs, others, found⟩ := bind_eq_ok found
    cases found
    exact .cons default (mapM_eq_ok_iff.mp others)
  | lookupSwitch s =>
    obtain ⟨pairs, others, found⟩ := bind_eq_ok found
    obtain ⟨b, default, found⟩ := bind_eq_ok found
    cases found
    exact .cons default (forall₂_pairs (mapM_eq_ok_iff.mp others))
  | _ => cases found; exact .nil

theorem ok_of_mem_targets (found : i.mapM f = .ok j) {t : τ} (member : t ∈ i.targets) :
    ∃ u, f t = .ok u := by
  obtain ⟨u, _, same⟩ := exists_right_of_forall₂ (forall₂_targets found) member
  exact ⟨u, same⟩

theorem mapM_eq_map {g : τ → σ} (each : ∀ t ∈ i.targets, f t = .ok (g t)) :
    i.mapM f = .ok (i.map g) := by
  cases i with
  | branch op t =>
    have target := each t List.mem_cons_self
    simp only [mapM, target, map]
    rfl
  | tableSwitch d low ts =>
    have default := each d List.mem_cons_self
    have others : ts.mapM f = .ok (ts.map g) := by
      rw [mapM_eq_ok_iff, List.forall₂_map_right_iff, List.forall₂_same]
      exact fun t member => each t (List.mem_cons_of_mem d member)
    simp only [mapM, default, others, map]
    rfl
  | lookupSwitch s =>
    have default := each s.default List.mem_cons_self
    have others : s.pairs.mapM (fun p => (p.1, ·) <$> f p.2) =
        .ok (s.pairs.map fun p => (p.1, g p.2)) := by
      rw [mapM_eq_ok_iff, List.forall₂_map_right_iff, List.forall₂_same]
      intro p member
      rw [each p.2 (List.mem_cons_of_mem _ (List.mem_map_of_mem member))]
      rfl
    simp only [mapM, default, others, map]
    rfl
  | _ => rfl

theorem eq_map_of_mapM {g : τ → σ} (found : i.mapM f = .ok j)
    (each : ∀ t ∈ i.targets, ∀ u, f t = .ok u → u = g t) : j = i.map g := by
  have known : ∀ t ∈ i.targets, f t = .ok (g t) := by
    intro t member
    obtain ⟨u, same⟩ := ok_of_mem_targets found member
    rw [same, each t member u same]
  rw [mapM_eq_map known] at found
  exact (Except.ok.inj found).symm

theorem mapM_map {ρ : Type} (g : ρ → τ) (i : Instruction ρ) :
    (i.map g).mapM f = i.mapM fun t => f (g t) := by
  cases i <;> simp [map, mapM] <;> rfl

theorem map_congr {g k : τ → σ} (same : ∀ t ∈ i.targets, g t = k t) : i.map g = i.map k := by
  cases i with
  | branch op t => simp only [map, same t List.mem_cons_self]
  | tableSwitch d low ts =>
    have others : ts.map g = ts.map k :=
      List.map_congr_left fun t member => same t (List.mem_cons_of_mem d member)
    simp only [map, same d List.mem_cons_self, others]
  | lookupSwitch s =>
    have others : (s.pairs.map fun p => (p.1, g p.2)) = s.pairs.map fun p => (p.1, k p.2) := by
      refine List.map_congr_left fun p member => ?_
      rw [same p.2 (List.mem_cons_of_mem _ (List.mem_map_of_mem member))]
    simp only [map, same s.default List.mem_cons_self, others]
  | _ => rfl

theorem map_id (i : Instruction τ) : i.map id = i := by
  cases i <;> simp [map]

theorem map_map {ρ : Type} (g : ρ → τ) (k : τ → σ) (i : Instruction ρ) :
    (i.map g).map k = i.map fun t => k (g t) := by
  cases i <;> simp [map]

end JvmClass.Instruction
