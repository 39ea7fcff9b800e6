import JvmClass.Proofs.Instruction.Forms

/-! Which instructions can be written.  The opcode has to be one that the variant is for, and a
table switch needs a target and a greatest key that has a place in four bytes.  Besides that, a
branch with two bytes for its offset has to be near its target. -/

namespace JvmClass.Instruction

variable {τ σ : Type} {offset : Nat}

def InVariant : Instruction τ → Prop
  | plain op => op.shape? = some .none
  | constant op _ => op.shape? = some .constant ∨ op.shape? = some .shortConstant
  | localVariable op _ => op.shape? = some .local
  | branch op _ => op.shape? = some .branch ∨ op.shape? = some .wideBranch
  | _ => True

def HasKeys : Instruction τ → Prop
  | tableSwitch _ low targets =>
    0 < targets.length ∧ low.toInt + targets.length - 1 ≤ 2147483647
  | _ => True

instance (i : Instruction τ) : Decidable i.InVariant :=
  match i with
  | plain op => inferInstanceAs (Decidable (op.shape? = some .none))
  | constant op _ =>
    inferInstanceAs (Decidable (op.shape? = some .constant ∨ op.shape? = some .shortConstant))
  | localVariable op _ => inferInstanceAs (Decidable (op.shape? = some .local))
  | branch op _ =>
    inferInstanceAs (Decidable (op.shape? = some .branch ∨ op.shape? = some .wideBranch))
  | bipush _ | sipush _ | increment _ _ | interfaceCall _ _ | dynamicCall _ | newArray _
  | multiArray _ _ | tableSwitch _ _ _ | lookupSwitch _ => isTrue trivial

theorem inVariant_map {f : τ → σ} {i : Instruction τ} : (i.map f).InVariant ↔ i.InVariant := by
  cases i <;> rfl

theorem hasKeys_map {f : τ → σ} {i : Instruction τ} : (i.map f).HasKeys ↔ i.HasKeys := by
  cases i <;> simp [map, HasKeys]

theorem wellShaped_iff_inVariant {i : Instruction τ} : i.WellShaped ↔ i.InVariant := by
  cases i with
  | plain | constant | localVariable | branch =>
    simp [WellShaped, InVariant, opcode, takes, and_or_left, exists_or]
  | _ => exact iff_true_intro (wellShaped_of_implied (by simp [impliedOpcodes, opcode]) fun _ => rfl)

theorem exists_highKey?_iff {low : Int32} {count : Nat} :
    (∃ high, highKey? low count = some high) ↔ 0 < count ∧ low.toInt + count - 1 ≤ 2147483647 := by
  unfold highKey?
  dsimp only
  split <;> simp_all

theorem checkShape_cases (i : Instruction τ) :
    i.checkShape = .ok () ∨ ∃ why, i.checkShape = .error (.malformed why) := by
  unfold checkShape
  conv => enter [1, 1]; zeta
  conv => enter [2, 1, why, 1]; zeta
  cases i.opcode.shape? with
  | none => exact .inr ⟨_, rfl⟩
  | some shape =>
    by_cases fits : i.takes shape
    · exact .inl (if_pos fits)
    · exact .inr ⟨_, if_neg fits⟩

section Written

variable {i : Instruction Int32}

theorem exists_encodeAt (inVariant : i.InVariant) (hasKeys : i.HasKeys)
    (near : ∀ op t, i = branch op t → op.shape? = some .branch → fitsShort t.toInt = true)
    (few : ∀ s, i = lookupSwitch s → s.pairs.length ≤ 0x7FFFFFFF) :
    ∃ bytes, i.encodeAt offset = .ok bytes := by
  have shaped := wellShaped_iff_inVariant.mpr inVariant
  cases i with
  | branch op t =>
    rw [encodeAt_branch shaped]
    obtain short | wide := inVariant
    · have narrow : ¬ isWideBranch op := by simp [isWideBranch, short]
      rw [if_neg narrow, if_pos (near op t rfl short)]
      exact ⟨_, rfl⟩
    · have long : isWideBranch op := beq_iff_eq.mpr wide
      rw [if_pos long]
      exact ⟨_, rfl⟩
  | tableSwitch default low targets =>
    obtain ⟨high, key⟩ := exists_highKey?_iff.mpr hasKeys
    exact ⟨_, encodeAt_tableSwitch key⟩
  | lookupSwitch s => exact ⟨_, encodeAt_lookupSwitch (few s rfl)⟩
  | localVariable op slot =>
    rw [encodeAt_localVariable inVariant]
    split <;> exact ⟨_, rfl⟩
  | increment slot delta =>
    rw [encodeAt_increment]
    split <;> exact ⟨_, rfl⟩
  | constant op index =>
    rw [encodeAt, shaped.checkShape]
    by_cases small : op = .ldc ∧ index ≤ 255
    · exact ⟨_, if_pos small⟩
    · exact ⟨_, if_neg small⟩
  | _ =>
    rw [encodeAt, shaped.checkShape]
    exact ⟨_, rfl⟩

/-- What is wrong with the opcode or with the keys is told before anything is written. -/
theorem encodeAt_eq_malformed (wrong : ¬ (i.InVariant ∧ i.HasKeys)) :
    ∃ why, i.encodeAt offset = .error (.malformed why) := by
  obtain checked | ⟨why, refused⟩ := i.checkShape_cases
  · have inVariant := wellShaped_iff_inVariant.mp (takes_of_checkShape checked)
    have noKeys : ¬ i.HasKeys := fun hasKeys => wrong ⟨inVariant, hasKeys⟩
    cases i with
    | tableSwitch default low targets =>
      have missing : highKey? low targets.length = none := by
        refine Option.eq_none_iff_forall_ne_some.mpr fun high found => noKeys ?_
        exact exists_highKey?_iff.mp ⟨high, found⟩
      refine ⟨.noHighKey low targets.length, ?_⟩
      rw [encodeAt, checked]
      dsimp only [bind, Except.bind]
      rw [missing]
      rfl
    | _ => exact absurd trivial noKeys
  · refine ⟨why, ?_⟩
    rw [encodeAt, refused]
    rfl

end Written

end JvmClass.Instruction
