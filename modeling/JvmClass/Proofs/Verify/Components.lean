import JvmClass.Proofs.TypeTrees
import JvmClass.Proofs.Verify.WellTyped

/-! Arrays and what they hold.  An array is known by its descriptor alone, which is read again
whenever a value is taken out of it.  What comes out is the type that the array was made for, and
it comes out by the one load that is for arrays of such values. -/

namespace JvmClass

namespace RefType

variable {d : Nat} {e : ElementType} {t : FieldType}

theorem ofClassName_eq_ok_iff {text : String} {r : RefType} (wellFormed : r.WellFormed) :
    RefType.ofClassName text = .ok r ↔ r.className = text := by
  constructor
  · exact className_of_ofClassName
  · rintro rfl
    exact ofClassName_className wellFormed

theorem exists_arrayOf (wellFormed : t.WellFormed) :
    ∃ d e, arrayOf t = array d e ∧ component d e = t := by
  rcases t with b | n | ⟨d, e⟩
  · exact ⟨1, .base b, rfl, rfl⟩
  · exact ⟨1, .object n, rfl, rfl⟩
  · have some : d + 1 > 1 := Nat.succ_lt_succ wellFormed.1
    exact ⟨d + 1, e, rfl, if_pos some⟩

theorem arrayOf_component (some : 1 ≤ d) : arrayOf (component d e) = array d e := by
  unfold component
  split
  · rename_i more
    exact congrArg (array · e) (Nat.sub_add_cancel some)
  · obtain rfl : d = 1 := by omega
    cases e <;> rfl

theorem className_arrayOf (t : FieldType) :
    (arrayOf t).className = String.ofList ('[' :: t.chars) := by
  rcases t with b | n | ⟨d, e⟩ <;> rfl

theorem wellFormed_arrayOf (wellFormed : t.WellFormed)
    (bounded : (arrayOf t).dimensions ≤ maxDimensions) : (arrayOf t).WellFormed := by
  cases t with
  | base b => exact ⟨Nat.le_refl 1, by decide, trivial⟩
  | ref r =>
    refine WellFormed.arrayOf wellFormed ?_
    cases r with
    | object n => exact Nat.succ_pos _
    | array d e => exact bounded

theorem length_chars_ne_one {r : RefType} (wellFormed : r.WellFormed) : r.chars.length ≠ 1 := by
  cases r with
  | object n => simp [chars, ElementType.chars]
  | array d e =>
    have some := wellFormed.1
    have element : 1 ≤ e.chars.length := by
      cases e <;> simp [ElementType.chars]
    rw [chars, List.length_append, List.length_replicate]
    omega

end RefType

namespace VType

variable {t : FieldType}

theorem ofFieldType_array (t : FieldType) :
    ofFieldType t.array = .object (String.ofList ('[' :: t.chars)) :=
  congrArg VType.object (RefType.className_arrayOf t)

theorem component?_array (wellFormed : t.WellFormed)
    (bounded : (RefType.arrayOf t).dimensions ≤ maxDimensions) :
    (ofFieldType t.array).component? = some (.ofFieldType t) := by
  have read := RefType.ofClassName_className (RefType.wellFormed_arrayOf wellFormed bounded)
  obtain ⟨d, e, made, holds⟩ := RefType.exists_arrayOf wellFormed
  change component? (.object (RefType.arrayOf t).className) = _
  rw [component?, read, made]
  exact congrArg (some ∘ ofFieldType) holds

theorem isByteOrBooleanArray_eq (name : String) : (object name).isByteOrBooleanArray =
    ((object name).isArrayOf "B" || (object name).isArrayOf "Z") := by
  have spelled (text : String) : (name == text) = (name.toList == text.toList) := by
    rw [Bool.eq_iff_iff, beq_iff_eq, beq_iff_eq, String.toList_inj]
  rw [isByteOrBooleanArray, spelled, spelled]
  rfl

theorem isArrayOf_ref {r : RefType} {element : String} (wellFormed : r.WellFormed)
    (letter : element.toList.length = 1) :
    (ofFieldType (FieldType.ref r).array).isArrayOf element = false := by
  rw [ofFieldType_array, isArrayOf, String.toList_ofList, beq_eq_false_iff_ne]
  intro same
  have same : r.chars = element.toList := (List.cons.inj same).2
  exact RefType.length_chars_ne_one wellFormed (same ▸ letter)

end VType

namespace ArrayKind

def ofFieldType : FieldType → ArrayKind
  | .base .int => int
  | .base .long => long
  | .base .float => float
  | .base .double => double
  | .base .byte | .base .boolean => byte
  | .base .char => char
  | .base .short => short
  | .ref _ => reference

theorem load?_array {t : FieldType} (wellFormed : t.WellFormed)
    (bounded : (RefType.arrayOf t).dimensions ≤ maxDimensions) (k : ArrayKind) :
    k.load? (.ofFieldType t.array) = if k = ofFieldType t then some (.ofFieldType t) else none := by
  cases t with
  | base b => cases k <;> cases b <;> rfl
  | ref r =>
    have letter {element : String} : element.toList.length = 1 →
        (VType.ofFieldType (FieldType.ref r).array).isArrayOf element = false :=
      VType.isArrayOf_ref wellFormed
    cases k with
    | reference =>
      rw [load?, VType.component?_array wellFormed bounded]
      rfl
    | byte =>
      rw [load?, VType.ofFieldType_array, VType.isByteOrBooleanArray_eq, ← VType.ofFieldType_array,
        letter rfl, letter rfl]
      rfl
    | _ =>
      rw [load?, letter rfl]
      · rfl
      all_goals decide

end ArrayKind

namespace MethodContext

open JvmClass.Frame

open Width (width)

variable {τ : Type} {c : MethodContext} {offset : Nat} {i : Instruction τ} {op : Opcode}
  {f g : Frame} {t : FieldType} {rest : List VType}

/-- The instruction makes arrays of values of this type. -/
inductive Creates (c : MethodContext) : Instruction τ → FieldType → Prop where
  | newArray (element : BaseType) : Creates c (.newArray element) (.base element)
  | anewarray {index : UInt16} {r : RefType} (names : c.Names index r) :
      Creates c (.constant .anewarray index) (.ref r)
  | multiArray {index : UInt16} {d : Nat} {e : ElementType} (dimensions : UInt8)
      (names : c.Names index (.array d e)) :
      Creates c (.multiArray index dimensions) (RefType.component d e)

theorem Names.unique {index : UInt16} {r r' : RefType} (names : c.Names index r)
    (names' : c.Names index r') : r = r' := by
  obtain ⟨name, found, read⟩ := names
  obtain ⟨name', found', read'⟩ := names'
  cases found.symm.trans found'
  exact Except.ok.inj (read.symm.trans read')

theorem Creates.wellFormed (creates : c.Creates i t) : t.WellFormed := by
  cases creates with
  | newArray element => trivial
  | anewarray names => exact names.wellFormed
  | multiArray dimensions names => exact names.wellFormed.component

theorem Creates.trades (creates : c.Creates i t) : ∃ R, Trades (c.effect offset i) R ∧
    ∀ ls d, R ls d → d.change = .none ∧ d.pushed = [.ofFieldType t.array] := by
  cases creates with
  | newArray element =>
    rw [effect_irregular .newarray rfl (by decide)]
    refine ⟨_, (pops_popExpecting .int).discard_trades (trades_push _), ?_⟩
    rintro _ ⟨_, change, us⟩ ⟨_, _, rfl, _, made⟩
    cases made
    exact ⟨rfl, rfl⟩
  | anewarray names =>
    rw [effect_irregular .anewarray rfl (by decide)]
    refine ⟨_, trades_newObjectArray _, ?_⟩
    rintro _ _ ⟨_, r, rfl, _, names'⟩
    obtain rfl := names.unique names'
    exact ⟨rfl, rfl⟩
  | @multiArray _ d e _ names =>
    rw [effect_irregular .multianewarray rfl (by decide)]
    refine ⟨_, (drops_popKinds _).trades ((finds_classType _).trades trades_push), ?_⟩
    rintro _ ⟨_, change, us⟩ ⟨_, _, _, _, _, ⟨r, names', rfl⟩, made⟩
    cases made
    obtain rfl := names.unique names'
    have array : RefType.arrayOf (RefType.component d e) = .array d e :=
      RefType.arrayOf_component names.wellFormed.1
    refine ⟨rfl, ?_⟩
    rw [FieldType.array, array]
    rfl

theorem Creates.makes (creates : c.Creates i t) (done : after (c.effect offset i) f = .ok g) :
    ∃ counts rest, f.stack = counts ++ rest ∧
      g = f.withStack (.ofFieldType t.array :: rest) := by
  obtain ⟨R, trades, makes⟩ := creates.trades
  obtain ⟨⟨ts, _, _⟩, related, h, rfl, rfl, _⟩ := (trades.iff f g).mp (after_eq_ok_iff.mp done)
  obtain ⟨rfl, rfl⟩ := makes _ _ related
  exact ⟨ts, h.stack, stack_pile .., rfl⟩

theorem width_le_two (t : VType) : width t ≤ 2 := by
  obtain one | two := t.width_eq <;> omega

theorem after_loadElement {k : ArrayKind} {n : String} (stack : f.stack = .int :: .object n :: rest)
    (fits : f.height ≤ f.maxStack.toNat) : after (loadElement k) f =
      match k.load? (.object n) with
      | some t => .ok (f.withStack (t :: rest))
      | none => .error .notArray := by
  have number : (discard (popExpecting .int) : Step Unit) f =
      .ok () (f.withStack (.object n :: rest)) :=
    discard_eq_ok_iff.mpr ⟨.int, (pops_popExpecting .int _ _ _).mpr ⟨rfl, eq_pile [.int] stack⟩⟩
  have array : popReference (f.withStack (.object n :: rest)) = .ok (.object n) (f.withStack rest) :=
    (pops_popReference _ _ _).mpr ⟨⟨rfl, rfl⟩, eq_pile [.object n] (stack_withStack ..)⟩
  unfold after loadElement
  rw [bind_of_ok number, bind_of_ok array]
  cases k.load? (.object n) with
  | none => rfl
  | some t =>
    have room : (f.withStack rest).height + width t ≤ f.maxStack.toNat := by
      have := width_le_two t
      have narrow : width VType.int = 1 ∧ width (VType.object n) = 1 := ⟨rfl, rfl⟩
      rw [height_eq, stack, total_cons, total_cons, narrow.1, narrow.2] at fits
      rw [height_eq, stack_withStack]
      omega
    have pushed : push t (f.withStack rest) = .ok () (f.withStack (t :: rest)) :=
      push_eq_ok_iff.mpr ⟨room, by rw [withStack_withStack, stack_withStack]⟩
    dsimp only
    rw [pushed]

theorem after_load_array {k : ArrayKind} (wellFormed : t.WellFormed)
    (bounded : (RefType.arrayOf t).dimensions ≤ maxDimensions) (loads : op.arrayLoad? = some k)
    (stack : f.stack = .int :: .ofFieldType t.array :: rest) (fits : f.height ≤ f.maxStack.toNat) :
    after (c.effect offset (.plain op : Instruction τ)) f =
      if k = .ofFieldType t then .ok (f.withStack (.ofFieldType t :: rest))
      else .error .notArray := by
  have opens := ArrayKind.load?_array wellFormed bounded k
  rw [VType.ofFieldType_array] at opens stack
  rw [effect_tabled (.inl (by rw [loads]; rfl)), loads]
  change after (loadElement k) f = _
  rw [after_loadElement stack fits, opens]
  by_cases own : k = .ofFieldType t
  · rw [if_pos own, if_pos own]
  · rw [if_neg own, if_neg own]

/-- Names of class constants and types go there and back.  An array has the component that it is the
array of, and that is what comes out of one that an instruction has made, by the load for such
components alone. -/
theorem components_of_arrays :
    (∀ (text : String) (r : RefType), (FieldType.ref r).tree.WellFormed →
      (RefType.ofClassName text = .ok r ↔ r.className = text)) ∧
    (∀ t : FieldType, t.tree.WellFormed → (RefType.arrayOf t).dimensions ≤ maxDimensions →
      (VType.ofFieldType t.array).component? = some (.ofFieldType t)) ∧
    ∀ (c : MethodContext) (offset : Nat) (i : Instruction τ) (t : FieldType) (f g : Frame),
      c.Creates i t → (RefType.arrayOf t).dimensions ≤ maxDimensions →
      after (c.effect offset i) f = .ok g →
      (∃ counts rest, f.stack = counts ++ rest ∧
        g = f.withStack (.ofFieldType t.array :: rest)) ∧
      ∀ (op : Opcode) (k : ArrayKind) (later : Nat) (h : Frame) (rest : List VType),
        op.arrayLoad? = some k → h.stack = .int :: .ofFieldType t.array :: rest →
        h.height ≤ h.maxStack.toNat → after (c.effect later (.plain op : Instruction τ)) h =
          if k = .ofFieldType t then .ok (h.withStack (.ofFieldType t :: rest))
          else .error .notArray := by
  refine ⟨?_, ?_, ?_⟩
  · intro text r wellFormed
    exact RefType.ofClassName_eq_ok_iff (FieldType.wellFormed_tree_iff.mp wellFormed)
  · intro t wellFormed bounded
    exact VType.component?_array (FieldType.wellFormed_tree_iff.mp wellFormed) bounded
  · intro c offset i t f g creates bounded done
    refine ⟨creates.makes done, ?_⟩
    intro op k later h rest loads stack fits
    exact after_load_array creates.wellFormed bounded loads stack fits

def matrixContext : MethodContext :=
  ⟨.ofConstants [.utf8 "[[I", .classInfo 1], "a/B", ⟨[], none⟩, false⟩

theorem components_of_arrays_matrix :
    RefType.ofClassName "[[I" = .ok (.array 2 (.base .int)) ∧
    (VType.object "[[I").component? = some (.object "[I") ∧
    after (matrixContext.effect 0 (.multiArray 2 2 : Instruction Handle)) (.ofStack #[] [.int, .int] 2) =
      .ok (.ofStack #[] [.object "[[I"] 2) ∧
    after (matrixContext.effect 5 (.plain .aaload : Instruction Handle))
      (.ofStack #[] [.int, .object "[[I"] 2) = .ok (.ofStack #[] [.object "[I"] 2) := by
  have deep : (FieldType.ref (.array 2 (.base .int))).tree.WellFormed :=
    ⟨by decide, by decide, id, trivial⟩
  have flat : (FieldType.ref (.array 1 (.base .int))).tree.WellFormed :=
    ⟨by decide, by decide, id, trivial⟩
  have creates : matrixContext.Creates (.multiArray 2 2 : Instruction Handle)
      (RefType.component 2 (.base .int)) :=
    .multiArray 2 ⟨"[[I", by decide +kernel, by decide +kernel⟩
  have made : after (matrixContext.effect 0 (.multiArray 2 2 : Instruction Handle))
      (.ofStack #[] [.int, .int] 2) = .ok (.ofStack #[] [.object "[[I"] 2) := by
    decide +kernel
  obtain ⟨names, holds, opens⟩ := components_of_arrays (τ := Handle)
  refine ⟨(names _ _ deep).mpr (by decide +kernel), holds _ flat (by decide), made, ?_⟩
  exact (opens _ 0 _ _ _ _ creates (by decide) made).2 .aaload .reference 5 _ [] rfl rfl (by decide)

/-- Not all arrays give their components to the load of references. -/
theorem aaload_of_numbers :
    ¬ ∀ (c : MethodContext) (i : Instruction Handle) (t : FieldType) (f g h : Frame)
      (rest : List VType), c.Creates i t → (RefType.arrayOf t).dimensions ≤ maxDimensions →
        after (c.effect 0 i) f = .ok g → h.stack = .int :: .ofFieldType t.array :: rest →
        h.height ≤ h.maxStack.toNat → after (c.effect 3 (.plain .aaload : Instruction Handle)) h =
          .ok (h.withStack (.ofFieldType t :: rest)) := by
  intro always
  have made : after (matrixContext.effect 0 (.newArray .int : Instruction Handle))
      (.ofStack #[] [.int] 2) = .ok (.ofStack #[] [.object "[I"] 2) := by
    decide +kernel
  have fails : after (matrixContext.effect 3 (.plain .aaload : Instruction Handle))
      (.ofStack #[] [.int, .object "[I"] 2) = .error .notArray := by
    decide +kernel
  have loaded := always matrixContext _ (.base .int) _ _ (.ofStack #[] [.int, .object "[I"] 2) []
    (.newArray .int) (by decide) made rfl (by decide)
  cases fails.symm.trans loaded

end MethodContext

end JvmClass
