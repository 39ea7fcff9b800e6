import JvmClass.Proofs.Descriptors
import Mathlib.Data.Set.List

/-! Descriptors and the trees that they write.  In a tree, an array may have any number of dimensions and
any type as its element, so that not every tree is a type and trees may be written alike.  A text is read
just as the one tree with this written form that is well formed: its arrays have dimensions, but not too
many of them, over elements that are not arrays, and its names are binary names. -/

namespace JvmClass

/-- A type in which arrays may be put together in any way. -/
inductive TypeTree where
  | base (type : BaseType)
  | object (name : String)
  | array (dimensions : Nat) (element : TypeTree)

structure MethodTree where
  parameters : List TypeTree
  returns : Option TypeTree

namespace TypeTree

def chars : TypeTree → List Char
  | base b => [b.letter]
  | object n => 'L' :: n.toList ++ [';']
  | array d e => List.replicate d '[' ++ e.chars

def render (t : TypeTree) : String := String.ofList t.chars

def IsArray : TypeTree → Prop
  | array _ _ => True
  | _ => False

def WellFormed : TypeTree → Prop
  | base _ => True
  | object n => Name.IsBinary n
  | array d e => 1 ≤ d ∧ d ≤ 255 ∧ ¬ e.IsArray ∧ e.WellFormed

end TypeTree

namespace MethodTree

def chars (m : MethodTree) : List Char :=
  '(' :: m.parameters.flatMap TypeTree.chars ++ ')' ::
    match m.returns with
    | none => ['V']
    | some t => t.chars

def render (m : MethodTree) : String := String.ofList m.chars

structure WellFormed (m : MethodTree) : Prop where
  parameters : ∀ t ∈ m.parameters, t.WellFormed
  returns : ∀ t ∈ m.returns, t.WellFormed

end MethodTree

def ElementType.tree : ElementType → TypeTree
  | base b => .base b
  | object n => .object n

def FieldType.tree : FieldType → TypeTree
  | base b => .base b
  | ref (.object n) => .object n
  | ref (.array d e) => .array d e.tree

def MethodType.tree (m : MethodType) : MethodTree :=
  ⟨m.parameters.map FieldType.tree, m.returns.map FieldType.tree⟩

namespace ElementType

variable {e : ElementType}

theorem chars_tree (e : ElementType) : e.tree.chars = e.chars := by
  cases e <;> rfl

theorem not_isArray_tree (e : ElementType) : ¬ e.tree.IsArray := by
  cases e <;> exact id

theorem wellFormed_tree_iff : e.tree.WellFormed ↔ e.WellFormed := by
  cases e with
  | base b => exact Iff.rfl
  | object n => exact Name.checkBinary_eq_ok_iff.symm

theorem exists_tree {t : TypeTree} (flat : ¬ t.IsArray) : ∃ e : ElementType, e.tree = t := by
  cases t with
  | base b => exact ⟨.base b, rfl⟩
  | object n => exact ⟨.object n, rfl⟩
  | array d e => exact absurd trivial flat

end ElementType

namespace FieldType

variable {t u : FieldType}

theorem chars_tree (t : FieldType) : t.tree.chars = t.chars := by
  rcases t with b | n | ⟨d, e⟩
  · rfl
  · rfl
  · exact congrArg _ e.chars_tree

theorem render_tree (t : FieldType) : t.tree.render = t.render :=
  congrArg String.ofList t.chars_tree

theorem wellFormed_tree_iff : t.tree.WellFormed ↔ t.WellFormed := by
  rcases t with b | n | ⟨d, e⟩
  · exact Iff.rfl
  · exact Name.checkBinary_eq_ok_iff.symm
  · refine and_congr_right fun _ => and_congr_right fun _ => ?_
    exact (and_iff_right e.not_isArray_tree).trans ElementType.wellFormed_tree_iff

/-- A well-formed tree is the tree of a type. -/
theorem exists_tree {t : TypeTree} (wellFormed : t.WellFormed) : ∃ u : FieldType, u.tree = t := by
  cases t with
  | base b => exact ⟨.base b, rfl⟩
  | object n => exact ⟨.ref (.object n), rfl⟩
  | array d e =>
    obtain ⟨e, rfl⟩ := ElementType.exists_tree wellFormed.2.2.1
    exact ⟨.ref (.array d e), rfl⟩

end FieldType

namespace MethodType

variable {m : MethodType}

theorem chars_tree (m : MethodType) : m.tree.chars = m.chars := by
  obtain ⟨ts, t?⟩ := m
  cases t? with
  | none => simp [tree, MethodTree.chars, chars, List.flatMap_map, FieldType.chars_tree]
  | some t => simp [tree, MethodTree.chars, chars, List.flatMap_map, FieldType.chars_tree]

theorem render_tree (m : MethodType) : m.tree.render = m.render :=
  congrArg String.ofList m.chars_tree

theorem wellFormed_tree_iff : m.tree.WellFormed ↔ m.WellFormed := by
  constructor
  · rintro ⟨parameters, returns⟩
    constructor
    · exact fun t member => FieldType.wellFormed_tree_iff.mp
        (parameters _ (List.mem_map_of_mem member))
    · exact fun t member => FieldType.wellFormed_tree_iff.mp
        (returns _ (Option.mem_map_of_mem _ member))
  · rintro ⟨parameters, returns⟩
    constructor
    · simpa [tree, FieldType.wellFormed_tree_iff] using parameters
    · simpa [tree, FieldType.wellFormed_tree_iff] using returns

theorem exists_tree {m : MethodTree} (wellFormed : m.WellFormed) :
    ∃ n : MethodType, n.tree = m := by
  obtain ⟨ts, t?⟩ := m
  obtain ⟨us, rfl⟩ : ts ∈ Set.range (List.map FieldType.tree) := by
    rw [Set.range_list_map]
    exact fun t member => FieldType.exists_tree (wellFormed.parameters t member)
  cases t? with
  | none => exact ⟨⟨us, none⟩, rfl⟩
  | some t =>
    obtain ⟨u, rfl⟩ := FieldType.exists_tree (wellFormed.returns t rfl)
    exact ⟨⟨us, some u⟩, rfl⟩

end MethodType

namespace Descriptor

/-- A text is read as a type or a signature just when it is what that writes and all arrays and names
in it are well formed, and then it is read as no other tree of types. -/
theorem parses_iff_writes (text : String) :
    (∀ t : FieldType, FieldType.parse text = .ok t ↔ t.render = text ∧ t.tree.WellFormed) ∧
    (∀ m : MethodType, MethodType.parse text = .ok m ↔ m.render = text ∧ m.tree.WellFormed) ∧
    (∀ t : TypeTree, (FieldType.parse text).map FieldType.tree = .ok t ↔
      t.render = text ∧ t.WellFormed) ∧
    ∀ m : MethodTree, (MethodType.parse text).map MethodType.tree = .ok m ↔
      m.render = text ∧ m.WellFormed := by
  have field (t : FieldType) :
      FieldType.parse text = .ok t ↔ t.render = text ∧ t.tree.WellFormed := by
    rw [FieldType.parse_eq_ok_iff, FieldType.wellFormed_tree_iff]
  have method (m : MethodType) :
      MethodType.parse text = .ok m ↔ m.render = text ∧ m.tree.WellFormed := by
    rw [MethodType.parse_eq_ok_iff, MethodType.wellFormed_tree_iff]
  refine ⟨field, method, ?_, ?_⟩
  · refine fun t => map_eq_ok_iff_of_onto (Q := fun t : TypeTree => t.render = text ∧ t.WellFormed)
      (fun u => ?_) fun t good => FieldType.exists_tree good.2
    rw [field, u.render_tree]
  · refine fun m => map_eq_ok_iff_of_onto (Q := fun m : MethodTree => m.render = text ∧ m.WellFormed)
      (fun n => ?_) fun m good => MethodType.exists_tree good.2
    rw [method, n.render_tree]

end Descriptor

end JvmClass
