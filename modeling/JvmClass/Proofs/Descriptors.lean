import JvmClass.Descriptor
import JvmClass.Proofs.Names

/-! Types as descriptors and class constants write them.  What is read from a text is well formed, and
the text is its written form.  In the other direction, a class constant with the name of a well-formed
type is read as this type; so are the types of arrays of it and of their elements. -/

namespace JvmClass

def ElementType.WellFormed : ElementType → Prop
  | base _ => True
  | object n => Name.checkBinary n = .ok ()

/-- Arrays have at least one dimension, and not too many of them. -/
def RefType.WellFormed : RefType → Prop
  | object n => Name.checkBinary n = .ok ()
  | array d e => 1 ≤ d ∧ d ≤ maxDimensions ∧ e.WellFormed

def FieldType.WellFormed : FieldType → Prop
  | base _ => True
  | ref r => r.WellFormed

structure MethodType.WellFormed (m : MethodType) : Prop where
  parameters : ∀ t ∈ m.parameters, t.WellFormed
  returns : ∀ t ∈ m.returns, t.WellFormed

namespace ElementType

theorem WellFormed.toFieldType {e : ElementType} (wellFormed : e.WellFormed) :
    e.toFieldType.WellFormed := by
  cases e <;> exact wellFormed

theorem head?_chars_ne_bracket (e : ElementType) (rest : List Char) :
    (e.chars ++ rest).head? ≠ some '[' := by
  cases e with
  | base b => cases b <;> simp [chars, BaseType.letter]
  | object n => simp [chars]

end ElementType

namespace RefType

theorem WellFormed.component {d : Nat} {e : ElementType} (wellFormed : (array d e).WellFormed) :
    (RefType.component d e).WellFormed := by
  obtain ⟨_, fits, element⟩ := wellFormed
  unfold RefType.component
  split
  · exact ⟨by omega, by omega, element⟩
  · exact element.toFieldType

def dimensions : RefType → Nat
  | object _ => 0
  | array d _ => d

theorem WellFormed.arrayOf {r : RefType} (wellFormed : r.WellFormed)
    (bounded : r.dimensions < maxDimensions) : (RefType.arrayOf (.ref r)).WellFormed := by
  cases r with
  | object n => exact ⟨Nat.le_refl 1, by decide, wellFormed⟩
  | array d e => exact ⟨by omega, bounded, wellFormed.2.2⟩

end RefType

theorem BaseType.eq_letter_of_ofLetter? {c : Char} {b : BaseType}
    (letter : ofLetter? c = some b) : c = b.letter := by
  unfold ofLetter? at letter
  split at letter <;> cases letter <;> rfl

namespace MethodType

def returnChars : Option FieldType → List Char
  | none => ['V']
  | some t => t.chars

theorem chars_eq (m : MethodType) : m.chars =
    '(' :: (m.parameters.flatMap FieldType.chars ++ ')' :: returnChars m.returns) := rfl

end MethodType

namespace Descriptor

variable {cs rest : List Char} {e : ElementType} {r : RefType} {t : FieldType} {ts : List FieldType}

theorem readObject_eq_ok {n : String} (read : readObject cs = .ok (n, rest)) :
    cs = (ElementType.object n).chars ++ rest ∧ Name.checkBinary n = .ok () := by
  unfold readObject at read
  split at read
  case h_2 => cases read
  case h_1 cs =>
    dsimp only at read
    have parts := List.takeWhile_append_dropWhile (p := (· != ';')) (l := cs)
    have ends := List.head?_dropWhile_not (· != ';') cs
    split at read
    · cases read
    · rename_i c rest' stops
      rw [stops] at parts ends
      obtain rfl : c = ';' := by simpa using ends
      split at read
      · cases read
      · rename_i binary
        cases read
        refine ⟨?_, binary⟩
        rw [ElementType.chars, String.toList_ofList, List.append_assoc]
        exact congrArg _ parts.symm

theorem readElement_eq_ok (read : readElement cs = .ok (e, rest)) :
    cs = e.chars ++ rest ∧ e.WellFormed := by
  cases cs with
  | nil => cases read
  | cons c cs =>
    unfold readElement at read
    cases letter : BaseType.ofLetter? c with
    | some b =>
      simp only [letter] at read
      cases read
      rw [BaseType.eq_letter_of_ofLetter? letter]
      exact ⟨rfl, trivial⟩
    | none =>
      simp only [letter] at read
      split at read
      · obtain ⟨⟨n, rest'⟩, object, same⟩ := eq_ok_of_map read
        cases same
        exact readObject_eq_ok object
      · cases read

theorem readArray_eq_ok (read : readArray cs = .ok (r, rest)) :
    cs = r.chars ++ rest ∧ r.WellFormed ∧ ∃ d e, r = .array d e := by
  unfold readArray at read
  dsimp only at read
  split at read
  · cases read
  · rename_i some
    split at read
    · cases read
    · rename_i fits
      obtain ⟨⟨e, rest'⟩, element, same⟩ := eq_ok_of_map read
      cases same
      obtain ⟨chars, wellFormed⟩ := readElement_eq_ok element
      refine ⟨?_, ⟨Nat.le_of_not_lt some, Nat.le_of_not_lt fits, wellFormed⟩, _, e, rfl⟩
      have brackets : cs.takeWhile (· == '[') =
          List.replicate (cs.takeWhile (· == '[')).length '[' :=
        List.eq_replicate_of_mem fun c member =>
          beq_iff_eq.mp (List.all_eq_true.mp List.all_takeWhile c member)
      rw [RefType.chars, ← brackets, List.append_assoc, ← chars, List.takeWhile_append_dropWhile]

theorem readRef_eq_ok (read : readRef cs = .ok (r, rest)) :
    cs = r.chars ++ rest ∧ r.WellFormed := by
  unfold readRef at read
  split at read
  · cases read
  · obtain ⟨⟨n, rest'⟩, object, same⟩ := eq_ok_of_map read
    cases same
    exact readObject_eq_ok object
  · obtain ⟨chars, wellFormed, _⟩ := readArray_eq_ok read
    exact ⟨chars, wellFormed⟩
  · cases read

theorem readField_eq_ok (read : readField cs = .ok (t, rest)) :
    cs = t.chars ++ rest ∧ t.WellFormed := by
  unfold readField at read
  split at read
  · cases read
  · split at read
    · rename_i letter
      cases read
      rw [BaseType.eq_letter_of_ofLetter? letter]
      exact ⟨rfl, trivial⟩
    · split at read
      · obtain ⟨⟨r, rest'⟩, ref, same⟩ := eq_ok_of_map read
        cases same
        exact readRef_eq_ok ref
      · cases read

theorem readParameters_eq_ok (read : readParameters cs = .ok (ts, rest)) :
    cs = ts.flatMap FieldType.chars ++ ')' :: rest ∧ ∀ t ∈ ts, t.WellFormed := by
  induction cs using readParameters.induct generalizing ts with
  | case1 =>
    rw [readParameters] at read
    cases read
  | case2 =>
    rw [readParameters] at read
    cases read
    simp
  | case3 c cs other e failed =>
    rw [readParameters] at read
    · split at read <;> simp_all
    · exact other
  | case4 c cs other t rest' first ih =>
    rw [readParameters] at read
    · split at read
      · cases read
      · rename_i found
        cases first.symm.trans found
        obtain ⟨⟨ts', rest''⟩, others, same⟩ := eq_ok_of_map read
        cases same
        obtain ⟨here, wellFormed⟩ := readField_eq_ok first
        obtain ⟨there, each⟩ := ih others
        refine ⟨?_, List.forall_mem_cons.mpr ⟨wellFormed, each⟩⟩
        rw [here, there, List.flatMap_cons, List.append_assoc]
    · exact other

theorem readReturn_eq_ok {t? : Option FieldType} (read : readReturn cs = .ok (t?, rest)) :
    cs = MethodType.returnChars t? ++ rest ∧ ∀ t ∈ t?, t.WellFormed := by
  unfold readReturn at read
  split at read
  · cases read
    simp [MethodType.returnChars]
  · obtain ⟨⟨t, rest'⟩, field, same⟩ := eq_ok_of_map read
    cases same
    obtain ⟨chars, wellFormed⟩ := readField_eq_ok field
    exact ⟨chars, by simpa using wellFormed⟩

theorem readMethod_eq_ok {m : MethodType} (read : readMethod cs = .ok (m, rest)) :
    cs = m.chars ++ rest ∧ m.WellFormed := by
  unfold readMethod at read
  split at read
  · obtain ⟨⟨ts, cs'⟩, parameters, read⟩ := bind_eq_ok read
    obtain ⟨⟨t?, cs''⟩, returns, read⟩ := bind_eq_ok read
    cases read
    obtain ⟨front, first⟩ := readParameters_eq_ok parameters
    obtain ⟨back, last⟩ := readReturn_eq_ok returns
    refine ⟨?_, first, last⟩
    rw [MethodType.chars_eq, front, back]
    simp
  · cases read

theorem readAll_eq_ok_iff {α : Type} {reader : Reader α} {source : String} {a : α} :
    readAll reader source = .ok a ↔ reader source.toList = .ok (a, []) := by
  unfold readAll
  split <;> simp_all

theorem readObject_append {n : String} (binary : Name.checkBinary n = .ok ()) (rest : List Char) :
    readObject ((ElementType.object n).chars ++ rest) = .ok (n, rest) := by
  have unterminated : ∀ c ∈ n.toList, (c != ';') = true := by
    intro c member
    refine bne_iff_ne.mpr ?_
    rintro rfl
    exact (Name.checkBinary_eq_ok_iff.mp binary).not_mem (by decide) (by decide) member
  have written : (ElementType.object n).chars ++ rest = 'L' :: (n.toList ++ ';' :: rest) := by
    simp [ElementType.chars]
  have front : (n.toList ++ ';' :: rest).takeWhile (· != ';') = n.toList := by
    rw [List.takeWhile_append_of_pos unterminated]
    simp
  have back : (n.toList ++ ';' :: rest).dropWhile (· != ';') = ';' :: rest := by
    rw [List.dropWhile_append_of_pos unterminated]
    simp
  rw [written, readObject]
  simp only [front, back, String.ofList_toList, binary]

theorem readElement_append (wellFormed : e.WellFormed) (rest : List Char) :
    readElement (e.chars ++ rest) = .ok (e, rest) := by
  cases e with
  | base b =>
    change readElement (b.letter :: rest) = _
    simp only [readElement, BaseType.ofLetter?_letter]
  | object n =>
    have read := readObject_append wellFormed rest
    change readElement ('L' :: (n.toList ++ [';'] ++ rest)) = _
    change readObject ('L' :: (n.toList ++ [';'] ++ rest)) = _ at read
    have letter : BaseType.ofLetter? 'L' = none := rfl
    simp only [readElement, letter, if_true, read]
    rfl

theorem readArray_append {d : Nat} (wellFormed : (RefType.array d e).WellFormed)
    (rest : List Char) : readArray ((RefType.array d e).chars ++ rest) = .ok (.array d e, rest) := by
  obtain ⟨some, fits, element⟩ := wellFormed
  have brackets : ∀ c ∈ List.replicate d '[', (c == '[') = true := by
    intro c member
    rw [List.eq_of_mem_replicate member]
    rfl
  have stops := e.head?_chars_ne_bracket rest
  have front : ((RefType.array d e).chars ++ rest).takeWhile (· == '[') = List.replicate d '[' := by
    rw [RefType.chars, List.append_assoc, List.takeWhile_append_of_pos brackets]
    cases written : e.chars ++ rest with
    | nil => simp
    | cons c cs => simp_all
  have back : ((RefType.array d e).chars ++ rest).dropWhile (· == '[') = e.chars ++ rest := by
    rw [RefType.chars, List.append_assoc, List.dropWhile_append_of_pos brackets]
    cases written : e.chars ++ rest with
    | nil => simp
    | cons c cs => simp_all
  unfold readArray
  simp only [front, back, List.length_replicate, if_neg (Nat.not_lt_of_le some),
    if_neg (Nat.not_lt_of_le fits), readElement_append element]
  rfl

theorem exists_refChars (wellFormed : r.WellFormed) :
    ∃ c cs, r.chars = c :: cs ∧ (c = 'L' ∨ c = '[') := by
  cases r with
  | object n => exact ⟨_, _, rfl, .inl rfl⟩
  | array d e =>
    obtain ⟨d, rfl⟩ := Nat.exists_eq_add_of_le' wellFormed.1
    exact ⟨_, _, rfl, .inr rfl⟩

theorem readRef_append (wellFormed : r.WellFormed) (rest : List Char) :
    readRef (r.chars ++ rest) = .ok (r, rest) := by
  cases r with
  | object n =>
    have read := readObject_append wellFormed rest
    change readObject ('L' :: (n.toList ++ [';'] ++ rest)) = _ at read
    change readRef ('L' :: (n.toList ++ [';'] ++ rest)) = _
    rw [readRef, read]
    rfl
  | array d e =>
    have read := readArray_append wellFormed rest
    obtain ⟨d, rfl⟩ := Nat.exists_eq_add_of_le' wellFormed.1
    exact read

theorem readField_append (wellFormed : t.WellFormed) (rest : List Char) :
    readField (t.chars ++ rest) = .ok (t, rest) := by
  cases t with
  | base b =>
    change readField (b.letter :: rest) = _
    simp only [readField, BaseType.ofLetter?_letter]
  | ref r =>
    have read := readRef_append wellFormed rest
    obtain ⟨c, cs, chars, kind⟩ := exists_refChars wellFormed
    have letter : BaseType.ofLetter? c = none := by
      obtain rfl | rfl := kind <;> rfl
    rw [chars] at read
    rw [FieldType.chars, chars]
    change readField (c :: (cs ++ rest)) = _
    change readRef (c :: (cs ++ rest)) = _ at read
    simp only [readField, letter, if_pos kind, read]
    rfl

theorem exists_fieldChars (wellFormed : t.WellFormed) :
    ∃ c cs, t.chars = c :: cs ∧ c ≠ ')' ∧ c ≠ 'V' := by
  cases t with
  | base b => exact ⟨_, _, rfl, by cases b <;> decide⟩
  | ref r =>
    obtain ⟨c, cs, chars, kind⟩ := exists_refChars wellFormed
    refine ⟨c, cs, chars, ?_⟩
    obtain rfl | rfl := kind <;> decide

theorem readParameters_append (wellFormed : ∀ t ∈ ts, t.WellFormed) (rest : List Char) :
    readParameters (ts.flatMap FieldType.chars ++ ')' :: rest) = .ok (ts, rest) := by
  induction ts with
  | nil =>
    change readParameters (')' :: rest) = _
    rw [readParameters]
  | cons t ts ih =>
    obtain ⟨here, others⟩ := List.forall_mem_cons.mp wellFormed
    have first := readField_append here (ts.flatMap FieldType.chars ++ ')' :: rest)
    obtain ⟨c, cs, chars, other, _⟩ := exists_fieldChars here
    rw [chars] at first
    rw [List.flatMap_cons, List.append_assoc, chars, List.cons_append, readParameters]
    · split
      · simp_all
      · rename_i found
        cases first.symm.trans found
        rw [ih others]
        rfl
    · exact fun same => other same

theorem readReturn_append {t? : Option FieldType} (wellFormed : ∀ t ∈ t?, t.WellFormed)
    (rest : List Char) : readReturn (MethodType.returnChars t? ++ rest) = .ok (t?, rest) := by
  cases t? with
  | none => rfl
  | some t =>
    have here := wellFormed t rfl
    have read := readField_append here rest
    obtain ⟨c, cs, chars, _, other⟩ := exists_fieldChars here
    rw [chars] at read
    rw [MethodType.returnChars, chars, List.cons_append, readReturn]
    · rw [← List.cons_append, read]
      rfl
    · exact fun _ same => other (List.cons.inj same).1

theorem readMethod_append {m : MethodType} (wellFormed : m.WellFormed) (rest : List Char) :
    readMethod (m.chars ++ rest) = .ok (m, rest) := by
  rw [MethodType.chars_eq, List.cons_append, List.append_assoc, List.cons_append, readMethod]
  rw [readParameters_append wellFormed.parameters]
  change (readReturn _ >>= _) = _
  rw [readReturn_append wellFormed.returns]
  rfl

end Descriptor

/-- A text is read as a type just when it is the written form of the type, which is well formed. -/
theorem FieldType.parse_eq_ok_iff {text : String} {t : FieldType} :
    FieldType.parse text = .ok t ↔ t.render = text ∧ t.WellFormed := by
  rw [FieldType.parse, Descriptor.readAll_eq_ok_iff]
  constructor
  · intro read
    obtain ⟨chars, wellFormed⟩ := Descriptor.readField_eq_ok read
    rw [List.append_nil] at chars
    exact ⟨by rw [render, ← chars, String.ofList_toList], wellFormed⟩
  · rintro ⟨rfl, wellFormed⟩
    simpa [render] using Descriptor.readField_append wellFormed []

theorem MethodType.parse_eq_ok_iff {text : String} {m : MethodType} :
    MethodType.parse text = .ok m ↔ m.render = text ∧ m.WellFormed := by
  rw [MethodType.parse, Descriptor.readAll_eq_ok_iff]
  constructor
  · intro read
    obtain ⟨chars, wellFormed⟩ := Descriptor.readMethod_eq_ok read
    rw [List.append_nil] at chars
    exact ⟨by rw [render, ← chars, String.ofList_toList], wellFormed⟩
  · rintro ⟨rfl, wellFormed⟩
    simpa [render] using Descriptor.readMethod_append wellFormed []

theorem FieldType.wellFormed_of_parse {text : String} {t : FieldType}
    (read : FieldType.parse text = .ok t) : t.WellFormed :=
  (FieldType.parse_eq_ok_iff.mp read).2

theorem MethodType.wellFormed_of_parse {text : String} {m : MethodType}
    (read : MethodType.parse text = .ok m) : m.WellFormed :=
  (MethodType.parse_eq_ok_iff.mp read).2

namespace RefType

variable {text : String} {r : RefType}

theorem className_of_ofClassName (read : RefType.ofClassName text = .ok r) : r.className = text := by
  unfold ofClassName at read
  split at read
  · obtain ⟨chars, _, d, e, rfl⟩ := Descriptor.readArray_eq_ok (Descriptor.readAll_eq_ok_iff.mp read)
    rw [List.append_nil] at chars
    rw [className, render, ← chars, String.ofList_toList]
  · split at read
    · cases read
    · cases read
      rfl

theorem wellFormed_of_ofClassName (read : RefType.ofClassName text = .ok r) : r.WellFormed := by
  unfold ofClassName at read
  split at read
  · exact (Descriptor.readArray_eq_ok (Descriptor.readAll_eq_ok_iff.mp read)).2.1
  · split at read
    · cases read
    · rename_i binary
      cases read
      exact binary

theorem ofClassName_className (wellFormed : r.WellFormed) :
    RefType.ofClassName r.className = .ok r := by
  cases r with
  | object n =>
    have plain : n.toList.head? ≠ some '[' := fun first =>
      (Name.checkBinary_eq_ok_iff.mp wellFormed).not_mem (by decide) (by decide)
        (List.mem_of_mem_head? first)
    unfold ofClassName
    rw [className, if_neg plain, wellFormed]
  | array d e =>
    have bracket : (array d e).chars.head? = some '[' := by
      obtain ⟨d, rfl⟩ := Nat.exists_eq_add_of_le' wellFormed.1
      rfl
    have read := Descriptor.readArray_append wellFormed []
    rw [List.append_nil] at read
    unfold ofClassName
    rw [className, render, String.toList_ofList, if_pos bracket, parseArray, Descriptor.readAll,
      String.toList_ofList, read]

end RefType

end JvmClass
