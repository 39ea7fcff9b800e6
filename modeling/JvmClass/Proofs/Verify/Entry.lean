import JvmClass.Proofs.Verify.Layout
import JvmClass.Proofs.Verify.Words

/-! The local variables that a method starts with.  The receiver and the parameters are stored one
behind the other, so that their words fill the first variables, and the others hold nothing.  Whether
they fit has been checked long before, where their slots are added up without storing anything. -/

namespace JvmClass

open Width (width)

/-- What a local variable holds of a word: only the first half of a value is usable. -/
def Word.held (w : Word) : VType := if w.isSecond then .top else w.type

section Words

variable {us : List VType} {t : VType} {k : Nat}

theorem words_eq_append (here : us[k]? = some t) :
    words us = words (us.take k) ++ (t.words ++ words (us.drop (k + 1))) := by
  obtain ⟨inside, rfl⟩ := List.getElem?_eq_some_iff.mp here
  rw [← words_cons, ← List.drop_eq_getElem_cons inside, ← words_append, List.take_append_drop]

/-- A variable before the end of values holds the second half of a wide one or a narrow one. -/
theorem width_held_of_last {j : Nat} {w : Word} (ends : total width us = j + 1)
    (here : (words us)[j]? = some w) : width w.held = 1 := by
  obtain rfl | ⟨us, t, rfl⟩ := us.eq_nil_or_concat
  · cases ends
  · rw [List.concat_eq_append] at ends here
    rw [total_append, total_cons, total_nil, Nat.add_zero, ← t.length_words] at ends
    rw [words_append, words_cons, words_nil, List.append_nil] at here
    have length := t.length_words
    obtain narrow | wide := t.words_cases
    · rw [narrow] at ends here length
      obtain rfl : j = total width us := Nat.succ.inj ends.symm
      rw [← length_words, List.getElem?_concat_length] at here
      cases here
      exact length.symm
    · rw [wide] at ends here
      obtain rfl : j = total width us + 1 := Nat.succ.inj ends.symm
      rw [← length_words, List.getElem?_append_right (Nat.le_add_right ..),
        Nat.add_sub_cancel_left] at here
      cases here
      rfl

end Words

namespace Frame

variable {size k : Nat} {us : List VType} {t : VType} {g : Frame}

def filled (size : Nat) (us : List VType) : Array VType :=
  ((words us).map Word.held ++ List.replicate (size - total width us) VType.top).toArray

@[simp] theorem filled_nil (size : Nat) : filled size [] = Array.replicate size .top := by
  simp [filled]

theorem size_filled (fits : total width us ≤ size) : (filled size us).size = size := by
  simp [filled, fits]

theorem getElem?_filled_words (here : k < total width us) :
    (filled size us)[k]? = (words us)[k]?.map Word.held := by
  rw [filled, List.getElem?_toArray, List.getElem?_append_left (by simpa using here),
    List.getElem?_map]

theorem getElem?_filled_rest (behind : total width us ≤ k) (inside : k < size) :
    (filled size us)[k]? = some .top := by
  have left : k - total width us < size - total width us := by omega
  rw [filled, List.getElem?_toArray, List.getElem?_append_right (by simpa using behind)]
  simp [left]

theorem getElem?_filled (here : us[k]? = some t) :
    (filled size us)[total width (us.take k)]? = some t ∧
    (width t = 2 → (filled size us)[total width (us.take k) + 1]? = some .top) := by
  have behind {n : Nat} (inside : n < width t) :
      (filled size us)[total width (us.take k) + n]? = t.words[n]?.map Word.held := by
    have words := words_eq_append here
    have length := congrArg List.length words
    simp only [List.length_append, length_words, t.length_words] at length
    rw [getElem?_filled_words (by omega), words,
      List.getElem?_append_right (by simp), length_words, Nat.add_sub_cancel_left,
      List.getElem?_append_left (by rwa [t.length_words])]
  obtain narrow | wide := t.words_cases
  · have length := t.length_words
    rw [narrow] at length behind
    refine ⟨behind (n := 0) t.width_pos, fun two => ?_⟩
    cases length.trans two
  · have length := t.length_words
    rw [wide] at length behind
    exact ⟨behind (n := 0) t.width_pos, fun two => behind (n := 1) (by rw [two]; decide)⟩

theorem breakWide_of_narrow {ls : Array VType} {i : Nat}
    (narrow : ∀ j t, i = j + 1 → ls[j]? = some t → width t ≠ 2) : breakWide ls i = ls := by
  unfold breakWide
  split
  · rfl
  · split
    · rename_i found
      rw [if_neg (narrow _ _ rfl found)]
    · rfl

theorem written_filled (fits : total width us + width t ≤ size) :
    written (filled size us) (total width us) t = filled size (us ++ [t]) := by
  have unbroken : breakWide (filled size us) (total width us) = filled size us := by
    refine breakWide_of_narrow fun j u ends here => ?_
    rw [getElem?_filled_words (by omega)] at here
    obtain ⟨w, found, rfl⟩ := Option.map_eq_some_iff.mp here
    rw [width_held_of_last ends found]
    decide
  have all : total width (us ++ [t]) = total width us + width t := by simp
  have entry := @getElem?_filled size us.length (us ++ [t]) t (by simp)
  rw [List.take_left] at entry
  refine Array.ext_getElem? fun j => ?_
  rw [getElem?_written (by rwa [size_filled (by omega)]), unbroken]
  -- A variable is before the new value, has its first or its second half, or is behind it.
  by_cases before : j < total width us
  · rw [if_neg (by omega), if_neg (by omega), getElem?_filled_words before,
      getElem?_filled_words (by omega), words_append,
      List.getElem?_append_left (by rwa [length_words])]
  by_cases start : j = total width us
  · rw [if_pos start, start, entry.1]
  by_cases second : width t = 2 ∧ j = total width us + 1
  · rw [if_neg start, if_pos second, second.2, entry.2 second.1]
  · rw [if_neg start, if_neg second]
    have behind : total width (us ++ [t]) ≤ j := by
      have either := t.width_eq
      omega
    by_cases inside : j < size
    · rw [getElem?_filled_rest (by omega) inside, getElem?_filled_rest behind inside]
    · rw [Array.getElem?_eq_none (by rw [size_filled (by omega)]; omega),
        Array.getElem?_eq_none (by rw [size_filled (by omega)]; omega)]

theorem store_filled {slot : UInt16} {stack : List VType} {maxStack : UInt16}
    (here : slot.toNat = total width us) (inside : total width us ≤ size) :
    store slot t (.ofStack (filled size us) stack maxStack) = .ok () g ↔
      total width us + width t ≤ size ∧ g = .ofStack (filled size (us ++ [t])) stack maxStack := by
  unfold store ofStack
  simp only [size_filled inside, here]
  split
  · rename_i outside
    refine iff_of_false (fun same => ?_) fun both => Nat.not_le_of_lt outside both.1
    cases same
  · rename_i room
    rw [written_filled (Nat.le_of_not_lt room)]
    simp [Nat.le_of_not_lt room, eq_comm]

end Frame

namespace MethodContext

open JvmClass.Frame

variable {c : MethodContext} {size : Nat} {us : List VType} {f g : Frame} {maxLocals maxStack : UInt16}
  {isStatic : Bool}

theorem total_width_ofFieldType (ts : List FieldType) :
    total width (ts.map VType.ofFieldType) = total FieldType.slots ts := by
  rw [total_map]
  simp only [width_ofFieldType]

theorem storeParameters_eq_ok_iff {ts : List FieldType} {slot : UInt16} {stack : List VType}
    (bound : size < 0x10000) (here : slot.toNat = total width us) (inside : total width us ≤ size) :
    storeParameters ts slot (.ofStack (filled size us) stack maxStack) = .ok () g ↔
      total width us + total FieldType.slots ts ≤ size ∧
        g = .ofStack (filled size (us ++ ts.map .ofFieldType)) stack maxStack := by
  induction ts generalizing us slot with
  | nil =>
    rw [storeParameters, return_eq_ok_iff, total_nil, List.map_nil, List.append_nil]
    simp [inside, eq_comm]
  | cons t ts ih =>
    have all : total width (us ++ [VType.ofFieldType t]) = total width us + t.slots := by
      simp [width_ofFieldType]
    have others (room : total width us + t.slots ≤ size) :
        storeParameters ts (slot + (width (VType.ofFieldType t)).toUInt16)
          (.ofStack (filled size (us ++ [.ofFieldType t])) stack maxStack) = .ok () g ↔
          total width us + total FieldType.slots (t :: ts) ≤ size ∧
            g = .ofStack (filled size (us ++ (t :: ts).map .ofFieldType)) stack maxStack := by
      -- The slots do not start over, because the parameter before the next one has been stored.
      have next : (slot + (width (VType.ofFieldType t)).toUInt16).toNat =
          total width (us ++ [VType.ofFieldType t]) := by
        rw [UInt16.toNat_add, UInt16.toNat_ofNat', width_ofFieldType, all]
        omega
      rw [ih next (all ▸ room), all, total_cons, List.map_cons, List.append_assoc, Nat.add_assoc]
      rfl
    simp only [storeParameters, then_eq_ok_iff, store_filled here inside, width_ofFieldType]
    simp only [width_ofFieldType] at others
    constructor
    · rintro ⟨_, ⟨room, rfl⟩, done⟩
      exact (others room).mp done
    · rintro ⟨fits, rfl⟩
      have room : total width us + t.slots ≤ size := by
        rw [total_cons] at fits
        omega
      exact ⟨_, ⟨room, rfl⟩, (others room).mpr ⟨fits, rfl⟩⟩

def entering (c : MethodContext) (isStatic : Bool) : List VType :=
  (if isStatic then [] else [c.receiverType]) ++ c.type.parameters.map .ofFieldType

theorem total_entering (c : MethodContext) (isStatic : Bool) :
    total width (c.entering isStatic) = c.type.parameterSlots (!isStatic) := by
  cases isStatic <;>
    simp [entering, MethodType.parameterSlots, total_width_ofFieldType, width_receiverType]

theorem getElem?_entering (isStatic : Bool) {k : Nat} {t : FieldType}
    (here : c.type.parameters[k]? = some t) :
    let receiver := if isStatic then 0 else 1
    (c.entering isStatic)[receiver + k]? = some (.ofFieldType t) ∧
      total width ((c.entering isStatic).take (receiver + k)) =
        receiver + total FieldType.slots (c.type.parameters.take k) := by
  cases isStatic with
  | true => simp [entering, here, ← List.map_take, total_width_ofFieldType]
  | false =>
    simp [entering, here, ← List.map_take, total_width_ofFieldType, width_receiverType,
      Nat.add_comm 1 k]

/-- What a method starts with, if it can. -/
theorem entryFrame_eq_ok_iff : c.entryFrame maxLocals maxStack isStatic = .ok f ↔
    c.type.parameterSlots (!isStatic) ≤ maxLocals.toNat ∧
      f = .ofStack (filled maxLocals.toNat (c.entering isStatic)) [] maxStack := by
  have bound := maxLocals.toNat_lt
  have start : Frame.empty maxLocals maxStack = .ofStack (filled maxLocals.toNat []) [] maxStack := by
    rw [filled_nil]
    rfl
  unfold entryFrame
  rw [after_eq_ok_iff, start, ← total_entering, entering]
  cases isStatic with
  | true =>
    rw [if_pos rfl, if_pos rfl, storeParameters_eq_ok_iff bound rfl (Nat.zero_le _)]
    simp [total_width_ofFieldType]
  | false =>
    have zero : (0 : UInt16).toNat = total width ([] : List VType) := rfl
    have narrow : total width [c.receiverType] = 1 := width_receiverType
    have one : (1 : UInt16).toNat = total width [c.receiverType] := narrow.symm
    have others (room : 1 ≤ maxLocals.toNat) : storeParameters c.type.parameters 1
        (.ofStack (filled maxLocals.toNat [c.receiverType]) [] maxStack) = .ok () f ↔
          total width ([c.receiverType] ++ c.type.parameters.map .ofFieldType) ≤ maxLocals.toNat ∧
            f = .ofStack (filled maxLocals.toNat
              ([c.receiverType] ++ c.type.parameters.map .ofFieldType)) [] maxStack := by
      rw [storeParameters_eq_ok_iff bound one (narrow ▸ room), total_append,
        total_width_ofFieldType]
    simp only [Bool.false_eq_true, if_false, then_eq_ok_iff, store_filled zero (Nat.zero_le _)]
    constructor
    · rintro ⟨_, ⟨room, rfl⟩, done⟩
      rw [width_receiverType] at room
      exact (others room).mp done
    · rintro ⟨fits, rfl⟩
      have room : 1 ≤ maxLocals.toNat := by
        rw [total_append, narrow] at fits
        omega
      exact ⟨_, ⟨by rwa [width_receiverType], rfl⟩, (others room).mpr ⟨fits, rfl⟩⟩

/-- A method can start just when it has local variables for the slots of its receiver and its
parameters.  Then the stack is empty, the receiver is in the first variable unless there is none, each
parameter is behind the slots of those before it, and nothing usable is behind a wide one or behind
all of them. -/
theorem entryFrame_layout (c : MethodContext) (maxLocals maxStack : UInt16) (isStatic : Bool) :
    ((∃ f, c.entryFrame maxLocals maxStack isStatic = .ok f) ↔
      c.type.parameterSlots (!isStatic) ≤ maxLocals.toNat) ∧
    ∀ f, c.entryFrame maxLocals maxStack isStatic = .ok f →
      f.stack = [] ∧ f.maxStack = maxStack ∧ f.locals.size = maxLocals.toNat ∧
      (isStatic = false → f.locals[0]? = some
        (if c.isConstructor ∧ c.thisClass ≠ Name.object then .uninitializedThis
          else .object c.thisClass)) ∧
      (∀ k t, c.type.parameters[k]? = some t →
        let slot := (if isStatic then 0 else 1) + total FieldType.slots (c.type.parameters.take k)
        f.locals[slot]? = some (.ofFieldType t) ∧
          (t.slots = 2 → f.locals[slot + 1]? = some .top)) ∧
      ∀ slot, c.type.parameterSlots (!isStatic) ≤ slot → slot < maxLocals.toNat →
        f.locals[slot]? = some .top := by
  simp only [entryFrame_eq_ok_iff]
  refine ⟨by simp, ?_⟩
  rintro _ ⟨fits, rfl⟩
  rw [← total_entering] at fits ⊢
  refine ⟨stack_ofStack .., rfl, size_filled fits, ?_, ?_, fun slot => getElem?_filled_rest⟩
  · rintro rfl
    exact (getElem?_filled (k := 0) rfl).1
  · intro k t here
    obtain ⟨value, before⟩ := getElem?_entering isStatic here
    rw [← before, ← width_ofFieldType]
    exact getElem?_filled value

/-- A constructor takes a long number and a number.  It starts with five local variables, one of them
to spare, but not with three. -/
theorem entryFrame_layout_constructor :
    (∃ f, entryFrame ⟨.empty, "a/B", ⟨[.base .long, .base .int], none⟩, true⟩ 5 2 false = .ok f ∧
      f.stack = [] ∧ f.locals.size = 5 ∧ f.locals[0]? = some .uninitializedThis ∧
      f.locals[1]? = some .long ∧ f.locals[2]? = some .top ∧ f.locals[3]? = some .int ∧
      f.locals[4]? = some .top) ∧
    ¬ ∃ f, entryFrame ⟨.empty, "a/B", ⟨[.base .long, .base .int], none⟩, true⟩ 3 2 false =
      .ok f := by
  obtain ⟨starts, entered⟩ := entryFrame_layout
    ⟨.empty, "a/B", ⟨[.base .long, .base .int], none⟩, true⟩ 5 2 false
  obtain ⟨f, done⟩ := starts.mpr (by decide)
  obtain ⟨stack, _, size, receiver, parameters, rest⟩ := entered f done
  have first := parameters 0 (.base .long) rfl
  have second := parameters 1 (.base .int) rfl
  refine ⟨⟨f, done, stack, size, receiver rfl, first.1, first.2 rfl, second.1,
    rest 4 (by decide) (by decide)⟩, ?_⟩
  rw [(entryFrame_layout _ 3 2 false).1]
  decide

end MethodContext

end JvmClass
