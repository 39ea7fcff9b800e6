import JvmClass.Pool.Codec
import JvmClass.Proofs.Text.Forms
import JvmClass.Proofs.Wire.Accepts
import Mathlib.Data.Nat.Init

/-! The forms of constants and of pools.  A text constant has a form for each choice of forms of
its units; every other constant has one form. -/

namespace JvmClass

open Decoder Output

theorem HandleKind.code_of_ofCode? {code : UInt8} {k : HandleKind}
    (found : HandleKind.ofCode? code = some k) : k.code = code := by
  simpa using List.find?_some found

theorem HandleKind.accepts_decoder :
    Accepts HandleKind.decoder fun bytes k => bytes = [k.code] := by
  refine (accepts_bind (Q := fun code bytes k => bytes = [] ∧ k.code = code) accepts_byte
    fun code => ?_).congr fun bytes k => ?_
  · cases found : HandleKind.ofCode? code with
    | none =>
      refine (accepts_fail _).congr fun bytes k => ?_
      refine iff_of_false id ?_
      rintro ⟨_, rfl⟩
      rw [HandleKind.ofCode?_code] at found
      cases found
    | some j =>
      refine (accepts_pure j).congr fun bytes k => and_congr_right fun _ => ?_
      constructor
      · rintro rfl
        exact HandleKind.code_of_ofCode? found
      · rintro rfl
        rw [HandleKind.ofCode?_code] at found
        exact Option.some.inj found
  · constructor
    · rintro ⟨code, _, _, rfl, ⟨rfl, rfl⟩, rfl⟩
      rfl
    · rintro rfl
      exact ⟨k.code, [k.code], [], rfl, ⟨rfl, rfl⟩, rfl⟩

namespace Constant

/-- What a constant is written as: a text with a form for each of its units, or another
constant. -/
inductive Form where
  | text (forms : List (List UInt8))
  | plain (c : Constant)

def Form.bytes : Form → List UInt8
  | text forms => 1 :: (u16Bytes forms.flatten.length.toUInt16 ++ forms.flatten)
  | plain c => c.tag :: c.operands.bytes

inductive Form.Means : Form → Constant → Prop where
  | text {forms : List (List UInt8)} {s : String} (formed : Text.ModifiedUtf8.TextForm forms s)
      (short : forms.flatten.length < 65536) : Means (text forms) (utf8 s)
  | plain {c : Constant} (other : c.tag ≠ 1) : Means (plain c) c

def Form.Minimal : Form → Prop
  | text forms => ∀ form ∈ forms, Text.ModifiedUtf8.Shortest form
  | plain _ => True

variable {α : Type} {t : UInt8}

def Tagged (t : UInt8) (bytes : List UInt8) (c : Constant) : Prop :=
  c.tag = t ∧ bytes = c.operands.bytes

theorem accepts_operand {d : Decoder α} {e : α → List UInt8} {make : α → Constant}
    (accepts : Accepts d fun bytes a => bytes = e a)
    (tagged : ∀ a, Tagged t (e a) (make a)) (only : ∀ c, c.tag = t → ∃ a, c = make a) :
    Accepts (make <$> d) (Tagged t) := by
  refine (accepts_map make accepts).congr fun bytes c => ?_
  constructor
  · rintro ⟨a, rfl, rfl⟩
    exact tagged a
  · rintro ⟨tag, rfl⟩
    obtain ⟨a, rfl⟩ := only c tag
    exact ⟨a, (tagged a).2.symm, rfl⟩

theorem accepts_operands {d : Decoder α} {e : α → List UInt8} {make : α → UInt16 → Constant}
    (accepts : Accepts d fun bytes a => bytes = e a)
    (tagged : ∀ a i, Tagged t (e a ++ u16Bytes i) (make a i))
    (only : ∀ c, c.tag = t → ∃ a i, c = make a i) :
    Accepts (d >>= fun a => u16 >>= fun i => pure (make a i)) (Tagged t) := by
  have whole := accepts_bind accepts fun a => accepts_bind accepts_u16 fun i =>
    accepts_pure (make a i)
  refine whole.congr fun bytes c => ?_
  constructor
  · rintro ⟨a, _, _, rfl, ⟨i, _, _, rfl, ⟨rfl, rfl⟩, rfl⟩, rfl⟩
    rw [List.append_nil]
    exact tagged a i
  · rintro ⟨tag, rfl⟩
    obtain ⟨a, i, rfl⟩ := only c tag
    refine ⟨a, e a, u16Bytes i, rfl, ⟨i, u16Bytes i, [], rfl, ⟨rfl, rfl⟩, ?_⟩, ?_⟩
    · exact (List.append_nil _).symm
    · exact (tagged a i).2.symm

theorem rendered_iff_tagged (other : t ≠ 1) {bytes : List UInt8} {c : Constant} :
    Rendered Form.Means Form.bytes (t :: bytes) c ↔ Tagged t bytes c := by
  constructor
  · rintro ⟨form, means, same⟩
    cases means with
    | text formed short =>
      cases same
      exact absurd rfl other
    | plain different =>
      cases same
      exact ⟨rfl, rfl⟩
  · rintro ⟨rfl, rfl⟩
    exact ⟨.plain c, .plain other, rfl⟩

theorem accepts_text : Accepts (do
    let n ← u16
    let bytes ← run n.toNat
    match Text.ModifiedUtf8.decode bytes with
    | .ok s => pure (utf8 s)
    | .error cause => .fail (.text cause)) fun bytes c =>
      Rendered Form.Means Form.bytes (1 :: bytes) c := by
  have read : ∀ run, Accepts (match Text.ModifiedUtf8.decode run with
      | .ok s => pure (utf8 s)
      | .error cause => .fail (.text cause)) fun bytes c =>
        bytes = [] ∧ ∃ s, Text.ModifiedUtf8.decode run = .ok s ∧ c = utf8 s := by
    intro run
    cases found : Text.ModifiedUtf8.decode run with
    | ok s =>
      refine (accepts_pure (utf8 s)).congr fun bytes c => and_congr_right fun _ => ?_
      simp
    | error cause =>
      refine (accepts_fail _).congr fun bytes c => ?_
      simp
  have whole := accepts_bind accepts_u16 fun n => accepts_bind (accepts_run n.toNat) read
  refine whole.congr fun bytes c => ?_
  constructor
  · rintro ⟨n, _, _, rfl, ⟨run, _, _, ⟨rfl, length⟩, ⟨rfl, s, found, rfl⟩, rfl⟩, rfl⟩
    obtain ⟨forms, formed, rfl⟩ := Text.ModifiedUtf8.decode_eq_ok_iff.mp found
    have bound := n.toNat_lt
    refine ⟨.text forms, .text formed (by omega), ?_⟩
    rw [Form.bytes, length]
    simp
  · rintro ⟨form, means, same⟩
    cases means with
    | @text forms s formed short =>
      obtain rfl : bytes = _ := (List.cons.inj same).2
      have count : forms.flatten.length.toUInt16.toNat = forms.flatten.length :=
        UInt16.toNat_ofNat_of_lt' short
      refine ⟨_, _, _, rfl, ⟨forms.flatten, forms.flatten, [], ⟨rfl, count.symm⟩, ⟨rfl, s, ?_, rfl⟩,
        (List.append_nil _).symm⟩, rfl⟩
      exact Text.ModifiedUtf8.decode_eq_ok_iff.mpr ⟨forms, formed, rfl⟩
    | @plain c other => exact absurd (List.cons.inj same).1.symm other

theorem exists_of_tag {c : Constant} (same : c.tag = t) : match t with
    | 3 => ∃ n, c = integer n
    | 4 => ∃ b, c = float b
    | 5 => ∃ n, c = long n
    | 6 => ∃ b, c = double b
    | 7 => ∃ i, c = classInfo i
    | 8 => ∃ i, c = string i
    | 9 => ∃ o n, c = fieldRef o n
    | 10 => ∃ o n, c = methodRef o n false
    | 11 => ∃ o n, c = methodRef o n true
    | 12 => ∃ n d, c = nameAndType n d
    | 15 => ∃ k m, c = methodHandle k m
    | 16 => ∃ i, c = methodType i
    | 17 => ∃ b n, c = dynamic b n
    | 18 => ∃ b n, c = invokeDynamic b n
    | 19 => ∃ i, c = moduleInfo i
    | 20 => ∃ i, c = packageInfo i
    | t => t = 1 := by
  subst same
  cases c with
  | utf8 s => rfl
  | integer n => exact ⟨n, rfl⟩
  | float b => exact ⟨b, rfl⟩
  | long n => exact ⟨n, rfl⟩
  | double b => exact ⟨b, rfl⟩
  | methodRef o n f => cases f <;> exact ⟨o, n, rfl⟩
  | fieldRef x y | nameAndType x y | methodHandle x y | dynamic x y | invokeDynamic x y =>
    exact ⟨x, y, rfl⟩
  | classInfo i | string i | methodType i | moduleInfo i | packageInfo i => exact ⟨i, rfl⟩

theorem accepts_decoder : Accepts decoder (Rendered Form.Means Form.bytes) := by
  have plain : ∀ {t : UInt8} {d : Decoder Constant}, t ≠ 1 → Accepts d (Tagged t) →
      Accepts d fun bytes c => Rendered Form.Means Form.bytes (t :: bytes) c :=
    fun other accepts => accepts.congr fun _ _ => (rendered_iff_tagged other).symm
  refine (accepts_bind accepts_byte
    (Q := fun tag bytes c => Rendered Form.Means Form.bytes (tag :: bytes) c) ?_).congr ?_
  · intro tag
    split
    · exact accepts_text
    · exact plain (by decide)
        (accepts_operand accepts_i32 (fun _ => ⟨rfl, rfl⟩) fun _ => exists_of_tag)
    · exact plain (by decide)
        (accepts_operand accepts_u32 (fun _ => ⟨rfl, rfl⟩) fun _ => exists_of_tag)
    · exact plain (by decide)
        (accepts_operand accepts_i64 (fun _ => ⟨rfl, rfl⟩) fun _ => exists_of_tag)
    · exact plain (by decide)
        (accepts_operand accepts_u64 (fun _ => ⟨rfl, rfl⟩) fun _ => exists_of_tag)
    · exact plain (by decide)
        (accepts_operand accepts_u16 (fun _ => ⟨rfl, rfl⟩) fun _ => exists_of_tag)
    · exact plain (by decide)
        (accepts_operand accepts_u16 (fun _ => ⟨rfl, rfl⟩) fun _ => exists_of_tag)
    · exact plain (by decide)
        (accepts_operands accepts_u16 (fun _ _ => ⟨rfl, rfl⟩) fun _ => exists_of_tag)
    · exact plain (by decide)
        (accepts_operands accepts_u16 (fun _ _ => ⟨rfl, rfl⟩) fun _ => exists_of_tag)
    · exact plain (by decide)
        (accepts_operands accepts_u16 (fun _ _ => ⟨rfl, rfl⟩) fun _ => exists_of_tag)
    · exact plain (by decide)
        (accepts_operands accepts_u16 (fun _ _ => ⟨rfl, rfl⟩) fun _ => exists_of_tag)
    · exact plain (by decide)
        (accepts_operands HandleKind.accepts_decoder (fun _ _ => ⟨rfl, rfl⟩) fun _ => exists_of_tag)
    · exact plain (by decide)
        (accepts_operand accepts_u16 (fun _ => ⟨rfl, rfl⟩) fun _ => exists_of_tag)
    · exact plain (by decide)
        (accepts_operands accepts_u16 (fun _ _ => ⟨rfl, rfl⟩) fun _ => exists_of_tag)
    · exact plain (by decide)
        (accepts_operands accepts_u16 (fun _ _ => ⟨rfl, rfl⟩) fun _ => exists_of_tag)
    · exact plain (by decide)
        (accepts_operand accepts_u16 (fun _ => ⟨rfl, rfl⟩) fun _ => exists_of_tag)
    · exact plain (by decide)
        (accepts_operand accepts_u16 (fun _ => ⟨rfl, rfl⟩) fun _ => exists_of_tag)
    · refine (accepts_fail _).congr fun bytes c => iff_of_false id ?_
      rintro ⟨form, means, same⟩
      cases means with
      | text formed short =>
        obtain ⟨rfl, _⟩ := List.cons.inj same
        contradiction
      | plain other =>
        obtain ⟨rfl, _⟩ := List.cons.inj same
        have told := exists_of_tag (c := c) rfl
        split at told <;> contradiction
  · intro bytes c
    constructor
    · rintro ⟨tag, _, rest, rfl, rendered, rfl⟩
      exact rendered
    · rintro ⟨form, means, rfl⟩
      cases form with
      | text forms => exact ⟨_, _, _, rfl, ⟨.text forms, means, rfl⟩, rfl⟩
      | plain c => exact ⟨_, _, _, rfl, ⟨.plain c, means, rfl⟩, rfl⟩

theorem checkLength_utf8_iff {s : String} : (utf8 s).checkLength = .ok () ↔
    (Text.ModifiedUtf8.encode s).length < 65536 := by
  by_cases short : (Text.ModifiedUtf8.encode s).length < 65536 <;>
    simp [checkLength, length16, short, Except.map]

theorem checkLength_plain {c : Constant} (other : c.tag ≠ 1) : c.checkLength = .ok () := by
  cases c with
  | utf8 s => exact absurd rfl other
  | _ => rfl

theorem encode_text {s : String} (short : (Text.ModifiedUtf8.encode s).length < 65536) :
    (utf8 s).encode = .put (1 :: (u16Bytes (Text.ModifiedUtf8.encode s).length.toUInt16 ++
      Text.ModifiedUtf8.encode s)) := by
  rw [encode, checkLength_utf8_iff.mpr short]
  rfl

theorem encode_plain {c : Constant} (other : c.tag ≠ 1) :
    c.encode = .put (c.tag :: c.operands.bytes) := by
  cases c with
  | utf8 s => exact absurd rfl other
  | _ => rfl

theorem rewrites_constant : Renews Form.Means Form.bytes encode Form.Minimal := by
  intro form c means
  cases means with
  | @text forms s formed short =>
    have piece := Text.ModifiedUtf8.rewrites_text formed
    have shrinks := piece.shrinks
    have flat := Text.ModifiedUtf8.flatten_textForms s
    refine ⟨.text (Text.ModifiedUtf8.textForms s), .text ?_ ?_, ⟨?_, ?_, ?_⟩⟩
    · exact Text.ModifiedUtf8.textForm_textForms s
    · rw [flat]
      omega
    · rw [encode_text (by omega), Form.bytes, flat]
    · rw [Form.bytes, Form.bytes, flat]
      simp only [List.length_cons, List.length_append]
      exact Nat.succ_le_succ (Nat.add_le_add_left shrinks 2)
    · rw [Form.bytes, Form.bytes, flat, Form.Minimal, ← piece.same_iff]
      constructor
      · intro same
        exact (List.append_inj (List.cons.inj same).2 rfl).2
      · intro same
        rw [same]
  | plain other =>
    refine ⟨.plain c, .plain other, ?_⟩
    have piece := rewrites_put (Form.plain c).bytes
    rwa [Form.bytes, ← encode_plain other] at piece

theorem Form.Means.checkLength {form : Form} {c : Constant} (means : form.Means c) :
    c.checkLength = .ok () := by
  cases means with
  | text formed short =>
    have shrinks := (Text.ModifiedUtf8.rewrites_text formed).shrinks
    exact checkLength_utf8_iff.mpr (Nat.lt_of_le_of_lt shrinks short)
  | plain other => exact checkLength_plain other

end Constant

namespace Pool

def ofConstants (cs : List Constant) : Pool := cs.foldl extended empty

variable {p q : Pool} {c : Constant} {cs : List Constant} {forms : List Constant.Form}

theorem constants_foldl (p : Pool) (cs : List Constant) :
    (cs.foldl extended p).constants = p.constants ++ cs := by
  induction cs generalizing p with
  | nil => rw [List.foldl_nil, List.append_nil]
  | cons c cs ih =>
    rw [List.foldl_cons, ih, constants_extended, List.append_assoc]
    rfl

@[simp] theorem constants_ofConstants (cs : List Constant) : (ofConstants cs).constants = cs :=
  constants_foldl empty cs

theorem next_le_foldl (p : Pool) (cs : List Constant) :
    p.entries.next ≤ (cs.foldl extended p).entries.next := by
  induction cs generalizing p with
  | nil => exact Nat.le_refl _
  | cons c cs ih =>
    have step := ih (p.extended c)
    rw [next_extended] at step
    exact Nat.le_trans (Nat.le_add_right _ _) step

theorem toNat_count (bound : p.entries.next < 65536) : p.count.toNat = p.entries.next := by
  simpa [count] using Nat.mod_eq_of_lt bound

theorem enter_eq (room : p.entries.next + Width.width c < 65536) :
    enter c p = c.checkLength.map fun _ => p.extended c := by
  have bound : p.entries.next < 65536 := Nat.lt_of_le_of_lt (Nat.le_add_right _ _) room
  unfold enter push
  dsimp only
  rw [toNat_count bound, if_neg (by omega)]
  cases c.checkLength <;> rfl

theorem fill_of_lt {count : Nat} (more : p.entries.next < count) : fill count p = (do
    let c ← Constant.decoder
    if p.entries.next + Width.width c > count then .fail (.poolSpill p.entries.next count)
    else
      match enter c p with
      | .error e => throw e
      | .ok q => fill count q) := by
  rw [fill, if_pos more]
  congr
  funext c
  split
  · rfl
  · split <;> simp_all

theorem accepts_fill (count : Nat) (p : Pool) (room : p.entries.next ≤ count)
    (bound : count < 65536) :
    Accepts (fill count p) fun bytes q => ∃ forms cs, List.Forall₂ Constant.Form.Means forms cs ∧
      bytes = forms.flatMap Constant.Form.bytes ∧ q = cs.foldl extended p ∧
      q.entries.next = count := by
  induction p using fill.induct count with
  | case1 p more ih =>
    rw [fill_of_lt more]
    have later : ∀ c, Accepts (if p.entries.next + Width.width c > count then
        .fail (.poolSpill p.entries.next count) else
          match enter c p with
          | .error e => throw e
          | .ok q => fill count q) fun bytes q =>
          c.checkLength = .ok () ∧ p.entries.next + Width.width c ≤ count ∧ ∃ forms cs,
            List.Forall₂ Constant.Form.Means forms cs ∧
            bytes = forms.flatMap Constant.Form.bytes ∧ q = cs.foldl extended (p.extended c) ∧
            q.entries.next = count := by
      intro c
      by_cases spill : p.entries.next + Width.width c > count
      · rw [if_pos spill]
        exact (accepts_fail _).congr fun bytes q =>
          iff_of_false id fun fits => Nat.not_le_of_lt spill fits.2.1
      · have fits : p.entries.next + Width.width c ≤ count := Nat.le_of_not_lt spill
        have entered := enter_eq (Nat.lt_of_le_of_lt fits bound)
        rw [if_neg spill, entered]
        cases short : c.checkLength with
        | error e => exact (accepts_throw e).congr fun bytes q => iff_of_false id nofun
        | ok _ =>
          rw [short] at entered
          exact (ih c spill _ entered fits).congr fun bytes q => by simp [fits]
    refine (accepts_bind Constant.accepts_decoder later).congr fun bytes q => ?_
    constructor
    · rintro ⟨c, _, _, ⟨form, means, rfl⟩, ⟨_, _, forms, cs, each, rfl, rfl, full⟩, rfl⟩
      exact ⟨form :: forms, c :: cs, .cons means each, rfl, rfl, full⟩
    · rintro ⟨forms, cs, each, rfl, rfl, full⟩
      cases each with
      | nil => exact absurd full (Nat.ne_of_lt more)
      | @cons form c forms cs means each =>
        have step := next_le_foldl (p.extended c) cs
        rw [next_extended] at step
        rw [List.foldl_cons] at full
        rw [full] at step
        exact ⟨c, form.bytes, forms.flatMap Constant.Form.bytes, ⟨form, means, rfl⟩,
          ⟨means.checkLength, step, forms, cs, each, rfl, rfl, full⟩, rfl⟩
  | case2 p done =>
    rw [fill, if_neg done]
    have full : p.entries.next = count := by omega
    refine (accepts_pure p).congr fun bytes q => ?_
    constructor
    · rintro ⟨rfl, rfl⟩
      exact ⟨[], [], .nil, rfl, rfl, full⟩
    · rintro ⟨forms, cs, each, rfl, rfl, same⟩
      cases each with
      | nil => exact ⟨rfl, rfl⟩
      | @cons form c forms cs means each =>
        have step := next_le_foldl (p.extended c) cs
        have wide := c.width_pos
        rw [next_extended] at step
        rw [List.foldl_cons] at same
        omega

/-- What a pool is written as: a count, and forms of its constants. -/
structure Form where
  count : UInt16
  constants : List Constant.Form

def Form.bytes (form : Form) : List UInt8 :=
  u16Bytes form.count ++ form.constants.flatMap Constant.Form.bytes

/-- The pool that is meant.  It is what its constants make, and its indices are below the count. -/
structure Form.Means (form : Form) (p : Pool) : Prop where
  each : List.Forall₂ Constant.Form.Means form.constants p.constants
  made : p = ofConstants p.constants
  next : p.entries.next = form.count.toNat

theorem accepts_decoder : Accepts decoder (Rendered Form.Means Form.bytes) := by
  have filled : ∀ count : UInt16, Accepts
      (if count = 0 then .fail .zeroPoolCount else fill count.toNat empty) fun bytes q =>
        ∃ forms, Form.Means ⟨count, forms⟩ q ∧ bytes = forms.flatMap Constant.Form.bytes := by
    intro count
    by_cases zero : count = 0
    · rw [if_pos zero]
      refine (accepts_fail _).congr fun bytes q => iff_of_false id ?_
      rintro ⟨forms, means, _⟩
      have start := next_le_foldl empty q.constants
      rw [← ofConstants, ← means.made, means.next, zero] at start
      exact Nat.not_succ_le_zero 0 start
    · have room : empty.entries.next ≤ count.toNat := by
        refine Nat.one_le_iff_ne_zero.mpr fun same => zero (UInt16.toNat_inj.mp same)
      rw [if_neg zero]
      refine (accepts_fill count.toNat empty room count.toNat_lt).congr fun bytes q => ?_
      constructor
      · rintro ⟨forms, cs, each, rfl, rfl, full⟩
        have same : (ofConstants cs).constants = cs := constants_ofConstants cs
        refine ⟨forms, ⟨?_, ?_, full⟩, rfl⟩
        · exact same.symm ▸ each
        · exact (congrArg ofConstants same).symm
      · rintro ⟨forms, means, rfl⟩
        exact ⟨forms, q.constants, means.each, rfl, means.made, means.next⟩
  refine (accepts_bind accepts_u16 filled).congr fun bytes p => ?_
  constructor
  · rintro ⟨count, _, _, rfl, ⟨forms, means, rfl⟩, rfl⟩
    exact ⟨⟨count, forms⟩, means, rfl⟩
  · rintro ⟨⟨count, forms⟩, means, rfl⟩
    exact ⟨count, _, _, rfl, ⟨forms, means, rfl⟩, rfl⟩

def Form.Minimal (form : Form) : Prop := ∀ constant ∈ form.constants, constant.Minimal

theorem rewrites_pool : Renews Form.Means Form.bytes encode Form.Minimal := by
  intro form p means
  obtain ⟨forms, each, others⟩ := renews_list Constant.rewrites_constant means.each
  have count : p.count = form.count := by
    rw [count, means.next]
    exact UInt16.ofNat_toNat
  refine ⟨⟨form.count, forms⟩, ⟨each, means.made, means.next⟩, ?_⟩
  rw [encode, count]
  exact ((rewrites_put _).append others).congr (and_iff_right trivial)

end Pool

end JvmClass
