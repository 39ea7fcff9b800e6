import JvmClass.Proofs.Pool.History
import JvmClass.Proofs.Wire.Writing

/-! Reading pools that were written.  All constants of a pool that was built can be written, and a
pool comes back as one with the same constants.  Since a pool is what its constants make, nothing
that is asked of it later, and nothing that is added to it, tells it from the one that was written:
the index of first occurrences that is made in reading is the one that additions have led to. -/

namespace JvmClass

open Decoder Output

namespace Constant

variable {c d : Constant}

theorem checkLength_of_encode {bytes : List UInt8} (written : c.encode = .put bytes) :
    c.checkLength = .ok () := by
  unfold encode at written
  cases short : c.checkLength with
  | error e =>
    rw [short] at written
    cases written
  | ok _ => rfl

theorem writes_constant : Writes Form.Means Form.bytes encode fun _ => True := by
  intro c bytes _ written
  by_cases text : c.tag = 1
  · obtain ⟨s, rfl⟩ : ∃ s, c = utf8 s := by
      cases c with
      | utf8 s => exact ⟨s, rfl⟩
      | methodRef o n ofInterface => cases ofInterface <;> cases text
      | _ => cases text
    have short := checkLength_utf8_iff.mp (checkLength_of_encode written)
    rw [encode_text short] at written
    refine ⟨.text (Text.ModifiedUtf8.textForms s), .text ?_ ?_, ?_⟩
    · exact Text.ModifiedUtf8.textForm_textForms s
    · rwa [Text.ModifiedUtf8.flatten_textForms]
    · rw [Form.bytes, Text.ModifiedUtf8.flatten_textForms]
      exact (put_injective written).symm
  · rw [encode_plain text] at written
    exact ⟨.plain c, .plain text, (put_injective written).symm⟩

theorem encode_of_checkLength (short : c.checkLength = .ok ()) :
    c.encode = .put (c.tag :: c.operands.bytes) := by
  cases c with
  | utf8 s => exact encode_text (checkLength_utf8_iff.mp short)
  | methodRef o n ofInterface => cases ofInterface <;> rfl
  | _ => rfl

theorem toExcept_encode (c : Constant) : c.encode.toExcept =
    c.checkLength.map fun _ => c.tag :: c.operands.bytes := by
  cases short : c.checkLength with
  | error e => simp [encode, short, Except.map]
  | ok _ => simp [encode_of_checkLength short, Except.map]

theorem eq_of_encode_eq (short : c.checkLength = .ok ()) (alike : c.encode = d.encode) : c = d := by
  have read {c : Constant} {bytes : List UInt8} (written : c.encode = .put bytes) :
      decoder.decode bytes = .ok c :=
    (decode_eq_ok_iff accepts_decoder).mpr (writes_constant c bytes trivial written)
  have written := encode_of_checkLength short
  exact Except.ok.inj ((read written).symm.trans (read (alike ▸ written)))

end Constant

namespace Pool

variable {p : Pool}

theorem writes_pool : Writes Form.Means Form.bytes encode Lawful := by
  intro p bytes lawful written
  obtain ⟨x, y, first, others, rfl⟩ := append_eq_put_iff.mp written
  obtain ⟨forms, each, rfl⟩ := writes_list Constant.writes_constant (fun _ _ => trivial) others
  refine ⟨⟨p.count, forms⟩, ⟨each, lawful.made, (toNat_count lawful.next).symm⟩, ?_⟩
  rw [← put_injective first]
  rfl

def Written (p : Pool) : Prop := ∀ c ∈ p.constants, c.checkLength = .ok ()

theorem left_add (c : Constant) (p : Pool) : left (add c) p = p ∨
    c.checkLength = .ok () ∧ left (add c) p = p.extended c := by
  unfold left add push
  cases c.checkLength with
  | error e => simp
  | ok _ =>
    cases p.index[c]? with
    | some i => simp
    | none => by_cases full : p.count.toNat + Width.width c > 0xFFFF <;> simp [full]

theorem leads_add_written (c : Constant) : Leads (fun p q => p.Written → q.Written) (add c) := by
  intro p written
  rcases left_add c p with same | ⟨short, more⟩
  · rwa [same]
  · rw [more]
    simpa [Written, or_imp, forall_and] using ⟨written, short⟩

theorem written_of_built (built : p.Built) : p.Written := by
  induction built with
  | empty => simp [Written]
  | @read s t p read =>
    obtain ⟨_, ⟨form, means, _⟩, _⟩ := (accepts_decoder s p t).mp read
    intro c member
    obtain ⟨_, _, means⟩ := exists_left_of_forall₂ means.each member
    exact means.checkLength
  | @added p a _ ih =>
    exact leads_run (R := fun p q => p.Written → q.Written) (fun _ => id)
      (fun _ _ _ first second => second ∘ first) leads_add_written a p ih

theorem exists_encode (built : p.Built) : ∃ bytes, p.encode = .put bytes := by
  have each (cs : List Constant) (short : ∀ c ∈ cs, c.checkLength = .ok ()) :
      ∃ bytes, concat (cs.map Constant.encode) = .put bytes := by
    induction cs with
    | nil => exact ⟨[], rfl⟩
    | cons c cs ih =>
      obtain ⟨here, later⟩ := List.forall_mem_cons.mp short
      obtain ⟨bytes, written⟩ := ih later
      rw [concat_map_cons, Constant.encode_of_checkLength here, written]
      exact ⟨_, put_append_put _ _⟩
  obtain ⟨bytes, written⟩ := each p.constants (written_of_built built)
  unfold encode
  rw [written]
  exact ⟨_, put_append_put _ _⟩

inductive Request : Type 1 where
  | add (a : Addition)
  | count
  | size
  | get (i : UInt16)
  | getUtf8 (i : UInt16)
  | getClassName (i : UInt16)
  | getNameAndType (i : UInt16)
  | getMemberRef (i : UInt16)

inductive Reply where
  | index (i : Except Error UInt16)
  | attribute (a : Except Error Attribute)
  | number (n : Nat)
  | constant (c : Except PoolFault Constant)
  | text (s : Except PoolFault String)
  | pair (s : Except PoolFault (String × String))
  | member (m : Except PoolFault MemberRef)
  deriving DecidableEq

/-- What a step gives, or why it fails. -/
def result {α : Type} (step : Adding α) (p : Pool) : Except Error α :=
  match step p with
  | .ok a _ => .ok a
  | .error e _ => .error e

def Addition.reply (p : Pool) : Addition → Reply
  | constant c => .index (result (add c) p)
  | utf8 s => .index (result (addUtf8 s) p)
  | classOf name => .index (result (addClass name) p)
  | string s => .index (result (addString s) p)
  | nameAndType name descriptor => .index (result (addNameAndType name descriptor) p)
  | fieldRef owner name descriptor => .index (result (addFieldRef owner name descriptor) p)
  | methodRef owner name descriptor ofInterface =>
    .index (result (addMethodRef owner name descriptor ofInterface) p)
  | attributeOf a => .attribute (result (addAttribute a) p)

def Request.reply (p : Pool) : Request → Reply
  | add a => a.reply p
  | count => .number p.count.toNat
  | size => .number p.size
  | get i => .constant (p.get i)
  | getUtf8 i => .text (p.getUtf8 i)
  | getClassName i => .text (p.getClassName i)
  | getNameAndType i => .pair (p.getNameAndType i)
  | getMemberRef i => .member (p.getMemberRef i)

def Request.next (p : Pool) : Request → Pool
  | add a => a.run p
  | _ => p

def replies : Pool → List Request → List Reply
  | _, [] => []
  | p, r :: rs => r.reply p :: replies (r.next p) rs

/-- A pool that was built can be written, and what was written is read as a pool with the same
count and the same constants at the same indices, which gives the same replies to all requests that
come afterwards. -/
theorem replies_of_reread (built : p.Built) : ∃ bytes q, p.encode.toExcept = .ok bytes ∧
    decoder.decode bytes = .ok q ∧ q.count = p.count ∧ q.toList = p.toList ∧
      ∀ requests, replies q requests = replies p requests := by
  have lawful := lawful_of_built built
  obtain ⟨bytes, written⟩ := exists_encode built
  obtain ⟨form, means, rfl⟩ := writes_pool p bytes lawful written
  have read : decoder.decode form.bytes = .ok p :=
    (decode_eq_ok_iff accepts_decoder).mpr ⟨form, means, rfl⟩
  exact ⟨form.bytes, p, toExcept_eq_ok_iff.mpr written, read, rfl, rfl, fun _ => rfl⟩

/-- The same number twice, and something that is not a number. -/
def doubled : Pool := ofConstants [.integer 7, .integer 7, .double 0x7FF0000000000001]

theorem built_doubled : doubled.Built := by
  have means : Form.Means ⟨5, doubled.constants.map .plain⟩ doubled :=
    ⟨.cons (.plain (by decide)) (.cons (.plain (by decide)) (.cons (.plain (by decide)) .nil)),
      rfl, by decide⟩
  exact .read ((accepts_decoder ⟨0, _⟩ doubled ⟨_, []⟩).mpr
    ⟨_, ⟨_, means, rfl⟩, (List.append_nil _).symm, rfl⟩)

theorem replies_of_reread_doubled : doubled.Built ∧ ∃ bytes q,
    doubled.encode.toExcept = .ok bytes ∧ decoder.decode bytes = .ok q ∧
      q.count = doubled.count ∧ q.toList = doubled.toList ∧
        ∀ requests, replies q requests = replies doubled requests :=
  ⟨built_doubled, replies_of_reread built_doubled⟩

end Pool

end JvmClass
