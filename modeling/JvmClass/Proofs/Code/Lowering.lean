import JvmClass.Proofs.Attribute.Tables
import JvmClass.Proofs.Code.Traces

/-! Lowering a body.  The attribute that comes out has the tables of the body by offset; its lines
and its variables are attributes with names of their own, unless there are none.  A body whose
instructions can be written has an offset for everything that its tables mention. -/

namespace JvmClass

namespace Body

open Listing (Traces Starts)
open Instruction (stop_le_of_placed)

variable {b c d : Body} {p q : Pool} {code : Code}

/-- The attributes that go with a table: none if it is empty, and else one that holds it. -/
structure Holds {α : Type} [AttributeKind α] (isEmpty : Bool) (table : Except Error α) (q : Pool)
    (held : List Attribute) : Prop where
  absent : isEmpty = true → held = []
  present : isEmpty = false → ∃ t a, table = .ok t ∧ held = [a] ∧
    a.title q = .ok (AttributeKind.title α) ∧ a.value α = .ok t

theorem Holds.follows {α : Type} [AttributeKind α] {isEmpty : Bool} {table : Except Error α}
    {held : List Attribute} (holds : Holds isEmpty table p held) (lawful : p.Lawful)
    (follows : p.Follows q) : Holds isEmpty table q held where
  absent := holds.absent
  present full := by
    obtain ⟨t, a, made, same, title, value⟩ := holds.present full
    exact ⟨t, a, made, same, follows.getUtf8 lawful title, value⟩

theorem holds_addTable {α : Type} [AttributeKind α] {isEmpty : Bool} {table : Except Error α}
    {held : List Attribute} (lawful : p.Lawful) (faithful : AttributeKind.Faithful α)
    (added : addTable isEmpty table p = .ok held q) :
    p.Follows q ∧ Holds isEmpty table q held := by
  unfold addTable at added
  cases isEmpty with
  | true =>
    cases added
    exact ⟨.refl lawful, fun _ => rfl, nofun⟩
  | false =>
    rw [if_neg Bool.false_ne_true] at added
    obtain ⟨t, p', lifted, added⟩ := run_bind_eq_ok added
    obtain ⟨made, rfl⟩ := liftExcept_eq_ok_iff.mp lifted
    obtain ⟨a, q', added, same⟩ := run_bind_eq_ok added
    cases same
    obtain ⟨follows, title, value⟩ := Pool.title_of_addAttribute lawful faithful added
    exact ⟨follows, nofun, fun _ => ⟨t, a, made, rfl, title, value⟩⟩

def lowerScopes (m : Listing) (b : Body) : Except Error LocalVariableTable :=
  LocalVariableTable.mk <$> b.scopes.values.mapM (lowerVariable m)

structure Lowers (b : Body) (p : Pool) (code : Code) (q : Pool) (m : Listing) : Prop where
  encoded : Listing.encode b.listing = .ok code.bytes m
  follows : p.Follows q
  maxStack : code.maxStack = b.maxStack
  maxLocals : code.maxLocals = b.maxLocals
  handlers : List.Forall₂ (fun r e => lowerHandler m r = .ok e) b.handlers.values code.handlers
  attributes : ∃ lines scopes, code.attributes = lines ++ scopes ++ b.attributes ∧
    Holds b.lines.isEmpty (lowerLines { b with listing := m }) q lines ∧
    Holds b.scopes.isEmpty (lowerScopes m b) q scopes

theorem lowers_of_lower (lawful : p.Lawful) (lowered : lower b p = .ok code q) :
    ∃ m, b.Lowers p code q m := by
  unfold lower at lowered
  cases encoded : Listing.encode b.listing with
  | error e m =>
    rw [encoded] at lowered
    cases lowered
  | ok bytes m =>
    rw [encoded] at lowered
    obtain ⟨hs, p', lifted, lowered⟩ := run_bind_eq_ok lowered
    obtain ⟨handlers, rfl⟩ := liftExcept_eq_ok_iff.mp lifted
    obtain ⟨lines, p', first, lowered⟩ := run_bind_eq_ok lowered
    obtain ⟨scopes, q', second, lowered⟩ := run_bind_eq_ok lowered
    cases lowered
    obtain ⟨follows, holds⟩ := holds_addTable lawful faithful_lineNumberTable first
    obtain ⟨follows', holds'⟩ :=
      holds_addTable follows.lawful faithful_localVariableTable second
    exact ⟨m, encoded, follows.trans follows', rfl, rfl, mapM_eq_ok_iff.mp handlers,
      lines, scopes, rfl, holds.follows follows.lawful follows', holds'⟩

variable {l m : Listing} {is : List (Instruction Handle)} {bytes : List UInt8} {h : Handle}

theorem offset16_of_le {n : Nat} (short : n ≤ maxCodeLength) : ∃ x, offset16 n = .ok x :=
  ⟨_, if_pos short⟩

theorem exists_startOf_stopOf (nodup : l.order.toList.Nodup)
    (encoded : Listing.encode l = .ok bytes m) (member : h ∈ l.order.toList) :
    (∃ x, startOf m h = .ok x) ∧ ∃ y, stopOf m h = .ok y := by
  obtain ⟨is, lists⟩ := Listing.exists_lists_of_encode nodup encoded
  obtain ⟨o, p, located, ends, _, short, _, rfl, _⟩ := Listing.decode_reissued lists encoded 0
  obtain ⟨k, here⟩ := List.mem_iff_getElem?.mp member
  obtain ⟨⟨x, i⟩, there, start, stored⟩ := getElem?_of_forall₂ located here
  have stops := stop_le_of_placed (List.mem_of_getElem? there)
  rw [ends] at stops
  dsimp only at stops
  have offset : ({ l with offsets? := some o } : Listing).offset? h = some x := start
  have found : ({ l with offsets? := some o } : Listing).get? h = some i := stored
  constructor
  · unfold startOf
    rw [offset]
    exact offset16_of_le (by omega)
  · unfold stopOf
    rw [offset, found]
    exact offset16_of_le (by omega)

theorem exists_addTable {α : Type} [AttributeKind α] {t : α} {i : UInt16} {info : List UInt8}
    (isEmpty : Bool) (named : Pool.addUtf8 (AttributeKind.title α) p = .ok i p)
    (written : AttributeKind.encode t = .put info) :
    ∃ held, addTable isEmpty (.ok t) p = .ok held p := by
  unfold addTable
  cases isEmpty with
  | true => exact ⟨[], rfl⟩
  | false =>
    refine ⟨[⟨i, info⟩], ?_⟩
    have encoded := liftExcept_eq_ok_iff.mpr ⟨Output.toExcept_eq_ok_iff.mpr written, Eq.refl p⟩
    have added : Pool.addAttribute t p = .ok ⟨i, info⟩ p := by
      unfold Pool.addAttribute
      rw [bind_of_ok named, bind_of_ok encoded]
      rfl
    have made := liftExcept_eq_ok_iff.mpr ⟨Eq.refl (.ok t : Except Error α), Eq.refl p⟩
    rw [if_neg Bool.false_ne_true, bind_of_ok made, bind_of_ok added]
    rfl

theorem Coherent.exists_lowerLines_of_startOf (coherent : b.Coherent)
    (starts : ∀ h, b.listing.contains h → ∃ x, startOf m h = .ok x) :
    ∃ t, lowerLines { b with listing := m } = .ok t ∧
      t.entries.toList.length = b.lines.values.length := by
  obtain ⟨entries, lowered⟩ : ∃ es, b.lines.values.mapM (lowerLine m) = .ok es := by
    refine exists_mapM fun n member => ?_
    obtain ⟨id, found⟩ := Numbered.exists_of_mem_values member
    obtain ⟨x, first⟩ := starts n.start (coherent.exact.lines id n found)
    refine ⟨⟨x, n.line⟩, ?_⟩
    unfold lowerLine
    rw [first]
    rfl
  refine ⟨⟨(entries.mergeSort fun a b => a.start ≤ b.start).toArray⟩, ?_, ?_⟩
  · unfold lowerLines
    rw [lowered]
    rfl
  · rw [List.toList_toArray, List.length_mergeSort, (mapM_eq_ok_iff.mp lowered).length_eq]

section Coherent

variable (coherent : b.Coherent) (encoded : Listing.encode b.listing = .ok bytes m)
include coherent encoded

theorem Coherent.exists_startOf (known : b.listing.contains h) : ∃ x, startOf m h = .ok x :=
  (exists_startOf_stopOf coherent.listing.nodup encoded ((coherent.listing.stored h).mpr known)).1

theorem Coherent.exists_stopOf (known : b.listing.contains h) : ∃ y, stopOf m h = .ok y :=
  (exists_startOf_stopOf coherent.listing.nodup encoded ((coherent.listing.stored h).mpr known)).2

theorem Coherent.exists_lowerHandlers : ∃ es, b.handlers.values.mapM (lowerHandler m) = .ok es := by
  refine exists_mapM fun r member => ?_
  obtain ⟨id, found⟩ := Numbered.exists_of_mem_values member
  obtain ⟨start, last, handler⟩ := coherent.exact.handlers id r found
  obtain ⟨x, first⟩ := coherent.exists_startOf encoded start
  obtain ⟨y, ends⟩ := coherent.exists_stopOf encoded last
  obtain ⟨z, target⟩ := coherent.exists_startOf encoded handler
  refine ⟨⟨x, y, z, r.catches⟩, ?_⟩
  unfold lowerHandler
  rw [first, ends, target]
  rfl

theorem Coherent.exists_lowerScopes :
    ∃ es, b.scopes.values.mapM (lowerVariable m) = .ok es := by
  refine exists_mapM fun v member => ?_
  obtain ⟨id, found⟩ := Numbered.exists_of_mem_values member
  obtain ⟨start, last⟩ := coherent.exact.scopes id v found
  obtain ⟨x, first⟩ := coherent.exists_startOf encoded start
  unfold lowerVariable
  cases last? : v.last? with
  | none =>
    rw [first]
    exact ⟨_, rfl⟩
  | some h =>
    obtain ⟨y, ends⟩ := coherent.exists_stopOf encoded (last h last?)
    simp only [first, ends, bind, Except.bind, pure, Except.pure]
    exact ⟨_, rfl⟩

theorem Coherent.exists_lower (lines : b.lines.values.length < 65536)
    (scopes : b.scopes.values.length < 65536)
    (named : ∃ i, Pool.addUtf8 (AttributeKind.title LineNumberTable) p = .ok i p)
    (named' : ∃ i, Pool.addUtf8 (AttributeKind.title LocalVariableTable) p = .ok i p) :
    ∃ code, lower b p = .ok code p := by
  obtain ⟨i, named⟩ := named
  obtain ⟨j, named'⟩ := named'
  obtain ⟨hs, handlers⟩ := coherent.exists_lowerHandlers encoded
  obtain ⟨t, made, rows⟩ :=
    coherent.exists_lowerLines_of_startOf fun _ => coherent.exists_startOf encoded
  obtain ⟨vs, second⟩ := coherent.exists_lowerScopes encoded
  rw [(mapM_eq_ok_iff.mp second).length_eq] at scopes
  have made' : LocalVariableTable.mk <$> b.scopes.values.mapM (lowerVariable m) = .ok ⟨vs⟩ := by
    rw [second]
    rfl
  obtain ⟨info, written⟩ := exists_put_lineNumberTable t (by omega)
  obtain ⟨info', written'⟩ := exists_put_localVariableTable ⟨vs⟩ scopes
  obtain ⟨held, added⟩ := exists_addTable b.lines.isEmpty named written
  obtain ⟨held', added'⟩ := exists_addTable b.scopes.isEmpty named' written'
  refine ⟨⟨b.maxStack, b.maxLocals, bytes, hs, held ++ held' ++ b.attributes⟩, ?_⟩
  unfold lower
  rw [encoded]
  dsimp only
  rw [bind_of_ok (liftExcept_eq_ok_iff.mpr ⟨handlers, rfl⟩), made, bind_of_ok added, made',
    bind_of_ok added']
  rfl

theorem Coherent.exists_lower_of_isEmpty (lines : b.lines.isEmpty = true)
    (scopes : b.scopes.isEmpty = true) : ∃ code, lower b p = .ok code p := by
  obtain ⟨hs, handlers⟩ := coherent.exists_lowerHandlers encoded
  unfold lower
  rw [encoded]
  dsimp only
  rw [bind_of_ok (liftExcept_eq_ok_iff.mpr ⟨handlers, rfl⟩), lines, scopes]
  exact ⟨_, rfl⟩

end Coherent

end Body

end JvmClass
