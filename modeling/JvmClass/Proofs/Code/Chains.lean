import JvmClass.Proofs.Code.Placement
import JvmClass.Proofs.Instruction.Locality
import JvmClass.Proofs.Verify.Programs

/-! The chain of the instructions of a code array: each is decoded where the one before ends.  A
listing can be read of the code just when there is a chain and targets are offsets of it. -/

namespace JvmClass

namespace Instruction

variable {code : List UInt8} {offset width : Nat} {i : Instruction Int32}
  {chain : List (Nat × Instruction Int32)}

/-- Instructions that are decoded one behind the other from an offset on, up to the end of the
code. -/
inductive Chain (code : List UInt8) : Nat → List (Nat × Instruction Int32) → Prop
  | stop : Chain code code.length []
  | step {offset width : Nat} {i : Instruction Int32} {later : List (Nat × Instruction Int32)}
      (here : decodeAt code offset = .ok (i, width)) (rest : Chain code (offset + width) later) :
      Chain code offset ((offset, i) :: later)

def Closed (chain : List (Nat × Instruction Int32)) : Prop :=
  ∀ p ∈ chain, ∀ t ∈ p.2.targets, ∃ q ∈ chain, (q.1 : Int) = p.1 + t.toInt

instance (chain : List (Nat × Instruction Int32)) : Decidable (Closed chain) :=
  decidable_of_iff (chain.all fun p => p.2.targets.all fun t =>
    chain.any fun q => (q.1 : Int) == p.1 + t.toInt) (by simp [Closed])

theorem Chain.decodeAt_of_mem (chained : Chain code offset chain) {p : Nat × Instruction Int32}
    (member : p ∈ chain) : ∃ width, decodeAt code p.1 = .ok (p.2, width) := by
  induction chained with
  | stop => exact absurd member List.not_mem_nil
  | @step _ width _ _ here _ ih =>
    obtain rfl | member := List.mem_cons.mp member
    · exact ⟨width, here⟩
    · exact ih member

theorem Chain.form_of_mem (chained : Chain code offset chain) {p : Nat × Instruction Int32}
    (member : p ∈ chain) : ∃ bytes, Form p.1 bytes p.2 := by
  obtain ⟨width, here⟩ := chained.decodeAt_of_mem member
  obtain ⟨bytes, form, _⟩ := form_of_decodeAt here
  exact ⟨bytes, form⟩

end Instruction

namespace Listing

open Instruction

variable {code : List UInt8} {offset : Nat} {read chain : List (Nat × Instruction Int32)}

theorem readAll_of_chain (chained : Chain code offset chain) :
    readAll ⟨offset, code.drop offset⟩ = .ok chain := by
  rw [readAll_eq_ok_iff]
  induction chained with
  | stop => exact .stop List.drop_length
  | step here _ ih => exact .step (decodeAt_eq_ok_iff.mp here) (List.drop_drop ▸ ih)

theorem chain_of_readAll {s : Input} (all : readAll s = .ok read)
    (rest : s.rest = code.drop s.position) (inside : s.position ≤ code.length) :
    Chain code s.position read := by
  rw [readAll_eq_ok_iff] at all
  induction all with
  | @stop s done =>
    have ended : code.length ≤ s.position := by
      rw [← List.drop_eq_nil_iff, ← rest]
      exact done
    rw [Nat.le_antisymm inside ended]
    exact .stop
  | @step s t i later found _ ih =>
    obtain ⟨n, room, position, rest'⟩ := advances_decoder found
    rw [rest, List.length_drop] at room
    obtain ⟨start, bytes⟩ := s
    obtain ⟨stop, others⟩ := t
    dsimp only at rest rest' position room inside
    subst rest rest' position
    have here : decodeAt code start = .ok (i, n) := by
      rw [decodeAt_eq_ok_iff, ← List.drop_drop]
      exact found
    exact .step here (ih List.drop_drop (by dsimp only; omega))

theorem readAll_iff_chain (inside : offset ≤ code.length) :
    readAll ⟨offset, code.drop offset⟩ = .ok chain ↔ Chain code offset chain :=
  ⟨fun all => chain_of_readAll all rfl inside, readAll_of_chain⟩

theorem readAll_ofBytes_iff : readAll (.ofBytes code) = .ok chain ↔ Chain code 0 chain :=
  readAll_iff_chain (Nat.zero_le _)

theorem chain_unique {other : List (Nat × Instruction Int32)} (first : Chain code offset chain)
    (second : Chain code offset other) : chain = other :=
  Except.ok.inj ((readAll_of_chain first).symm.trans (readAll_of_chain second))

theorem increasing_of_chain (chained : Chain code 0 chain) :
    chain.Pairwise fun p q => p.1 < q.1 :=
  (offsets_readAll (readAll_ofBytes_iff.mpr chained)).1

section Targets

variable {starts : Starts} {id length : Nat} {i : Instruction Int32} {h : Handle} {t : Int32}

def targetAt? (starts : Starts) (offset : Nat) (relative : Int32) : Option Handle :=
  let target : Int := offset + relative.toInt
  if target < 0 then none else starts.at? target.toNat

theorem linkOne_eq (starts : Starts) (offset : Nat) (i : Instruction Int32) :
    linkOne starts offset i = i.mapM fun relative =>
      match targetAt? starts offset relative with
      | some h => .ok h
      | none => .error (.missingTarget offset (offset + relative.toInt)) := rfl

theorem at?_startsOf_iff (increasing : read.Pairwise fun p q => p.1 < q.1) {x : Nat} :
    (startsOf id length read).at? x = some h ↔
      h.listing = id ∧ ∃ i, read[h.number]? = some (x, i) := by
  constructor
  · exact fun found => mem_startsOf.mp (at?_eq_some found)
  · rintro ⟨rfl, i, here⟩
    exact at?_startsOf increasing here

theorem targetAt?_startsOf_iff (increasing : read.Pairwise fun p q => p.1 < q.1) :
    targetAt? (startsOf id length read) offset t = some h ↔
      h.listing = id ∧ ∃ p, read[h.number]? = some p ∧ (p.1 : Int) = offset + t.toInt := by
  unfold targetAt?
  dsimp only
  constructor
  · intro found
    split at found
    · cases found
    · obtain ⟨own, i, here⟩ := (at?_startsOf_iff increasing).mp found
      exact ⟨own, _, here, by dsimp only; omega⟩
  · rintro ⟨own, ⟨x, i⟩, here, target⟩
    dsimp only at target
    rw [← target, if_neg (by omega), Int.toNat_natCast]
    exact (at?_startsOf_iff increasing).mpr ⟨own, i, here⟩

def targetOf (starts : Starts) (offset : Nat) (relative : Int32) : Handle :=
  (targetAt? starts offset relative).getD ⟨0, 0⟩

theorem linkOne_eq_ok_iff {j : Instruction Handle} : linkOne starts offset i = .ok j ↔
    (∀ t ∈ i.targets, targetAt? starts offset t = some (targetOf starts offset t)) ∧
      j = i.map (targetOf starts offset) := by
  rw [linkOne_eq]
  constructor
  · intro linked
    have each : ∀ t ∈ i.targets, targetAt? starts offset t = some (targetOf starts offset t) := by
      intro t member
      obtain ⟨h, found⟩ := ok_of_mem_targets linked member
      unfold targetOf
      cases there : targetAt? starts offset t with
      | none =>
        rw [there] at found
        cases found
      | some h' => rfl
    refine ⟨each, eq_map_of_mapM linked fun t member h found => ?_⟩
    rw [each t member] at found
    exact (Except.ok.inj found).symm
  · rintro ⟨each, rfl⟩
    refine mapM_eq_map fun t member => ?_
    rw [each t member]

theorem exists_linkOne_iff (increasing : read.Pairwise fun p q => p.1 < q.1) :
    (∃ j, linkOne (startsOf id length read) offset i = .ok j) ↔
      ∀ t ∈ i.targets, ∃ p ∈ read, (p.1 : Int) = offset + t.toInt := by
  simp only [linkOne_eq_ok_iff, exists_and_left, exists_eq, and_true]
  refine forall₂_congr fun t member => ?_
  constructor
  · intro found
    obtain ⟨_, p, here, target⟩ := (targetAt?_startsOf_iff increasing).mp found
    exact ⟨p, List.mem_of_getElem? here, target⟩
  · rintro ⟨p, listed, target⟩
    obtain ⟨k, here⟩ := List.mem_iff_getElem?.mp listed
    have found : targetAt? (startsOf id length read) offset t = some ⟨id, k⟩ :=
      (targetAt?_startsOf_iff increasing).mpr ⟨rfl, p, here, target⟩
    rw [targetOf, found]
    rfl

end Targets

theorem exists_decode_iff (id : Nat) :
    (∃ l s, decode id code = .ok (l, s)) ↔ ∃ chain, Chain code 0 chain ∧ Closed chain := by
  constructor
  · rintro ⟨l, s, decoded⟩
    obtain ⟨read, is, all, rfl, each, _⟩ := holds_decode decoded
    have chained := readAll_ofBytes_iff.mp all
    refine ⟨read, chained, fun p member => ?_⟩
    obtain ⟨j, _, linked⟩ := exists_right_of_forall₂ each member
    exact (exists_linkOne_iff (increasing_of_chain chained)).mp ⟨j, linked⟩
  · rintro ⟨chain, chained, closed⟩
    have each : ∀ p ∈ chain, ∃ j, linkOne (startsOf id code.length chain) p.1 p.2 = .ok j :=
      fun p member => (exists_linkOne_iff (increasing_of_chain chained)).mpr (closed p member)
    obtain ⟨is, linked⟩ := exists_mapM each
    have all := readAll_ofBytes_iff.mpr chained
    obtain ⟨l, decoded, _⟩ := decode_of_linked all (mapM_eq_ok_iff.mp linked)
    exact ⟨l, _, decoded⟩

/-- The handles of a listing stand for the offsets of a chain, in the map that was made with the
listing as well as in the listing itself. -/
structure Maps (l : Listing) (s : Starts) (chain : List (Nat × Instruction Int32)) : Prop where
  handles : s.table.toList = (chain.map (·.1)).zip l.order.toList
  offsets : l.order.toList.map l.offset? = chain.map fun p => some p.1
  found : ∀ x h, s.at? x = some h ↔ l.offset? h = some x

section Handles

variable {l m : Listing} {s : Starts} {o p : Offsets} {id : Nat} {h : Handle}

theorem mem_handlesFrom_of_linkAll (linked : linkAll s read l o = .ok (m, p)) {x : Nat}
    (found : p.starts[h]? = some x) :
    o.starts[h]? = some x ∨ h ∈ handlesFrom l.id l.fresh read.length := by
  induction read generalizing l o with
  | nil =>
    cases linked
    exact .inl found
  | cons r read ih =>
    obtain ⟨i, _, linked⟩ := bind_eq_ok linked
    obtain older | later := ih linked
    · change (o.starts.insert ⟨l.id, l.fresh⟩ r.1)[h]? = some x at older
      rw [Std.HashMap.getElem?_insert] at older
      split at older
      · rename_i same
        obtain rfl := eq_of_beq same
        exact .inr (mem_handlesFrom.mpr ⟨rfl, Nat.le_refl _, by simp⟩)
      · exact .inl older
    · obtain ⟨own, low, high⟩ := mem_handlesFrom.mp later
      change l.fresh + 1 ≤ h.number at low
      change h.number < l.fresh + 1 + read.length at high
      exact .inr (mem_handlesFrom.mpr ⟨own, by omega, by rw [List.length_cons]; omega⟩)

theorem mem_order_of_offset? {starts : Starts} (decoded : decode id code = .ok (l, starts))
    {x : Nat} (found : l.offset? h = some x) : h ∈ l.order.toList := by
  obtain ⟨read, all, decoded⟩ := bind_eq_ok decoded
  obtain ⟨⟨m, offsets⟩, linked, decoded⟩ := bind_eq_ok decoded
  cases decoded
  obtain ⟨is, each, placed, _⟩ := linkAll_eq_ok linked
  have order : m.order.toList = handlesFrom id 0 is.length := by
    rw [placed]
    exact order_placeAll is (empty id)
  obtain none | listed := mem_handlesFrom_of_linkAll linked found
  · simp at none
  · change h ∈ m.order.toList
    rwa [order, ← each.length_eq]

theorem maps_of_decode (decoded : decode id code = .ok (l, s)) (chained : Chain code 0 chain) :
    l.Maps s chain := by
  obtain ⟨read, is, all, rfl, each, order, holds⟩ := holds_decode decoded
  obtain rfl := chain_unique chained (readAll_ofBytes_iff.mp all)
  have increasing := increasing_of_chain chained
  have offsets : l.order.toList.map l.offset? = chain.map fun p => some p.1 := by
    calc l.order.toList.map l.offset?
        = ((chain.map (·.1)).zip is).map fun p => some p.1 :=
          map_eq_map_of_forall₂ (holds.stored.imp fun _ _ here => here.1)
      _ = (((chain.map (·.1)).zip is).map (·.1)).map some := by
          rw [List.map_map]
          rfl
      _ = chain.map fun p => some p.1 := by
          rw [List.map_fst_zip (by simp [each.length_eq]), List.map_map]
          rfl
  rw [← each.length_eq] at order
  refine ⟨?_, offsets, fun x h => ?_⟩
  · rw [order]
    exact List.zip_of_prod (offsets_startsOf ..) (handles_startsOf ..)
  · have same (k : Nat) : l.order.toList[k]?.map l.offset? = chain[k]?.map fun p => some p.1 := by
      rw [← List.getElem?_map, offsets, List.getElem?_map]
    rw [at?_startsOf_iff increasing]
    constructor
    · rintro ⟨rfl, i, here⟩
      have inside := (List.getElem?_eq_some_iff.mp here).1
      have there : l.order.toList[h.number]? = some h := by
        rw [order, handlesFrom, List.getElem?_map, List.getElem?_range' inside]
        simp
      have start := same h.number
      rw [there, here] at start
      exact Option.some.inj start
    · intro start
      obtain ⟨k, there⟩ := List.mem_iff_getElem?.mp (mem_order_of_offset? decoded start)
      have start' := same k
      rw [there, Option.map_some, start] at start'
      obtain ⟨⟨x', i⟩, here, same'⟩ := Option.map_eq_some_iff.mp start'.symm
      cases same'
      have inside := (List.getElem?_eq_some_iff.mp here).1
      rw [order, handlesFrom, List.getElem?_map, List.getElem?_range' inside] at there
      cases there
      exact ⟨rfl, i, by simpa using here⟩

theorem Maps.mem_order (maps : l.Maps s chain) {x : Nat} (found : l.offset? h = some x) :
    h ∈ l.order.toList := by
  have entry := Array.mem_toList_iff.mpr (at?_eq_some ((maps.found x h).mpr found))
  rw [maps.handles] at entry
  exact (List.of_mem_zip entry).2

theorem Maps.located (maps : l.Maps s chain) :
    List.Forall₂ (fun h p => l.offset? h = some p.1) l.order.toList chain := by
  have same := maps.offsets
  rwa [← List.forall₂_eq_eq_eq, List.forall₂_map_left_iff, List.forall₂_map_right_iff] at same

/-- A listing that was read of a code array, with the instructions before and after handles took
the place of their targets. -/
structure Linked (l : Listing) (s : Starts) (code : List UInt8)
    (read : List (Nat × Instruction Int32)) (is : List (Instruction Handle)) : Prop where
  chained : Chain code 0 read
  maps : l.Maps s read
  coherent : l.Coherent fun _ => []
  lists : l.Lists is
  each : List.Forall₂ (fun p i => linkOne s p.1 p.2 = .ok i) read is

theorem linked_of_decode (decoded : decode id code = .ok (l, s)) :
    ∃ read is, l.Linked s code read is := by
  have coherent := coherent_decode decoded
  obtain ⟨read, is, offsets, all, _, each, same, _⟩ := decode_eq_ok decoded
  have chained := readAll_ofBytes_iff.mp all
  have order : l.order.toList = handlesFrom id 0 is.length := by
    rw [same]
    exact order_placeAll is (empty id)
  have stored : List.Forall₂ (fun h i => l.get? h = some i) l.order.toList is := by
    rw [order, same]
    exact get?_placeAll is (empty id)
  refine ⟨read, is, chained, maps_of_decode decoded chained, coherent,
    ⟨coherent.nodup, stored, ?_⟩, each⟩
  intro i member t target
  obtain ⟨h, _, here⟩ := exists_left_of_forall₂ stored member
  refine (coherent.stored t).mpr (coherent.known (.instruction h) t ?_)
  rwa [targets_of_get here]

namespace Linked

variable {is : List (Instruction Handle)} {q : Nat × Instruction Int32} {t : Int32}
  (linked : l.Linked s code read is)
include linked

theorem eq_map : List.Forall₂ (fun q i => i = q.2.map (targetOf s q.1)) read is :=
  linked.each.imp fun _ _ one => (linkOne_eq_ok_iff.mp one).2

theorem stored : List.Forall₂
    (fun h q => l.offset? h = some q.1 ∧ l.get? h = some (q.2.map (targetOf s q.1)))
    l.order.toList read := by
  have same : is = read.map fun q => q.2.map (targetOf s q.1) := by
    rw [← List.forall₂_eq_eq_eq, List.forall₂_map_right_iff]
    exact linked.eq_map.flip
  have instructions := linked.lists.stored
  rw [same, List.forall₂_map_right_iff] at instructions
  exact linked.maps.located.mp (fun _ _ start here => ⟨start, here⟩) instructions

theorem widthAt : List.Forall₂ (fun q i => ∀ n, i.widthAt n = q.2.widthAt n) read is := by
  refine linked.eq_map.imp fun q i same n => ?_
  rw [same, widthAt_map]

theorem reread_eq {i : Instruction Handle} (member : i ∈ is) : i.reread = i := by
  obtain ⟨q, listed, rfl⟩ := exists_left_of_forall₂ linked.eq_map member
  obtain ⟨bytes, form⟩ := linked.chained.form_of_mem listed
  rw [reread_map, form.reread]

theorem fitsShort_of_branch {op : Opcode} (member : q ∈ read) (branches : q.2 = .branch op t)
    (short : op.shape? = some .branch) : fitsShort t.toInt = true := by
  obtain ⟨bytes, form⟩ := linked.chained.form_of_mem member
  rw [branches] at form
  refine form.fitsShort ?_
  rw [isWideBranch, short]
  decide

theorem offset?_target (member : q ∈ read) (target : t ∈ q.2.targets) :
    ∃ x, l.offset? (targetOf s q.1 t) = some x ∧ (x : Int) - q.1 = t.toInt := by
  obtain ⟨i, _, one⟩ := exists_right_of_forall₂ linked.each member
  have found := (linkOne_eq_ok_iff.mp one).1 t target
  unfold targetAt? at found
  dsimp only at found
  split at found
  · cases found
  · exact ⟨_, (linked.maps.found _ _).mp found, by omega⟩

end Linked

end Handles

end Listing

end JvmClass
