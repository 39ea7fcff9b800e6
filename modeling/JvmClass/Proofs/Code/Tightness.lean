import JvmClass.Proofs.Code.Chains

/-! Code that is written as it was read.  The bytes of each instruction are the ones that are
written for it just when it is tight, and then no instruction moves. -/

namespace JvmClass

namespace Instruction

variable {code : List UInt8} {offset : Nat} {chain : List (Nat × Instruction Int32)}

/-- What is written for each instruction of a chain, put together, is the code just when all are
tight. -/
theorem Chain.tight_iff (chained : Chain code offset chain) :
    (∀ p ∈ chain, p.2.Tight code p.1) ↔ ∃ pieces,
      List.Forall₂ (fun p bytes => p.2.encodeAt p.1 = .ok bytes) chain pieces ∧
        pieces.flatten = code.drop offset := by
  induction chained with
  | stop =>
    refine iff_of_true (fun p member => absurd member List.not_mem_nil) ⟨[], .nil, ?_⟩
    rw [List.drop_length]
    rfl
  | @step offset width i later here _ ih =>
    obtain ⟨bytes, form, length, split⟩ := form_of_decodeAt here
    rw [List.forall_mem_cons, ih, form.tight_iff split]
    constructor
    · rintro ⟨first, pieces, others, rest⟩
      refine ⟨bytes :: pieces, .cons first others, ?_⟩
      rw [List.flatten_cons, rest, split]
    · rintro ⟨pieces, written, whole⟩
      obtain _ | ⟨first, others⟩ := written
      rename_i piece pieces
      rw [List.flatten_cons] at whole
      -- What is written is read where the code goes on, so it is as long as what was read.
      have spells := spells_of_encodeAt first
      have again := here.symm.trans (decodeAt_of_spells spells whole.symm)
      have same : width = i.widthAt offset := congrArg Prod.snd (Except.ok.inj again)
      rw [← spells.length, ← length] at same
      obtain ⟨rfl, rest⟩ := List.append_inj (split.symm.trans whole.symm) same
      exact ⟨first, pieces, others, rest.symm⟩

theorem Chain.placed_of_narrow (chained : Chain code offset chain)
    (narrow : ∀ p ∈ chain, code[p.1]? = some Opcode.wide.code → p.2.needsWide = true)
    {τ : Type} {is : List (Instruction τ)}
    (wide : List.Forall₂ (fun p i => ∀ n, i.widthAt n = p.2.widthAt n) chain is) :
    List.Forall₂ (fun p q => q.1 = p.1) chain (placed offset is) ∧
      extent offset is = code.length := by
  induction chained generalizing is with
  | stop =>
    cases wide
    exact ⟨.nil, rfl⟩
  | @step offset width i later here _ ih =>
    obtain ⟨first, others⟩ := List.forall_mem_cons.mp narrow
    obtain _ | ⟨same, wide⟩ := wide
    obtain ⟨bytes, form, length, split⟩ := form_of_decodeAt here
    have stop := form.length_eq split first
    rw [length, ← same] at stop
    obtain ⟨starts, ends⟩ := ih others wide
    rw [stop] at starts ends
    exact ⟨.cons rfl starts, ends⟩

theorem Chain.placed_of_tight (chained : Chain code offset chain)
    (tight : ∀ p ∈ chain, p.2.Tight code p.1) {τ : Type} {is : List (Instruction τ)}
    (wide : List.Forall₂ (fun p i => ∀ n, i.widthAt n = p.2.widthAt n) chain is) :
    List.Forall₂ (fun p q => q.1 = p.1) chain (placed offset is) ∧
      extent offset is = code.length :=
  chained.placed_of_narrow (fun p member => (tight p member).narrow) wide

end Instruction

namespace Listing

open Instruction

variable {l m : Listing} {s : Starts} {code : List UInt8} {is : List (Instruction Handle)}
  {read : List (Nat × Instruction Int32)} {o : Offsets} {h : Handle} {i : Instruction Handle}
  {n : Nat} {bytes : List UInt8}

theorem Lists.exists_layOut (lists : l.Lists is) :
    ∃ o, l.layOut l.order.toList ⟨∅, 0⟩ = .ok o ∧ o.length = extent 0 is ∧
      l.Located o.starts l.order.toList (placed 0 is) := by
  obtain ⟨o, laid, length, _, located⟩ := layOut_eq_ok (o := ⟨∅, 0⟩) lists.stored lists.nodup
  exact ⟨o, laid, length, located⟩

theorem encodeOne_of_near (stored : l.get? h = some i) (start : o.starts[h]? = some n)
    (near : ∀ t ∈ i.targets, ∃ x, o.starts[t]? = some x ∧
      (isShortBranch i = true → fitsShort ((x : Int) - n) = true)) :
    l.encodeOne o h = (i.map (distance o n)).encodeAt n := by
  have targets : i.mapM (reach o h i n) = .ok (i.map (distance o n)) := by
    refine mapM_eq_map fun t member => ?_
    obtain ⟨x, there, fits⟩ := near t member
    unfold reach distance
    rw [there]
    cases short : isShortBranch i with
    | false => rfl
    | true => simp [fits short]
  rw [encodeOne_eq stored start, targets]
  simp only [bind, Except.bind]

theorem encodeOne_of_far {op : Opcode} {t : Handle} {x : Nat}
    (stored : l.get? h = some (.branch op t)) (start : o.starts[h]? = some n)
    (there : o.starts[t]? = some x) (short : op.shape? = some .branch)
    (far : fitsShort ((x : Int) - n) = false) :
    l.encodeOne o h = .error (.branchTooFar h (x - n)) := by
  have refused : reach o h (.branch op t) n t = .error (.branchTooFar h (x - n)) := by
    unfold reach
    rw [there]
    simp [isShortBranch, short, far]
  rw [encodeOne_eq stored start, mapM, refused]
  rfl

theorem pieces_of_encode (lists : l.Lists is) (encoded : encode l = .ok code m) :
    ∃ o pieces, l.layOut l.order.toList ⟨∅, 0⟩ = .ok o ∧
      l.Located o.starts l.order.toList (placed 0 is) ∧ code = pieces.flatten ∧
      List.Forall₂ (fun q bytes => (q.2.map (distance o q.1)).encodeAt q.1 = .ok bytes)
        (placed 0 is) pieces := by
  obtain ⟨o, pieces, laid, _, written, rfl, _⟩ := encode_eq_ok encoded
  obtain ⟨o', laid', _, located⟩ := lists.exists_layOut
  obtain rfl := Except.ok.inj (laid.symm.trans laid')
  refine ⟨o, pieces, laid, located, rfl, ?_⟩
  exact forall₂_join located written fun h q bytes _ here piece =>
    encodeAt_of_encodeOne here.2 here.1 piece

theorem exists_branch_of_short {τ : Type} {j : Instruction τ} {f : τ → Handle}
    (short : isShortBranch (j.map f) = true) :
    ∃ op t, j = .branch op t ∧ op.shape? = some .branch := by
  cases j with
  | branch op t => exact ⟨op, t, rfl, eq_of_beq short⟩
  | _ => cases short

def Keeps (l : Listing) (o : Offsets) : Prop :=
  ∀ h x, l.offset? h = some x → o.starts[h]? = some x

namespace Linked

variable (linked : l.Linked s code read is)
include linked

theorem keeps_of_tight (tight : ∀ q ∈ read, q.2.Tight code q.1)
    (located : l.Located o.starts l.order.toList (placed 0 is)) : l.Keeps o := by
  intro h x start
  obtain ⟨k, listed⟩ := List.mem_iff_getElem?.mp (linked.maps.mem_order start)
  obtain ⟨p, there, start', _⟩ := getElem?_of_forall₂ located listed
  obtain ⟨q, here, same⟩ := getElem?_of_forall₂ linked.maps.located listed
  obtain ⟨p', there', stays⟩ :=
    getElem?_of_forall₂ (linked.chained.placed_of_tight tight linked.widthAt).1 here
  cases there.symm.trans there'
  cases start.symm.trans same
  rw [start', stays]

theorem encodeOne_of_keeps (keeps : l.Keeps o) {q : Nat × Instruction Int32} (member : q ∈ read)
    (stored : l.get? h = some (q.2.map (targetOf s q.1))) (start : l.offset? h = some q.1)
    (written : q.2.encodeAt q.1 = .ok bytes) : l.encodeOne o h = .ok bytes := by
  have back : (q.2.map (targetOf s q.1)).map (distance o q.1) = q.2 := by
    rw [map_map]
    refine (map_congr fun t target => ?_).trans (map_id q.2)
    obtain ⟨x, found, gap⟩ := linked.offset?_target member target
    unfold distance
    rw [keeps _ _ found, Option.getD_some, gap, Int32.ofInt_toInt, id_eq]
  rw [encodeOne_of_near stored (keeps _ _ start), back, written]
  intro t' target
  rw [targets_map] at target
  obtain ⟨t, target', rfl⟩ := List.mem_map.mp target
  obtain ⟨x, found, gap⟩ := linked.offset?_target member target'
  refine ⟨x, keeps _ _ found, fun short => ?_⟩
  obtain ⟨op, t', branches, shape⟩ := exists_branch_of_short short
  rw [branches] at target'
  obtain rfl := List.mem_singleton.mp target'
  rw [gap]
  exact linked.fitsShort_of_branch member branches shape

/-- Code is written as it was read just when all its instructions are tight. -/
theorem encode_iff_tight (short : code.length ≤ maxCodeLength) :
    (∃ m, encode l = .ok code m) ↔ ∀ q ∈ read, q.2.Tight code q.1 := by
  constructor
  · rintro ⟨m, encoded⟩
    obtain ⟨o, pieces, _, _, whole, written⟩ := pieces_of_encode linked.lists encoded
    have spelled : List.Forall₂ (fun q bytes => Spells q.1 bytes
        (q.2.map (distance o q.1)).reread (q.2.widthAt q.1)) (placed 0 is) pieces := by
      refine written.imp fun q bytes piece => ?_
      have spells := spells_of_encodeAt piece
      rwa [widthAt_map] at spells
    obtain ⟨all, _⟩ :=
      readAll_pieces (f := fun n i => (i.map (distance o n)).reread) spelled
    rw [← whole] at all
    obtain rfl := chain_unique linked.chained (readAll_ofBytes_iff.mp all)
    refine linked.chained.tight_iff.mpr ⟨pieces, ?_, whole.symm⟩
    rw [List.forall₂_map_left_iff]
    have each := (List.forall₂_and_left _ _).mpr ⟨fun q member => member, written⟩
    refine each.imp fun q bytes both => ?_
    obtain ⟨member, piece⟩ := both
    have listed : q.2 ∈ is := by
      rw [← map_snd_placed 0 is]
      exact List.mem_map_of_mem member
    rwa [reread_map, linked.reread_eq listed]
  · intro tight
    obtain ⟨o, laid, length, located⟩ := linked.lists.exists_layOut
    have keeps := linked.keeps_of_tight tight located
    have ends := (linked.chained.placed_of_tight tight linked.widthAt).2
    obtain ⟨pieces, written, whole⟩ := linked.chained.tight_iff.mp tight
    have pieces' : List.Forall₂ (fun h bytes => l.encodeOne o h = .ok bytes) l.order.toList
        pieces := by
      exact forall₂_join linked.stored.flip written fun q h bytes member here piece =>
        linked.encodeOne_of_keeps keeps member here.2 here.1 piece
    have encoded := encode_of_pieces pieces laid (by rw [length, ends]; exact short) pieces'
    rw [whole] at encoded
    exact ⟨_, encoded⟩

end Linked

/-- Code is decoded just when its instructions are a chain that ends with it and that all targets
lead into.  The handles then stand for the offsets of the chain, and code that is short enough is
written as it was read just when its instructions are tight. -/
theorem decode_iff_chain (id : Nat) (code : List UInt8) :
    ((∃ l s, decode id code = .ok (l, s)) ↔ ∃ chain, Chain code 0 chain ∧ Closed chain) ∧
      ∀ l s chain, decode id code = .ok (l, s) → Chain code 0 chain →
        l.Maps s chain ∧ (code.length ≤ maxCodeLength →
          ((∃ m, encode l = .ok code m) ↔ ∀ p ∈ chain, p.2.Tight code p.1)) := by
  refine ⟨exists_decode_iff id, fun l s chain decoded chained => ?_⟩
  refine ⟨maps_of_decode decoded chained, fun short => ?_⟩
  obtain ⟨read, is, linked⟩ := linked_of_decode decoded
  obtain rfl := chain_unique chained linked.chained
  exact linked.encode_iff_tight short

theorem decode_iff_chain_widened_load : ∃ l s, decode 0 [0xc4, 0x15, 0, 0, 0xb1] = .ok (l, s) ∧
    l.Maps s [(0, .localVariable ⟨0x15⟩ 0), (4, .plain ⟨0xb1⟩)] ∧
    ¬ ∃ m, encode l = .ok [0xc4, 0x15, 0, 0, 0xb1] m := by
  have load : decodeAt [0xc4, 0x15, 0, 0, 0xb1] 0 = .ok (.localVariable ⟨0x15⟩ 0, 4) := by
    decide +kernel
  have exit : decodeAt [0xc4, 0x15, 0, 0, 0xb1] 4 = .ok (.plain ⟨0xb1⟩, 1) := by
    decide +kernel
  have chained : Chain [0xc4, 0x15, 0, 0, 0xb1] 0
      [(0, .localVariable ⟨0x15⟩ 0), (4, .plain ⟨0xb1⟩)] := .step load (.step exit .stop)
  have closed : Closed [(0, .localVariable ⟨0x15⟩ 0), (4, .plain ⟨0xb1⟩)] := by decide
  obtain ⟨decodes, determined⟩ := decode_iff_chain 0 [0xc4, 0x15, 0, 0, 0xb1]
  obtain ⟨l, s, decoded⟩ := decodes.mpr ⟨_, chained, closed⟩
  obtain ⟨maps, tight⟩ := determined l s _ decoded chained
  refine ⟨l, s, decoded, maps, fun encoded => ?_⟩
  have loose := ((tight (by decide)).mp encoded _ List.mem_cons_self).narrow rfl
  exact absurd loose (by decide)

end Listing

end JvmClass
