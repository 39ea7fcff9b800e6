import JvmClass.Proofs.Code.Tightness

/-! Code that is written again is not longer.  Prefixes that are not needed are dropped, so that all
behind them moves to the front; the padding of a switch takes back three bytes at most.  Then a
branch that has two bytes for the distance to its target may be the one thing that does not fit any
more. -/

namespace JvmClass

theorem rel_of_pairwise {α : Type} {R : α → α → Prop} {as : List α} {j k : Nat} {a b : α}
    (related : as.Pairwise R) (before : j < k) (here : as[j]? = some a) (there : as[k]? = some b) :
    R a b := by
  obtain ⟨inside, rfl⟩ := List.getElem?_eq_some_iff.mp here
  obtain ⟨inside', rfl⟩ := List.getElem?_eq_some_iff.mp there
  exact List.pairwise_iff_getElem.mp related j k inside inside' before

namespace Instruction

variable {code : List UInt8} {offset start n : Nat} {chain : List (Nat × Instruction Int32)}
  {τ : Type} {is : List (Instruction τ)}

theorem map_fst_placed_replicate (op : Opcode) (is : List (Instruction τ)) :
    (placed start (List.replicate n (.plain op) ++ is)).map (·.1) =
      List.range' start n ++ (placed (start + n) is).map (·.1) := by
  induction n generalizing start with
  | zero => rfl
  | succ n ih =>
    rw [List.replicate_succ, List.cons_append, placed, List.map_cons, List.range'_succ,
      List.cons_append]
    change start :: (placed (start + 1) _).map _ = _
    rw [ih, Nat.add_assoc, Nat.add_comm 1 n]

/-- Instructions that are put to the front stay ahead of where they were, by a multiple of four at
least. -/
theorem Chain.placed_le (chained : Chain code offset chain)
    (wide : List.Forall₂ (fun p i => ∀ n, i.widthAt n = p.2.widthAt n) chain is)
    (before : start + 4 * n ≤ offset) :
    List.Forall₂ (fun p q => q.1 + 4 * n ≤ p.1) chain (placed start is) ∧
      extent start is + 4 * n ≤ code.length := by
  induction chained generalizing start is with
  | stop =>
    cases wide
    exact ⟨.nil, before⟩
  | step here _ ih =>
    obtain _ | ⟨same, wide⟩ := wide
    obtain ⟨bytes, form, length, _⟩ := form_of_decodeAt here
    have next := form.stop_le before
    rw [length, ← same] at next
    obtain ⟨starts, ends⟩ := ih wide next
    exact ⟨.cons before starts, ends⟩

/-- The way from one instruction to another one grows by three bytes at most. -/
theorem Chain.gap_le (chained : Chain code offset chain)
    (wide : List.Forall₂ (fun p i => ∀ n, i.widthAt n = p.2.widthAt n) chain is)
    (before : start ≤ offset) :
    (chain.zip (placed start is)).Pairwise fun a b =>
      a.2.1 ≤ b.2.1 ∧ b.2.1 + a.1.1 ≤ b.1.1 + a.2.1 + 3 := by
  induction chained generalizing start is with
  | stop =>
    cases wide
    exact .nil
  | @step offset width i later here rest ih =>
    obtain _ | ⟨same, wide⟩ := wide
    rename_i j is
    have moved : ∀ n, start + 4 * n ≤ offset → start + j.widthAt start + 4 * n ≤ offset + width := by
      intro n before
      obtain ⟨bytes, form, length, _⟩ := form_of_decodeAt here
      have next := form.stop_le before
      rwa [length, ← same] at next
    rw [placed, List.zip_cons_cons]
    refine .cons (fun b member => ?_) (ih wide (moved 0 before))
    have rounded : start + 4 * ((offset - start) / 4) ≤ offset := by omega
    have later := List.forall₂_zip (rest.placed_le wide (moved _ rounded)).1 member
    have behind := (bounds_of_placed (List.of_mem_zip member).2).1
    dsimp only
    omega

end Instruction

namespace Listing

open Instruction

variable {l m : Listing} {s : Starts} {code bytes : List UInt8} {is : List (Instruction Handle)}
  {read : List (Nat × Instruction Int32)} {o : Offsets} {h t : Handle} {d : Int} {id : Nat}

def ShortBranch (l : Listing) (h t : Handle) : Prop :=
  ∃ op, l.get? h = some (.branch op t) ∧ op.shape? = some .branch

def Gap (start? : Handle → Option Nat) (h t : Handle) (d : Int) : Prop :=
  ∃ n x, start? h = some n ∧ start? t = some x ∧ (x : Int) - n = d

theorem shape?_of_branch {τ : Type} {op : Opcode} {x : τ}
    (shaped : (branch op x : Instruction τ).WellShaped) (narrow : ¬ isWideBranch op) :
    op.shape? = some .branch := by
  obtain ⟨shape, known, fits⟩ := shaped
  change op.shape? = some shape at known
  obtain fit | fit := Bool.or_eq_true_iff.mp fits
  · rw [known, eq_of_beq fit]
  · rw [eq_of_beq fit] at known
    exact absurd (beq_iff_eq.mpr known) narrow

namespace Linked

variable (linked : l.Linked s code read is)
  (located : l.Located o.starts l.order.toList (placed 0 is))
include linked

theorem extent_le : extent 0 is ≤ code.length :=
  (linked.chained.placed_le (n := 0) linked.widthAt (Nat.le_refl 0)).2

include located

theorem exists_start {x : Nat} (found : l.offset? h = some x) :
    ∃ n ≤ x, o.starts[h]? = some n ∧ n ≤ extent 0 is := by
  obtain ⟨k, listed⟩ := List.mem_iff_getElem?.mp (linked.maps.mem_order found)
  obtain ⟨q, here, start⟩ := getElem?_of_forall₂ linked.maps.located listed
  obtain ⟨p, there, start', _⟩ := getElem?_of_forall₂ located listed
  obtain ⟨p', there', before⟩ := getElem?_of_forall₂
    (linked.chained.placed_le (n := 0) linked.widthAt (Nat.le_refl 0)).1 here
  cases there.symm.trans there'
  cases found.symm.trans start
  exact ⟨p.1, before, start', (bounds_of_placed (List.mem_of_getElem? there)).2⟩

/-- The ways between two instructions before and after. -/
theorem exists_gap (first : h ∈ l.order.toList) (second : t ∈ l.order.toList) :
    ∃ d d', Gap l.offset? h t d ∧ Gap (o.starts[·]?) h t d' ∧ d'.natAbs ≤ d.natAbs + 3 := by
  have moves := forall₂_zip linked.maps.located located
  have gaps := linked.chained.gap_le linked.widthAt (Nat.le_refl 0)
  obtain ⟨j, first⟩ := List.mem_iff_getElem?.mp first
  obtain ⟨k, second⟩ := List.mem_iff_getElem?.mp second
  obtain ⟨a, here, start, start', _⟩ := getElem?_of_forall₂ moves first
  obtain ⟨b, there, stop, stop', _⟩ := getElem?_of_forall₂ moves second
  refine ⟨_, _, ⟨_, _, start, stop, rfl⟩, ⟨_, _, start', stop', rfl⟩, ?_⟩
  obtain before | rfl | behind := Nat.lt_trichotomy j k
  · have := rel_of_pairwise gaps before here there
    omega
  · cases here.symm.trans there
    omega
  · have := rel_of_pairwise gaps behind there here
    omega

theorem exists_encodeOne (short : code.length ≤ maxCodeLength) {q : Nat × Instruction Int32}
    {n : Nat} (member : q ∈ read) (stored : l.get? h = some (q.2.map (targetOf s q.1)))
    (start : o.starts[h]? = some n) (inside : n ≤ extent 0 is)
    (near : ∀ t d, l.ShortBranch h t → Gap (o.starts[·]?) h t d → fitsShort d = true) :
    ∃ bytes, l.encodeOne o h = .ok bytes := by
  have known : ∀ r ∈ q.2.targets,
      ∃ x, o.starts[targetOf s q.1 r]? = some x ∧ x ≤ extent 0 is := by
    intro r target
    obtain ⟨_, found, _⟩ := linked.offset?_target member target
    obtain ⟨x, _, there, inside⟩ := linked.exists_start located found
    exact ⟨x, there, inside⟩
  have fits : ∀ op r x, q.2 = .branch op r → op.shape? = some .branch →
      o.starts[targetOf s q.1 r]? = some x → fitsShort ((x : Int) - n) = true := by
    intro op r x branches shape there
    rw [branches] at stored
    exact near _ _ ⟨op, stored, shape⟩ ⟨n, x, start, there, rfl⟩
  rw [encodeOne_of_near stored start, map_map]
  · obtain ⟨_, form⟩ := linked.chained.form_of_mem member
    refine form.exists_encodeAt_map fun op r branches narrow => ?_
    have shaped := wellShaped_of_readAll (readAll_of_chain linked.chained) q member
    rw [branches] at shaped
    obtain ⟨x, there, inside'⟩ := known r (by rw [branches]; exact List.mem_singleton_self r)
    have bound := Nat.le_trans linked.extent_le short
    have sum := add_distance there (Nat.le_trans inside bound) (Nat.le_trans inside' bound)
    have gap : (distance o n (targetOf s q.1 r)).toInt = (x : Int) - n := by omega
    rw [gap]
    exact fits op r x branches (shape?_of_branch shaped narrow) there
  · intro t target
    rw [targets_map] at target
    obtain ⟨r, listed, rfl⟩ := List.mem_map.mp target
    obtain ⟨x, there, _⟩ := known r listed
    refine ⟨x, there, fun short => ?_⟩
    obtain ⟨op, r', branches, shape⟩ := exists_branch_of_short short
    rw [branches] at listed
    obtain rfl := List.mem_singleton.mp listed
    exact fits op r x branches shape there

theorem encodeOne_cases (short : code.length ≤ maxCodeLength) (listed : h ∈ l.order.toList) :
    (∃ bytes, l.encodeOne o h = .ok bytes) ∨
      ∃ t d, l.ShortBranch h t ∧ Gap (o.starts[·]?) h t d ∧ fitsShort d = false ∧
        l.encodeOne o h = .error (.branchTooFar h d) := by
  obtain ⟨q, member, start, stored⟩ := exists_right_of_forall₂ linked.stored listed
  obtain ⟨n, _, start', inside⟩ := linked.exists_start located start
  by_cases near : ∀ t d, l.ShortBranch h t → Gap (o.starts[·]?) h t d → fitsShort d = true
  · left
    exact linked.exists_encodeOne located short member stored start' inside near
  · right
    simp only [not_forall] at near
    obtain ⟨t, d, jumps, gap, far⟩ := near
    obtain ⟨op, branches, shape⟩ := jumps
    obtain ⟨n', x, first, second, rfl⟩ := gap
    have far := Bool.eq_false_iff.mpr far
    exact ⟨t, _, ⟨op, branches, shape⟩, ⟨n', x, first, second, rfl⟩, far,
      encodeOne_of_far branches first second shape far⟩

omit located in
theorem map_reread_byPosition : l.byPosition.map reread = l.byPosition := by
  rw [byPosition_eq linked.lists.stored, List.map_map]
  refine List.map_congr_left fun i member => ?_
  rw [Function.comp_apply, reread_map, linked.reread_eq member]

omit located in
theorem fitsShort_of_gap (jumps : l.ShortBranch h t) (gap : Gap l.offset? h t d) :
    fitsShort d = true := by
  obtain ⟨op, branches, shape⟩ := jumps
  obtain ⟨n, x, start, stop, rfl⟩ := gap
  obtain ⟨q, member, start', stored⟩ :=
    exists_right_of_forall₂ linked.stored (linked.maps.mem_order start)
  cases start.symm.trans start'
  have same := Option.some.inj (stored.symm.trans branches)
  obtain ⟨op', r, instruction, shape'⟩ : ∃ op r, q.2 = .branch op r ∧ op.shape? = some .branch :=
    exists_branch_of_short (by rw [same]; exact beq_iff_eq.mpr shape)
  rw [instruction, map] at same
  cases same
  have target : r ∈ q.2.targets := by
    rw [instruction]
    exact List.mem_singleton_self r
  obtain ⟨x', found, gap⟩ := linked.offset?_target member target
  cases stop.symm.trans found
  rw [gap]
  exact linked.fitsShort_of_branch member instruction shape'

omit located in
theorem mem_order_of_shortBranch (jumps : l.ShortBranch h t) :
    h ∈ l.order.toList ∧ t ∈ l.order.toList := by
  obtain ⟨op, branches, _⟩ := jumps
  have coherent := linked.coherent
  refine ⟨(coherent.stored h).mpr (contains_iff.mpr ⟨_, branches⟩), ?_⟩
  refine (coherent.stored t).mpr (coherent.known (.instruction h) t ?_)
  rw [targets_of_get branches]
  exact List.mem_singleton_self t

theorem encode_cases (short : code.length ≤ maxCodeLength) (layout : l.layout = .ok o) :
    (∃ bytes, encode l = .ok bytes { l with offsets? := some o } ∧
        ∀ h t d, l.ShortBranch h t → Gap (o.starts[·]?) h t d → fitsShort d = true) ∨
      ∃ h t d, l.ShortBranch h t ∧ Gap (o.starts[·]?) h t d ∧ fitsShort d = false ∧
        encode l = .error (.branchTooFar h d) { l with offsets? := some o } := by
  have encoded := encode_of_layout layout
  cases written : l.order.toList.mapM (l.encodeOne o) with
  | error e =>
    rw [written] at encoded
    obtain ⟨before, h, after, split, _, failed⟩ := mapM_eq_error_iff.mp written
    have listed : h ∈ l.order.toList := by
      rw [split]
      exact List.mem_append_right before List.mem_cons_self
    obtain ⟨bytes, piece⟩ | ⟨t, d, jumps, gap, far, refused⟩ :=
      linked.encodeOne_cases located short listed
    · cases failed.symm.trans piece
    · cases failed.symm.trans refused
      exact .inr ⟨h, t, d, jumps, gap, far, encoded⟩
  | ok pieces =>
    rw [written] at encoded
    refine .inl ⟨pieces.flatten, encoded, fun h t d jumps gap => ?_⟩
    by_contra far
    obtain ⟨piece, _, same⟩ := exists_right_of_forall₂ (mapM_eq_ok_iff.mp written)
      (linked.mem_order_of_shortBranch jumps).1
    obtain ⟨op, branches, shape⟩ := jumps
    obtain ⟨n, x, start, there, rfl⟩ := gap
    have refused := encodeOne_of_far branches start there shape (Bool.eq_false_iff.mpr far)
    cases same.symm.trans refused

end Linked

/-- Code that was read is laid out again with no instruction behind where it was.  It is written,
no longer than it was and with the same instructions in the same order, unless there is a branch
with an offset of two bytes from which its target is too far now. -/
theorem encode_of_decode (decoded : decode id code = .ok (l, s))
    (short : code.length ≤ maxCodeLength) :
    ∃ o, l.layout = .ok o ∧ o.length ≤ code.length ∧
      (∀ h x, l.offset? h = some x → ∃ n ≤ x, o.starts[h]? = some n) ∧
      (∀ h t, l.ShortBranch h t → ∃ d d', Gap l.offset? h t d ∧ Gap (o.starts[·]?) h t d' ∧
        fitsShort d = true ∧ d'.natAbs ≤ d.natAbs + 3) ∧
      ((∃ bytes, encode l = .ok bytes { l with offsets? := some o } ∧ bytes.length = o.length ∧
          (∀ h t d, l.ShortBranch h t → Gap (o.starts[·]?) h t d → fitsShort d = true) ∧
          ∀ id, ∃ c starts, decode id bytes = .ok (c, starts) ∧ c.byPosition = l.byPosition) ∨
        ∃ h t d, l.ShortBranch h t ∧ Gap (o.starts[·]?) h t d ∧ fitsShort d = false ∧
          encode l = .error (.branchTooFar h d) { l with offsets? := some o }) := by
  obtain ⟨read, is, linked⟩ := linked_of_decode decoded
  obtain ⟨o, laid, length, located⟩ := linked.lists.exists_layOut
  have below : o.length ≤ code.length := by
    rw [length]
    exact linked.extent_le
  have layout := layout_of_layOut laid (Nat.le_trans below short)
  refine ⟨o, layout, below, fun h x found => ?_, fun h t jumps => ?_, ?_⟩
  · obtain ⟨n, before, start, _⟩ := linked.exists_start located found
    exact ⟨n, before, start⟩
  · obtain ⟨first, second⟩ := linked.mem_order_of_shortBranch jumps
    obtain ⟨d, d', gap, gap', bound⟩ := linked.exists_gap located first second
    exact ⟨d, d', gap, gap', linked.fitsShort_of_gap jumps gap, bound⟩
  · refine (linked.encode_cases located short layout).imp ?_ fun failed => failed
    rintro ⟨bytes, encoded, fits⟩
    have recoded := decode_of_encode linked.coherent encoded
    refine ⟨bytes, encoded, ?_, fits, fun id => ?_⟩
    · obtain ⟨_, _, _, recodes⟩ := recoded id
      exact (Option.some.inj recodes.written).symm
    · obtain ⟨c, starts, decoded', recodes⟩ := recoded id
      exact ⟨c, starts, decoded', recodes.instructions.trans linked.map_reread_byPosition⟩

theorem encode_of_decode_widened_load : ∃ l s o, decode 0 [0xc4, 0x15, 0, 0, 0xb1] = .ok (l, s) ∧
    l.layout = .ok o ∧ o.length ≤ 5 := by
  have load : decodeAt [0xc4, 0x15, 0, 0, 0xb1] 0 = .ok (.localVariable ⟨0x15⟩ 0, 4) := by
    decide +kernel
  have exit : decodeAt [0xc4, 0x15, 0, 0, 0xb1] 4 = .ok (.plain ⟨0xb1⟩, 1) := by
    decide +kernel
  have decodes := (exists_decode_iff 0).mpr ⟨_, .step load (.step exit .stop), by decide⟩
  obtain ⟨l, s, decoded⟩ := decodes
  obtain ⟨o, layout, shorter, _⟩ := encode_of_decode decoded (by decide)
  exact ⟨l, s, o, decoded, layout, shorter⟩

/-- A load behind a prefix that it does not need, a jump to the last instruction, a switch and many
instructions that do nothing. -/
def longJump (n : Nat) : List UInt8 :=
  [0xc4, 0x15, 0, 0, 0xa7, 0x7f, 0xff, 0xab, 0, 0, 0, 9, 0, 0, 0, 0] ++
    (List.replicate n 0 ++ [0xb1])

def longJumpChain (n : Nat) : List (Nat × Instruction Int32) :=
  (0, .localVariable ⟨0x15⟩ 0) :: (4, .branch .goto 0x7fff) :: (7, .lookupSwitch ⟨9, []⟩) ::
    ((List.range' 16 n).map (·, .plain ⟨0⟩) ++ [(16 + n, .plain ⟨0xb1⟩)])

theorem chain_nops {code rest : List UInt8} {later : List (Nat × Instruction Int32)} (n offset : Nat)
    (here : code.drop offset = List.replicate n 0 ++ rest)
    (chained : Chain code (offset + n) later) :
    Chain code offset ((List.range' offset n).map (·, .plain ⟨0⟩) ++ later) := by
  induction n generalizing offset with
  | zero => exact chained
  | succ n ih =>
    have shape : (⟨0⟩ : Opcode).shape? = some .none := by decide +kernel
    have first : decodeAt code offset = .ok (.plain ⟨0⟩, 1) :=
      decodeAt_of_spells (spells_plain shape) here
    have next : code.drop (offset + 1) = List.replicate n 0 ++ rest := by
      rw [← List.drop_drop, here]
      rfl
    refine .step first (ih (offset + 1) next ?_)
    rwa [Nat.add_assoc, Nat.add_comm 1 n]

theorem chain_longJump (n : Nat) : Chain (longJump n) 0 (longJumpChain n) := by
  have load : decodeAt (longJump n) 0 = .ok (.localVariable ⟨0x15⟩ 0, 4) :=
    decodeAt_of_spells (spells_wideLocal (by decide +kernel) 0) rfl
  have jump : decodeAt (longJump n) 4 = .ok (.branch .goto 0x7fff, 3) :=
    decodeAt_of_spells (spells_shortBranch (by decide +kernel) (by decide)) rfl
  have select : decodeAt (longJump n) 7 = .ok (.lookupSwitch ⟨9, []⟩, 9) :=
    decodeAt_of_spells (spells_lookupSwitch (s := ⟨9, []⟩) length_padding (Nat.zero_le _)) rfl
  have shape : (⟨0xb1⟩ : Opcode).shape? = some .none := by decide +kernel
  have length : (longJump n).length = 16 + n + 1 := by
    simp [longJump]
    omega
  have last : (longJump n).drop (16 + n) = [0xb1] := by
    rw [longJump, ← List.drop_drop]
    change (List.replicate n 0 ++ [(0xb1 : UInt8)]).drop n = _
    rw [List.drop_left' List.length_replicate]
  have exit : decodeAt (longJump n) (16 + n) = .ok (.plain ⟨0xb1⟩, 1) :=
    decodeAt_of_spells (spells_plain shape) last
  refine .step load (.step jump (.step select (chain_nops n 16 rfl (.step exit ?_))))
  rw [← length]
  exact .stop

theorem closed_longJump : Closed (longJumpChain 32755) := by
  intro p member t target
  obtain rfl | rfl | rfl | member : p = (0, .localVariable ⟨0x15⟩ 0) ∨ p = (4, .branch .goto 0x7fff) ∨
      p = (7, .lookupSwitch ⟨9, []⟩) ∨
        p ∈ (List.range' 16 32755).map (·, .plain ⟨0⟩) ++ [(16 + 32755, .plain ⟨0xb1⟩)] := by
    simpa only [longJumpChain, List.mem_cons] using member
  · cases target
  · obtain rfl := List.mem_singleton.mp target
    refine ⟨(16 + 32755, .plain ⟨0xb1⟩), ?_, by decide⟩
    simp [longJumpChain]
  · obtain rfl := List.mem_singleton.mp target
    refine ⟨(16, .plain ⟨0⟩), ?_, by decide⟩
    simp [longJumpChain]
  · obtain nop | exit := List.mem_append.mp member
    · obtain ⟨k, _, rfl⟩ := List.mem_map.mp nop
      cases target
    · obtain rfl := List.mem_singleton.mp exit
      cases target

/-- Without the prefix the jump starts two bytes further in front, but the padding of the switch
keeps its target in place. -/
theorem map_fst_placed_longJump (n : Nat) :
    (placed 0 ((longJumpChain n).map (·.2))).map (·.1) =
      0 :: 2 :: 5 :: (List.range' 16 n ++ [16 + n]) := by
  have narrow : isWideBranch .goto = false := by decide +kernel
  have nops : ((List.range' 16 n).map (·, (.plain ⟨0⟩ : Instruction Int32))).map (·.2) =
      List.replicate n (.plain ⟨0⟩) := by
    rw [List.map_map]
    exact List.map_const'.trans (by rw [List.length_range'])
  have same : (longJumpChain n).map (·.2) = .localVariable ⟨0x15⟩ 0 :: .branch .goto 0x7fff ::
      .lookupSwitch ⟨9, []⟩ :: (List.replicate n (.plain ⟨0⟩) ++ [.plain ⟨0xb1⟩]) := by
    rw [longJumpChain, List.map_cons, List.map_cons, List.map_cons, List.map_append, nops]
    rfl
  rw [same, placed, placed, placed]
  simp only [widthAt, narrow, List.map_cons]
  change 0 :: 2 :: 5 :: (placed 16 _).map _ = _
  rw [map_fst_placed_replicate]
  rfl

theorem getElem?_behind {α : Type} {xs : List α} {n : Nat} (length : xs.length = n) (a b c x : α) :
    (a :: b :: c :: (xs ++ [x]))[n + 3]? = some x := by
  subst length
  simp

theorem exists_gap_longJump (linked : l.Linked s (longJump 32755) (longJumpChain 32755) is)
    (located : l.Located o.starts l.order.toList (placed 0 is)) :
    ∃ h t, l.ShortBranch h t ∧ Gap (o.starts[·]?) h t 32769 := by
  have wide : List.Forall₂ (fun i j => ∀ n, i.widthAt n = j.widthAt n) is
      ((longJumpChain 32755).map (·.2)) := List.forall₂_map_right_iff.mpr linked.widthAt.flip
  have relaid := (placed_congr wide).1.trans (map_fst_placed_longJump 32755)
  have starts : ∀ (k : Nat) h, l.order.toList[k]? = some h →
      o.starts[h]? = (0 :: 2 :: 5 :: (List.range' 16 32755 ++ [16 + 32755]))[k]? := by
    intro k h here
    obtain ⟨p, there, start, _⟩ := getElem?_of_forall₂ located here
    rw [start, ← relaid, List.getElem?_map, there]
    rfl
  have jump : (longJumpChain 32755)[1]? = some (4, .branch .goto 0x7fff) := rfl
  have exit : (longJumpChain 32755)[32755 + 3]? = some (16 + 32755, .plain ⟨0xb1⟩) :=
    getElem?_behind (by rw [List.length_map, List.length_range']) ..
  obtain ⟨h, here, _, stored⟩ := getElem?_of_forall₂ linked.stored.flip jump
  obtain ⟨t, there, stop, _⟩ := getElem?_of_forall₂ linked.stored.flip exit
  obtain ⟨x, found, gap⟩ := linked.offset?_target (List.mem_of_getElem? jump)
    (List.mem_singleton_self (0x7fff : Int32))
  have same : targetOf s 4 0x7fff = t := by
    have value : x = 16 + 32755 := by
      have distance : (0x7fff : Int32).toInt = 32767 := by decide
      dsimp only at gap
      omega
    rw [value, ← linked.maps.found] at found
    exact Option.some.inj (found.symm.trans ((linked.maps.found _ _).mpr stop))
  refine ⟨h, t, ⟨.goto, ?_, by decide +kernel⟩, 2, 16 + 32755, starts 1 h here, ?_, by decide⟩
  · rw [stored, ← same]
    rfl
  · change o.starts[t]? = _
    rw [starts _ t there]
    exact getElem?_behind List.length_range' ..

/-- The jump can be read, but there is no room for the distance when it is written again. -/
theorem encode_longJump : ∃ l s, decode 0 (longJump 32755) = .ok (l, s) ∧
    (longJump 32755).length ≤ maxCodeLength ∧
    ∃ h d m, encode l = .error (.branchTooFar h d) m := by
  have length : (longJump 32755).length = 16 + (32755 + 1) := by
    rw [longJump, List.length_append, List.length_append, List.length_replicate]
    rfl
  have short : (longJump 32755).length ≤ maxCodeLength := by
    rw [length]
    decide
  obtain ⟨l, s, decoded⟩ :=
    (exists_decode_iff 0).mpr ⟨_, chain_longJump 32755, closed_longJump⟩
  obtain ⟨read, is, linked⟩ := linked_of_decode decoded
  obtain rfl := chain_unique (chain_longJump 32755) linked.chained
  obtain ⟨o, laid, extent, located⟩ := linked.lists.exists_layOut
  have below : o.length ≤ maxCodeLength := by
    rw [extent]
    exact Nat.le_trans linked.extent_le short
  refine ⟨l, s, decoded, short, ?_⟩
  obtain ⟨_, _, fits⟩ | ⟨h, _, d, _, _, _, failed⟩ :=
    linked.encode_cases located short (layout_of_layOut laid below)
  · obtain ⟨h, t, jumps, gap⟩ := exists_gap_longJump linked located
    exact absurd (fits h t _ jumps gap) (by decide)
  · exact ⟨h, d, _, failed⟩

end Listing

end JvmClass
