import JvmClass.Proofs.Verify.Rules
import Mathlib.Data.List.GetD

/-! Values on a stack as words, of which a wide value has two that belong together.  An opcode that
moves values around cuts the words on top of the stack into blocks and puts blocks back, whatever
values the words belong to; it fails just where there are too few words, where a cut goes through a
value, or where there is no room for what is put back. -/

namespace JvmClass

open Width (width)

/-- What a slot of the stack holds: a narrow value, or the first or second half of a wide one, seen
from the top. -/
structure Word where
  type : VType
  isSecond : Bool
  deriving DecidableEq, Repr

def VType.words : VType → List Word
  | .long => [⟨.long, false⟩, ⟨.long, true⟩]
  | .double => [⟨.double, false⟩, ⟨.double, true⟩]
  | t => [⟨t, false⟩]

def words (ts : List VType) : List Word := ts.flatMap VType.words

/-- Below this many words there is no second half whose first half is above. -/
def CutsAt (ws : List Word) (n : Nat) : Prop := ∀ w ∈ ws[n]?, w.isSecond = false

instance (ws : List Word) (n : Nat) : Decidable (CutsAt ws n) :=
  inferInstanceAs (Decidable (∀ w ∈ ws[n]?, w.isSecond = false))

/-- A way to move words around: how many there are in the blocks that come off the stack, the topmost
block first, and which blocks are put back, again the topmost first. -/
structure Shuffle where
  blocks : List Nat
  order : List Nat
  deriving DecidableEq, Repr

def Opcode.shuffle? : Opcode → Option Shuffle
  | .pop => some ⟨[1], []⟩
  | .popTwo => some ⟨[2], []⟩
  | .dup => some ⟨[1], [0, 0]⟩
  | .dupX1 => some ⟨[1, 1], [0, 1, 0]⟩
  | .dupX2 => some ⟨[1, 2], [0, 1, 0]⟩
  | .dupTwo => some ⟨[2], [0, 0]⟩
  | .dupTwoX1 => some ⟨[2, 1], [0, 1, 0]⟩
  | .dupTwoX2 => some ⟨[2, 2], [0, 1, 0]⟩
  | .swap => some ⟨[1, 1], [1, 0]⟩
  | _ => none

namespace Shuffle

variable {α : Type}

def depth (s : Shuffle) : Nat := total id s.blocks

def ends : List Nat → List Nat
  | [] => []
  | b :: bs => b :: (ends bs).map (b + ·)

def cuts (s : Shuffle) : List Nat := ends s.blocks

def split : List Nat → List α → List (List α)
  | [], _ => []
  | b :: bs, ws => ws.take b :: split bs (ws.drop b)

def gather (order : List Nat) (gs : List (List α)) : List α := order.flatMap fun k => gs.getD k []

def rearranged (s : Shuffle) (ws : List α) : List α :=
  gather s.order (split s.blocks ws) ++ ws.drop s.depth

end Shuffle

variable {ts us vs : List VType} {t : VType} {n : Nat}

@[simp] theorem words_nil : words [] = [] := rfl

@[simp] theorem words_cons (t : VType) (ts : List VType) : words (t :: ts) = t.words ++ words ts := rfl

@[simp] theorem words_append (ts us : List VType) : words (ts ++ us) = words ts ++ words us :=
  List.flatMap_append

theorem VType.length_words (t : VType) : t.words.length = width t := by
  cases t <;> rfl

@[simp] theorem length_words (ts : List VType) : (words ts).length = total width ts := by
  induction ts with
  | nil => rfl
  | cons t ts ih => rw [words_cons, List.length_append, t.length_words, ih, total_cons]

theorem VType.words_cases (t : VType) :
    t.words = [⟨t, false⟩] ∨ t.words = [⟨t, false⟩, ⟨t, true⟩] := by
  cases t <;> simp [words]

theorem cutsAt_zero (ts : List VType) : CutsAt (words ts) 0 := by
  intro w first
  cases ts with
  | nil => cases first
  | cons t ts =>
    obtain narrow | wide := t.words_cases
    · rw [words_cons, narrow] at first
      cases first
      rfl
    · rw [words_cons, wide] at first
      cases first
      rfl

theorem cutsAt_append (us vs : List VType) (n : Nat) :
    CutsAt (words (us ++ vs)) (total width us + n) ↔ CutsAt (words vs) n := by
  have behind : (words us ++ words vs)[total width us + n]? = (words vs)[n]? := by
    rw [List.getElem?_append_right] <;> simp
  rw [CutsAt, CutsAt, words_append, behind]

theorem width_le_of_cutsAt (cuts : CutsAt (words (t :: ts)) (n + 1)) : width t ≤ n + 1 := by
  obtain narrow | wide := t.words_cases
  · rw [← t.length_words, narrow]
    exact Nat.le_add_left 1 n
  · rw [← t.length_words, wide]
    cases n with
    | zero =>
      -- The cut would be in front of the second half.
      have second := cuts ⟨t, true⟩ (by rw [words_cons, wide]; rfl)
      cases second
    | succ n => exact Nat.le_add_left 2 n

theorem cutsAt_iff : n ≤ total width ts ∧ CutsAt (words ts) n ↔
    ∃ us vs, ts = us ++ vs ∧ total width us = n := by
  constructor
  · rintro ⟨inside, cuts⟩
    induction ts generalizing n with
    | nil => exact ⟨[], [], rfl, (Nat.le_zero.mp inside).symm⟩
    | cons t ts ih =>
      cases n with
      | zero => exact ⟨[], t :: ts, rfl, rfl⟩
      | succ n =>
        obtain ⟨m, size⟩ := Nat.exists_eq_add_of_le (width_le_of_cutsAt cuts)
        have inside' : m ≤ total width ts := by
          rw [total_cons] at inside
          omega
        have cuts' : CutsAt (words ts) m := (cutsAt_append [t] ts m).mp (by rwa [size] at cuts)
        obtain ⟨us, vs, rfl, front⟩ := ih inside' cuts'
        exact ⟨t :: us, vs, rfl, by rw [total_cons, front, size]⟩
  · rintro ⟨us, vs, rfl, rfl⟩
    exact ⟨by simp, (cutsAt_append us vs 0).mpr (cutsAt_zero vs)⟩

def Groups (bs : List Nat) (gs : List (List VType)) : Prop :=
  List.Forall₂ (fun b us => total width us = b) bs gs

variable {bs : List Nat} {gs : List (List VType)}

/-- All cuts between blocks are between values just when the values on top come in groups that take up
the blocks. -/
theorem cuts_iff_groups :
    total id bs ≤ total width ts ∧ (∀ n ∈ Shuffle.ends bs, CutsAt (words ts) n) ↔
    ∃ gs vs, Groups bs gs ∧ ts = gs.flatten ++ vs := by
  induction bs generalizing ts with
  | nil =>
    simp only [total_nil, Nat.zero_le, Shuffle.ends, List.not_mem_nil, false_implies, implies_true,
      and_self, true_iff]
    exact ⟨[], ts, .nil, rfl⟩
  | cons b bs ih =>
    simp only [total_cons, Shuffle.ends, List.forall_mem_cons, List.forall_mem_map]
    constructor
    · rintro ⟨inside, first, others⟩
      obtain ⟨us, vs, rfl, rfl⟩ := cutsAt_iff.mp ⟨Nat.le_of_add_right_le inside, first⟩
      have inside' : total id bs ≤ total width vs := by
        rw [total_append] at inside
        exact Nat.add_le_add_iff_left.mp inside
      obtain ⟨gs, ws, groups, rfl⟩ :=
        ih.mp ⟨inside', fun n member => (cutsAt_append us vs n).mp (others n member)⟩
      exact ⟨us :: gs, ws, .cons rfl groups, by simp⟩
    · rintro ⟨_, vs, groups, rfl⟩
      cases groups with
      | @cons _ us _ gs size groups =>
        obtain ⟨inside, others⟩ := ih.mpr ⟨gs, vs, groups, rfl⟩
        subst size
        rw [List.flatten_cons, List.append_assoc]
        refine ⟨?_, (cutsAt_append us _ 0).mpr (cutsAt_zero _), fun n member =>
          (cutsAt_append us _ n).mpr (others n member)⟩
        rw [total_append]
        exact Nat.add_le_add_left inside _

theorem split_words (groups : Groups bs gs) (vs : List VType) :
    Shuffle.split bs (words (gs.flatten ++ vs)) = gs.map words ∧
    (words (gs.flatten ++ vs)).drop (total id bs) = words vs := by
  induction groups with
  | nil => exact ⟨rfl, rfl⟩
  | @cons b us bs gs size _ ih =>
    have length : (words us).length = b := (length_words us).trans size
    have joined : words ((us :: gs).flatten ++ vs) = words us ++ words (gs.flatten ++ vs) := by simp
    rw [joined, Shuffle.split, List.take_left' length, List.drop_left' length, ih.1, List.map_cons,
      total_cons, ← List.drop_drop]
    refine ⟨rfl, ?_⟩
    rw [id, List.drop_left' length, ih.2]

/-- It makes no difference whether blocks are changed before or after they are put one behind the
other, where the change goes through lists piece by piece. -/
theorem Shuffle.gather_map {α β : Type} {change : List α → List β} (nil : change [] = [])
    (append : ∀ xs ys, change (xs ++ ys) = change xs ++ change ys) (order : List Nat)
    (gs : List (List α)) : gather order (gs.map change) = change (gather order gs) := by
  induction order with
  | nil => exact nil.symm
  | cons k order ih =>
    have block : (gs.map change).getD k [] = change (gs.getD k []) := by
      rw [← nil, List.getD_map]
    simp only [gather, List.flatMap_cons, append] at ih ⊢
    rw [block, ih]

theorem rearranged_words {s : Shuffle} (groups : Groups s.blocks gs) (vs : List VType) :
    s.rearranged (words (gs.flatten ++ vs)) = words (Shuffle.gather s.order gs ++ vs) := by
  obtain ⟨blocks, others⟩ := split_words groups vs
  rw [Shuffle.rearranged, Shuffle.depth, blocks, others,
    Shuffle.gather_map words_nil words_append, words_append]

namespace Shuffle

variable {α β : Type} {s : Shuffle}

def fillings : Nat → List (List Nat)
  | 0 => [[]]
  | 1 => [[1]]
  | n + 2 => (fillings n).map (2 :: ·) ++ (fillings (n + 1)).map (1 :: ·)

def ways : List Nat → List (List (List Nat))
  | [] => [[]]
  | b :: bs => (fillings b).flatMap fun ws => (ways bs).map (ws :: ·)

def form (s : Shuffle) (wss : List (List Nat)) : Frame.Form :=
  ⟨wss.flatten, gather s.order (split (wss.map List.length) (List.range wss.flatten.length))⟩

theorem total_of_mem_fillings {ws : List Nat} (member : ws ∈ fillings n) : total id ws = n := by
  fun_induction fillings n generalizing ws with
  | case1 | case2 =>
    obtain rfl := List.mem_singleton.mp member
    rfl
  | case3 n ih ih' =>
    obtain wide | narrow := List.mem_append.mp member
    · obtain ⟨vs, filling, rfl⟩ := List.mem_map.mp wide
      rw [total_cons, ih filling, id, Nat.add_comm]
    · obtain ⟨vs, filling, rfl⟩ := List.mem_map.mp narrow
      rw [total_cons, ih' filling, id, Nat.add_comm]

theorem narrow_mem_fillings {ws : List Nat} (member : ws ∈ fillings n) :
    1 :: ws ∈ fillings (n + 1) := by
  cases n with
  | zero =>
    obtain rfl := List.mem_singleton.mp member
    exact List.mem_singleton_self _
  | succ n => exact List.mem_append_right _ (List.mem_map_of_mem member)

theorem widths_mem_fillings (us : List VType) : us.map width ∈ fillings (total width us) := by
  induction us with
  | nil => exact List.mem_singleton_self _
  | cons t us ih =>
    rw [List.map_cons, total_cons, Nat.add_comm]
    obtain narrow | wide := t.width_eq
    · rw [narrow]
      exact narrow_mem_fillings ih
    · rw [wide]
      exact List.mem_append_left _ (List.mem_map_of_mem ih)

theorem mem_ways {bs : List Nat} {wss : List (List Nat)} :
    wss ∈ ways bs ↔ List.Forall₂ (fun b ws => ws ∈ fillings b) bs wss := by
  induction bs generalizing wss with
  | nil => simp [ways]
  | cons b bs ih =>
    simp only [ways, List.mem_flatMap, List.mem_map, ih, List.forall₂_cons_left_iff]
    grind

theorem forms_eq {op : Opcode} (listed : op.shuffle? = some s) :
    Frame.forms op = (ways s.blocks).map s.form := by
  unfold Opcode.shuffle? at listed
  split at listed <;> cases listed <;> rfl

theorem split_flatten (xss : List (List α)) : split (xss.map List.length) xss.flatten = xss := by
  induction xss with
  | nil => rfl
  | cons xs xss ih =>
    simp only [List.map_cons, List.flatten_cons, split, List.take_left, List.drop_left, ih]

theorem total_lengths (xss : List (List α)) :
    total id (xss.map List.length) = xss.flatten.length := by
  induction xss with
  | nil => rfl
  | cons xs xss ih => rw [List.map_cons, total_cons, ih, List.flatten_cons, List.length_append, id]

theorem flatten_split {bs : List Nat} {xs : List α} (size : total id bs = xs.length) :
    (split bs xs).flatten = xs := by
  induction bs generalizing xs with
  | nil => exact (List.length_eq_zero_iff.mp size.symm).symm
  | cons b bs ih =>
    have rest : total id bs = (xs.drop b).length := by
      rw [List.length_drop, ← size, total_cons]
      exact (Nat.add_sub_cancel_left ..).symm
    rw [split, List.flatten_cons, ih rest, List.take_append_drop]

theorem split_map (f : α → β) (bs : List Nat) (xs : List α) :
    split bs (xs.map f) = (split bs xs).map (List.map f) := by
  induction bs generalizing xs with
  | nil => rfl
  | cons b bs ih => rw [split, split, List.map_cons, ← List.map_take, ← List.map_drop, ih]

theorem gather_numbers (s : Shuffle) (bs : List Nat) (xs : List α) :
    (gather s.order (split bs (List.range xs.length))).filterMap (xs[·]?) =
      gather s.order (split bs xs) := by
  have numbers : List.range xs.length = (List.finRange xs.length).map Fin.val := by simp
  have entries : xs = (List.finRange xs.length).map xs.get := by simp
  have moved {γ : Type} (f : Fin xs.length → γ) :
      gather s.order (split bs ((List.finRange xs.length).map f)) =
        (gather s.order (split bs (List.finRange xs.length))).map f := by
    rw [split_map, gather_map List.map_nil fun _ _ => List.map_append]
  conv => rhs; rw [entries]
  rw [numbers, moved, moved, List.filterMap_map]
  simp

end Shuffle

namespace Frame

variable {op : Opcode} {s : Shuffle} {d : Trade}

theorem moves_iff (listed : op.shuffle? = some s) : Moves op d ↔ d.change = .none ∧
    ∃ gs, Groups s.blocks gs ∧ d.taken = gs.flatten ∧ d.pushed = Shuffle.gather s.order gs := by
  obtain ⟨taken, change, pushed⟩ := d
  refine and_congr_right fun _ => ?_
  simp only [Shuffle.forms_eq listed, List.mem_map, exists_exists_and_eq_and]
  constructor
  · rintro ⟨wss, way, widths, rfl⟩
    have widths' : taken.map width = wss.flatten := widths
    have length : wss.flatten.length = taken.length := by
      rw [← widths', List.length_map]
    have size : total id (wss.map List.length) = taken.length :=
      (Shuffle.total_lengths wss).trans length
    have groups : (Shuffle.split (wss.map List.length) taken).map (List.map width) = wss := by
      rw [← Shuffle.split_map, widths', Shuffle.split_flatten]
    refine ⟨Shuffle.split (wss.map List.length) taken, ?_, (Shuffle.flatten_split size).symm, ?_⟩
    · rw [← groups, Shuffle.mem_ways, List.forall₂_map_right_iff] at way
      exact way.imp fun b us filling =>
        (total_map width id us).symm.trans (Shuffle.total_of_mem_fillings filling)
    · rw [Shuffle.form, length, Shuffle.gather_numbers]
  · rintro ⟨gs, groups, rfl, rfl⟩
    have lengths : (gs.map (List.map width)).map List.length = gs.map List.length := by simp
    refine ⟨gs.map (List.map width), ?_, List.map_flatten, ?_⟩
    · rw [Shuffle.mem_ways, List.forall₂_map_right_iff]
      exact groups.imp fun b us size => size ▸ Shuffle.widths_mem_fillings us
    · rw [Shuffle.form, lengths, ← List.map_flatten, List.length_map, Shuffle.gather_numbers,
        Shuffle.split_flatten]

variable {τ : Type} {c : MethodContext} {offset : Nat} {f g : Frame}

theorem moved_iff (listed : op.shuffle? = some s) :
    after (c.effect offset (.plain op : Instruction τ)) f = .ok g ↔
      ∃ d, Moves op d ∧ d.Made f g := by
  have some : ∃ form, form ∈ forms op := by
    unfold Opcode.shuffle? at listed
    split at listed <;> first | exact ⟨_, List.mem_cons_self⟩ | cases listed
  obtain ⟨form, member⟩ := some
  rw [MethodContext.after_eq_ok_iff]
  exact (MethodContext.trades_moves member).iff f g

theorem moved_iff_groups (listed : op.shuffle? = some s) :
    after (c.effect offset (.plain op : Instruction τ)) f = .ok g ↔
      ∃ gs us, Groups s.blocks gs ∧ f.stack = gs.flatten ++ us ∧
        g = f.withStack (Shuffle.gather s.order gs ++ us) ∧
        (Shuffle.gather s.order gs ≠ [] → g.height ≤ g.maxStack.toNat) := by
  simp only [moved_iff listed, moves_iff listed]
  constructor
  · rintro ⟨⟨_, _, _⟩, ⟨rfl, gs, groups, rfl, rfl⟩, h, rfl, rfl, room⟩
    exact ⟨gs, h.stack, groups, stack_pile .., rfl, room⟩
  · rintro ⟨gs, us, groups, stack, rfl, room⟩
    refine ⟨⟨gs.flatten, .none, Shuffle.gather s.order gs⟩, ⟨rfl, gs, groups, rfl, rfl⟩,
      f.withStack us, eq_pile _ stack, ?_, room⟩
    rw [pile, Change.apply, withStack_withStack, stack_withStack]

/-- An opcode that moves values around succeeds on a frame just when there are enough words on the
stack, no cut goes through a value, and there is room for the words that are put back; and then these
are the words of the stack, and nothing else has changed. -/
theorem shuffles_words (c : MethodContext) (offset : Nat) (listed : op.shuffle? = some s)
    (fits : f.height ≤ f.maxStack.toNat) :
    ((∃ g, after (c.effect offset (.plain op : Instruction τ)) f = .ok g) ↔
      s.depth ≤ (words f.stack).length ∧ (∀ n ∈ s.cuts, CutsAt (words f.stack) n) ∧
        (s.rearranged (words f.stack)).length ≤ f.maxStack.toNat) ∧
    ∀ g, after (c.effect offset (.plain op : Instruction τ)) f = .ok g →
      words g.stack = s.rearranged (words f.stack) ∧ g.locals = f.locals ∧
        g.maxStack = f.maxStack := by
  simp only [moved_iff_groups listed]
  refine ⟨?_, ?_⟩
  · rw [length_words, Shuffle.depth, Shuffle.cuts, ← and_assoc, cuts_iff_groups]
    constructor
    · rintro ⟨_, gs, us, groups, stack, rfl, room⟩
      rw [height_eq, stack_withStack] at room
      refine ⟨⟨gs, us, groups, stack⟩, ?_⟩
      rw [stack, rearranged_words groups, length_words]
      by_cases none : Shuffle.gather s.order gs = []
      · have less : total width us ≤ f.height := by
          rw [height_eq, stack, total_append]
          exact Nat.le_add_left ..
        rw [none, List.nil_append]
        exact Nat.le_trans less fits
      · exact room none
    · rintro ⟨⟨gs, us, groups, stack⟩, room⟩
      rw [stack, rearranged_words groups, length_words] at room
      refine ⟨_, gs, us, groups, stack, rfl, fun _ => ?_⟩
      rwa [height_eq, stack_withStack]
  · rintro _ ⟨gs, us, groups, stack, rfl, _⟩
    rw [stack, rearranged_words groups, stack_withStack]
    exact ⟨rfl, rfl, rfl⟩

theorem shuffles_words_below_wide :
    Opcode.dupX2.shuffle? = some ⟨[1, 2], [0, 1, 0]⟩ ∧
    height (.ofStack #[.float] [.int, .long] 4) ≤ (4 : UInt16).toNat ∧
    ∃ g, after (MethodContext.effect ⟨.empty, "a/B", ⟨[], none⟩, false⟩ 0
        (.plain .dupX2 : Instruction Handle)) (.ofStack #[.float] [.int, .long] 4) = .ok g ∧
      words g.stack = [⟨.int, false⟩, ⟨.long, false⟩, ⟨.long, true⟩, ⟨.int, false⟩] ∧
      g.locals = #[.float] ∧ g.maxStack = 4 := by
  have listed : Opcode.dupX2.shuffle? = some ⟨[1, 2], [0, 1, 0]⟩ := by decide +kernel
  have fits : height (.ofStack #[.float] [.int, .long] 4) ≤ (4 : UInt16).toNat := by decide
  obtain ⟨succeeds, result⟩ := shuffles_words (τ := Handle) ⟨.empty, "a/B", ⟨[], none⟩, false⟩ 0
    listed fits
  obtain ⟨g, done⟩ := succeeds.mpr (by decide +kernel)
  exact ⟨listed, fits, g, done, result g done⟩

example : Option.map (·.rearranged [1, 2, 3]) (Opcode.shuffle? .dupTwoX1) = some [1, 2, 3, 1, 2] := by
  decide +kernel

end Frame

end JvmClass
