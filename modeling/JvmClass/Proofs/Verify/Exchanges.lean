import JvmClass.Proofs.Verify.Construction

/-! What steps do to a frame, said as what they take off the stack and what they put on it.  For each
step there is one equivalence, from left to right to see what has happened, and from right to left
to see that it can happen. -/

namespace JvmClass

theorem seq_eq_ok_iff {ε σ α β : Type} {step : EStateM ε σ α} {next : α → EStateM ε σ β} {s u : σ}
    {b : β} : (step >>= next) s = .ok b u ↔ ∃ a t, step s = .ok a t ∧ next a t = .ok b u :=
  ⟨run_bind_eq_ok, fun ⟨_, _, first, second⟩ => (bind_of_ok first).trans second⟩

theorem then_eq_ok_iff {ε σ β : Type} {step : EStateM ε σ Unit} {next : EStateM ε σ β} {s u : σ}
    {b : β} : (step >>= fun _ => next) s = .ok b u ↔ ∃ t, step s = .ok () t ∧ next t = .ok b u :=
  seq_eq_ok_iff.trans ⟨fun ⟨(), t, both⟩ => ⟨t, both⟩, fun ⟨t, both⟩ => ⟨(), t, both⟩⟩

theorem discard_eq_ok_iff {ε σ α : Type} {step : EStateM ε σ α} {s t : σ} :
    (discard step : EStateM ε σ Unit) s = .ok () t ↔ ∃ a, step s = .ok a t := by
  change (step >>= fun _ => pure ()) s = .ok () t ↔ _
  simp [seq_eq_ok_iff, pure, EStateM.pure]

theorem return_eq_ok_iff {ε σ α : Type} {a b : α} {s t : σ} :
    (pure a : EStateM ε σ α) s = .ok b t ↔ b = a ∧ s = t := by
  simp [pure, EStateM.pure, eq_comm]

theorem throw_ne_ok {ε σ α : Type} {e : ε} {a : α} {s t : σ} :
    (throw e : EStateM ε σ α) s ≠ .ok a t := nofun

namespace VType

def Initialized (t : VType) : Prop := t.isReference = true ∧ t.isUninitialized = false

instance (t : VType) : Decidable t.Initialized := inferInstanceAs (Decidable (_ ∧ _))

def Fits (t : VType) : ValueKind → Prop
  | .reference => t.Initialized
  | k => t.isAssignable (ofKind k) = true

theorem width_eq (t : VType) : Width.width t = 1 ∨ Width.width t = 2 := by
  cases t <;> simp [Width.width]

end VType

namespace Frame

open Width (width)

variable {α : Type} {f g h : Frame} {t u expected : VType} {ts us : List VType}

def pile (ts : List VType) (f : Frame) : Frame := f.withStack (ts ++ f.stack)

@[simp] theorem pile_nil (f : Frame) : pile [] f = f := f.withStack_stack

@[simp] theorem pile_pile (ts us : List VType) (f : Frame) :
    pile ts (pile us f) = pile (ts ++ us) f := by
  simp [pile]

@[simp] theorem maxStack_pile (ts : List VType) (f : Frame) :
    (pile ts f).maxStack = f.maxStack := rfl

@[simp] theorem stack_pile (ts : List VType) (f : Frame) :
    (pile ts f).stack = ts ++ f.stack := stack_withStack ..

@[simp] theorem height_pile (ts : List VType) (f : Frame) :
    (pile ts f).height = total width ts + f.height := by
  rw [height_eq, stack_pile, total_append, height_eq]

theorem eq_pile (ts : List VType) (stack : f.stack = ts ++ us) : f = pile ts (f.withStack us) := by
  rw [pile, withStack_withStack, stack_withStack, ← stack, withStack_stack]

/-- What happens to a frame between taking values off the stack and putting others on. -/
inductive Change where
  | none
  /-- A value is written to a local variable. -/
  | write (slot : Nat) (t : VType)
  /-- An object of a class takes the place of a type. -/
  | retype (old : VType) (n : String)

def Change.apply : Change → Frame → Frame
  | .none, f => f
  | .write slot t, f => { f with locals := written f.locals slot t }
  | .retype old n, f => f.retype old (.object n)

/-- Values that are taken off the stack and values that are put on it, the topmost first, and a
change of what is left in between. -/
structure Trade where
  taken : List VType
  change : Change
  pushed : List VType

def Trade.Made (d : Trade) (f g : Frame) : Prop :=
  ∃ h, f = pile d.taken h ∧ g = pile d.pushed (d.change.apply h) ∧
    (d.pushed ≠ [] → g.height ≤ g.maxStack.toNat)

theorem made_nil {change : Change} : Trade.Made ⟨[], change, us⟩ f g ↔
    g = pile us (change.apply f) ∧ (us ≠ [] → g.height ≤ g.maxStack.toNat) := by
  simp [Trade.Made]

def Pops (step : Step VType) (C : VType → Prop) : Prop :=
  ∀ f t g, step f = .ok t g ↔ C t ∧ f = pile [t] g

/-- A step takes values off the stack.  Of two ways to do so, none is the beginning of the other. -/
structure Drops (step : Step Unit) (C : List VType → Prop) : Prop where
  iff : ∀ f g, step f = .ok () g ↔ ∃ ts, C ts ∧ f = pile ts g
  sharp : ∀ ts us, C ts → C us → ts <+: us → ts = us

def Finds (step : Step α) (C : α → Prop) : Prop :=
  ∀ f a g, step f = .ok a g ↔ C a ∧ f = g

/-- A step makes a trade, which may depend on the local variables.  What one trade takes is never only
the beginning of what another one takes, so what is taken has to be there. -/
structure Trades (step : Step Unit) (R : Array VType → Trade → Prop) : Prop where
  iff : ∀ f g, step f = .ok () g ↔ ∃ d, R f.locals d ∧ d.Made f g
  sharp : ∀ ls d d', R ls d → R ls d' → d.taken <+: d'.taken → d.taken = d'.taken

theorem pops_pop : Pops pop fun _ => True := by
  intro f t g
  rw [true_and]
  exact pop_eq_ok_iff

theorem pops_checked {P : VType → Prop} [DecidablePred P] {fault : VType → FlowFault} :
    Pops (do let t ← pop; if P t then return t else throw (fault t)) P := by
  intro f t g
  simp only [seq_eq_ok_iff, pops_pop _ _ _, true_and]
  constructor
  · rintro ⟨u, h, rfl, done⟩
    split at done
    · obtain ⟨rfl, rfl⟩ := return_eq_ok_iff.mp done
      exact ⟨‹_›, rfl⟩
    · cases done
  · rintro ⟨passes, rfl⟩
    exact ⟨t, g, rfl, by rw [if_pos passes]; rfl⟩

theorem pops_popWidth (n : Nat) : Pops (popWidth n) fun t => width t = n := pops_checked

theorem pops_popExpecting (expected : VType) :
    Pops (popExpecting expected) fun t => t.isAssignable expected = true := pops_checked

theorem pops_popAnyReference : Pops popAnyReference fun t => t.isReference = true := pops_checked

theorem pops_popReference : Pops popReference VType.Initialized := by
  have order (t : VType) : (if t.isUninitialized then throw .uninitializedObject
      else if t.isReference then return t else throw (.incompatible (.object Name.object) t) :
        Step VType) = if t.Initialized then return t else throw
          (if t.isUninitialized then .uninitializedObject
            else .incompatible (.object Name.object) t) := by
    cases t <;> rfl
  unfold popReference
  simp only [order]
  exact pops_checked

theorem pops_popKind (k : ValueKind) : Pops (popKind k) fun t => t.Fits k := by
  cases k with
  | reference => exact pops_popReference
  | _ => exact pops_popExpecting _

theorem Pops.drops {step : Step VType} {C : VType → Prop} (pops : Pops step C) :
    Drops (discard step) fun ts => ∃ t, ts = [t] ∧ C t where
  iff f g := by
    simp only [discard_eq_ok_iff, pops f _ g]
    constructor
    · rintro ⟨t, holds, rfl⟩
      exact ⟨[t], ⟨t, rfl, holds⟩, rfl⟩
    · rintro ⟨_, ⟨t, rfl, holds⟩, rfl⟩
      exact ⟨t, holds, rfl⟩
  sharp := by
    rintro _ _ ⟨t, rfl, _⟩ ⟨u, rfl, _⟩ front
    exact front.eq_of_length rfl

theorem drops_forM {step : α → Step VType} {R : VType → α → Prop}
    (pops : ∀ a, Pops (step a) (R · a)) (as : List α) :
    Drops (as.forM fun a => discard (step a)) fun ts => List.Forall₂ R ts as where
  iff f g := by
    induction as generalizing f with
    | nil => simp [return_eq_ok_iff]
    | cons a as ih =>
      change (discard (step a) >>= fun _ => as.forM fun a => discard (step a)) f = .ok () g ↔ _
      simp only [then_eq_ok_iff, (pops a).drops.iff _ _, ih _, List.forall₂_cons_right_iff]
      constructor
      · rintro ⟨h, ⟨_, ⟨t, rfl, first⟩, rfl⟩, ts, others, rfl⟩
        exact ⟨t :: ts, ⟨t, ts, first, others, rfl⟩, pile_pile ..⟩
      · rintro ⟨_, ⟨t, ts, first, others, rfl⟩, rfl⟩
        exact ⟨pile ts g, ⟨[t], ⟨t, rfl, first⟩, (pile_pile [t] ts g).symm⟩, ts, others, rfl⟩
  sharp _ _ fits fits' front := front.eq_of_length (fits.length_eq.trans fits'.length_eq.symm)

theorem drops_popKinds (ks : List ValueKind) :
    Drops (popKinds ks) fun ts => List.Forall₂ VType.Fits ts ks.reverse :=
  drops_forM pops_popKind ks.reverse

def Supplies (parameters : List FieldType) (ts : List VType) : Prop :=
  List.Forall₂ (fun t p => t.isAssignable (.ofFieldType p) = true) ts parameters.reverse

theorem drops_popArguments (parameters : List FieldType) :
    Drops (popArguments parameters) (Supplies parameters) :=
  drops_forM (R := fun t p => t.isAssignable (.ofFieldType p) = true)
    (fun p => pops_popExpecting (.ofFieldType p)) parameters.reverse

section Trading

variable {step step' : Step Unit} {next : VType → Step Unit} {R S : Array VType → Trade → Prop}

theorem Trades.congr (trades : Trades step R) (same : ∀ ls d, R ls d ↔ S ls d) :
    Trades step S where
  iff f g := by simp only [trades.iff f g, same]
  sharp ls d d' related related' :=
    trades.sharp ls d d' ((same ls d).mpr related) ((same ls d').mpr related')

theorem Trades.ne_ok_of_lt {d : Trade} {k : Nat} (trades : Trades step R) (related : R f.locals d)
    (made : d.Made f g) (taken : k < d.taken.length) (g' : Frame) :
    step (f.withStack (f.stack.take k)) ≠ .ok () g' := by
  intro done
  obtain ⟨d', related', h', shorter, _⟩ := (trades.iff _ g').mp done
  obtain ⟨h, rfl, _⟩ := made
  have joined : d.taken.take k = d'.taken ++ h'.stack := by
    have stack := congrArg Frame.stack shorter
    rwa [stack_withStack, stack_pile, stack_pile,
      List.take_append_of_le_length (Nat.le_of_lt taken)] at stack
  have front : d'.taken <+: d.taken :=
    (joined ▸ List.prefix_append d'.taken h'.stack).trans (List.take_prefix k d.taken)
  have same := congrArg List.length (trades.sharp _ d' d related' related front)
  have short := congrArg List.length joined
  rw [List.length_take, List.length_append] at short
  omega

theorem trades_only {d : Trade} {P : Array VType → Prop}
    (iff : ∀ f g, step f = .ok () g ↔ P f.locals ∧ d.Made f g) :
    Trades step fun ls d' => d' = d ∧ P ls where
  iff f g := by simp only [iff f g, and_assoc, exists_eq_left]
  sharp := by
    rintro _ _ _ ⟨rfl, _⟩ ⟨rfl, _⟩ _
    rfl

theorem trades_always {d : Trade} (iff : ∀ f g, step f = .ok () g ↔ d.Made f g) :
    Trades step fun _ d' => d' = d where
  iff f g := by simp only [iff f g, exists_eq_left]
  sharp := by
    rintro _ _ _ rfl rfl _
    rfl

theorem trades_nothing : Trades (pure ()) fun _ d => d = ⟨[], .none, []⟩ := by
  refine trades_always fun f g => ?_
  simp [return_eq_ok_iff, made_nil, Change.apply, eq_comm]

theorem trades_throw (e : FlowFault) : Trades (throw e) fun _ _ => False where
  iff f g := by simp [throw_ne_ok]
  sharp _ _ _ := False.elim

theorem trades_push (t : VType) : Trades (push t) fun _ d => d = ⟨[], .none, [t]⟩ := by
  refine trades_always fun f g => ?_
  simp only [push_eq_ok_iff, made_nil, Change.apply]
  constructor
  · rintro ⟨room, same⟩
    obtain rfl : g = pile [t] f := same
    exact ⟨rfl, fun _ => by simpa [Nat.add_comm] using room⟩
  · rintro ⟨rfl, room⟩
    exact ⟨by simpa [Nat.add_comm] using room (List.cons_ne_nil _ _), rfl⟩

theorem trades_pushAll (us : List VType) :
    Trades (pushAll us) fun _ d => d = ⟨[], .none, us.reverse⟩ := by
  induction us with
  | nil => exact trades_nothing
  | cons u us ih =>
    refine trades_always fun f g => ?_
    simp only [pushAll, then_eq_ok_iff, (trades_push u).iff _ _, ih.iff _ _, exists_eq_left, made_nil,
      Change.apply]
    constructor
    · rintro ⟨_, ⟨rfl, room⟩, rfl, more⟩
      refine ⟨by simp, fun _ => ?_⟩
      cases us with
      | nil =>
        rw [List.reverse_nil, pile_nil]
        exact room (List.cons_ne_nil _ _)
      | cons => exact more (by simp)
    · rintro ⟨rfl, room⟩
      have whole := room (by simp)
      refine ⟨_, ⟨rfl, fun _ => ?_⟩, by simp, fun _ => whole⟩
      simp only [height_pile, List.reverse_cons, total_append, maxStack_pile] at whole ⊢
      omega

theorem trades_store (slot : UInt16) (t : VType) : Trades (store slot t) fun ls d =>
    d = ⟨[], .write slot.toNat t, []⟩ ∧ slot.toNat + width t ≤ ls.size := by
  refine trades_only (P := fun ls => slot.toNat + width t ≤ ls.size) ?_
  rintro ⟨ls, stack, maxStack⟩ g
  unfold store
  by_cases outside : slot.toNat + width t > ls.size
  · simp [outside, Nat.not_le_of_lt outside]
  · simp [outside, Nat.le_of_not_lt outside, made_nil, Change.apply, eq_comm]

theorem trades_retype (old : VType) (n : String) :
    Trades (modify (retype old (.object n))) fun _ d => d = ⟨[], .retype old n, []⟩ := by
  refine trades_always fun f g => ?_
  change EStateM.Result.ok () (f.retype old (.object n)) = .ok () g ↔ _
  simp [made_nil, Change.apply, eq_comm]

theorem Pops.trades_known {step : Step VType} {C : VType → Prop}
    {Q : VType → Array VType → Trade → Prop} (pops : Pops step C)
    (more : ∀ t, C t → Trades (next t) (Q t)) : Trades (step >>= next) fun ls d =>
      ∃ t ts, d.taken = t :: ts ∧ C t ∧ Q t ls { d with taken := ts } where
  iff f g := by
    simp only [seq_eq_ok_iff, pops f]
    constructor
    · rintro ⟨t, _, ⟨holds, rfl⟩, done⟩
      obtain ⟨⟨ts, change, us⟩, related, h, rfl, made⟩ := ((more t holds).iff _ g).mp done
      exact ⟨⟨t :: ts, change, us⟩, ⟨t, ts, rfl, holds, related⟩, h, pile_pile .., made⟩
    · rintro ⟨⟨_, change, us⟩, ⟨t, ts, rfl, holds, related⟩, h, rfl, made⟩
      have done := ((more t holds).iff (pile ts h) g).mpr ⟨⟨ts, change, us⟩, related, h, rfl, made⟩
      exact ⟨t, pile ts h, ⟨holds, (pile_pile [t] ts h).symm⟩, done⟩
  sharp := by
    rintro ls d d' ⟨t, ts, taken, holds, related⟩ ⟨u, us, taken', _, related'⟩ front
    rw [taken, taken'] at front ⊢
    obtain ⟨rfl, others⟩ := List.cons_prefix_cons.mp front
    exact congrArg _ ((more t holds).sharp ls _ _ related related' others)

theorem Pops.trades {step : Step VType} {C : VType → Prop} {Q : VType → Array VType → Trade → Prop}
    (pops : Pops step C) (more : ∀ t, Trades (next t) (Q t)) :
    Trades (step >>= next) fun ls d =>
      ∃ t ts, d.taken = t :: ts ∧ C t ∧ Q t ls { d with taken := ts } :=
  pops.trades_known fun t _ => more t

theorem Drops.trades {C : List VType → Prop} (drops : Drops step C) (more : Trades step' R) :
    Trades (step >>= fun _ => step') fun ls d =>
      ∃ ts us, d.taken = ts ++ us ∧ C ts ∧ R ls { d with taken := us } where
  iff f g := by
    simp only [then_eq_ok_iff, drops.iff f, more.iff _ _]
    constructor
    · rintro ⟨_, ⟨ts, holds, rfl⟩, ⟨us, change, vs⟩, related, h, rfl, made⟩
      exact ⟨⟨ts ++ us, change, vs⟩, ⟨ts, us, rfl, holds, related⟩, h, pile_pile .., made⟩
    · rintro ⟨⟨_, change, vs⟩, ⟨ts, us, rfl, holds, related⟩, h, rfl, made⟩
      exact ⟨pile us h, ⟨ts, holds, (pile_pile ts us h).symm⟩, ⟨us, change, vs⟩, related, h, rfl,
        made⟩
  sharp := by
    rintro ls d d' ⟨ts, us, taken, holds, related⟩ ⟨ts', us', taken', holds', related'⟩ front
    rw [taken, taken'] at front ⊢
    obtain rfl : ts = ts' := by
      have first := (List.prefix_append ts us).trans front
      obtain shorter | longer := List.prefix_or_prefix_of_prefix first (List.prefix_append ts' us')
      · exact drops.sharp ts ts' holds holds' shorter
      · exact (drops.sharp ts' ts holds' holds longer).symm
    have others := (List.prefix_append_right_inj ts).mp front
    exact congrArg _ (more.sharp ls _ _ related related' others)

theorem Pops.discard_trades {step : Step VType} {C : VType → Prop} (pops : Pops step C)
    (more : Trades step' R) : Trades (do discard step; step') fun ls d =>
      ∃ t ts, d.taken = t :: ts ∧ C t ∧ R ls { d with taken := ts } := by
  refine (pops.drops.trades more).congr fun ls d => ?_
  constructor
  · rintro ⟨_, us, taken, ⟨t, rfl, holds⟩, related⟩
    exact ⟨t, us, taken, holds, related⟩
  · rintro ⟨t, us, taken, holds, related⟩
    exact ⟨[t], us, taken, ⟨t, rfl, holds⟩, related⟩

theorem Drops.trades_only {C : List VType → Prop} (drops : Drops step C) :
    Trades step fun _ d => ∃ ts, d = ⟨ts, .none, []⟩ ∧ C ts where
  iff f g := by
    simp only [drops.iff f]
    constructor
    · rintro ⟨ts, holds, rfl⟩
      exact ⟨_, ⟨ts, rfl, holds⟩, g, rfl, (pile_nil g).symm, fun some => absurd rfl some⟩
    · rintro ⟨_, ⟨ts, rfl, holds⟩, h, rfl, rfl, _⟩
      exact ⟨ts, holds, congrArg (pile ts) (pile_nil h).symm⟩
  sharp := by
    rintro _ _ _ ⟨ts, rfl, holds⟩ ⟨us, rfl, holds'⟩ front
    exact drops.sharp ts us holds holds' front

theorem Finds.unique {step : Step α} {C : α → Prop} (finds : Finds step C) {a b : α} (holds : C a)
    (holds' : C b) : a = b := by
  have first := (finds (.empty 0 0) a _).mpr ⟨holds, rfl⟩
  have second := (finds (.empty 0 0) b _).mpr ⟨holds', rfl⟩
  cases first.symm.trans second
  rfl

theorem Finds.trades {step : Step α} {next : α → Step Unit} {C : α → Prop}
    {Q : α → Array VType → Trade → Prop} (finds : Finds step C)
    (more : ∀ a, Trades (next a) (Q a)) :
    Trades (step >>= next) fun ls d => ∃ a, C a ∧ Q a ls d where
  iff f g := by
    simp only [seq_eq_ok_iff, finds f, (more _).iff _ _]
    grind
  sharp := by
    rintro ls d d' ⟨a, holds, related⟩ ⟨b, holds', related'⟩ front
    cases finds.unique holds holds'
    exact (more a).sharp ls d d' related related' front

theorem Finds.discard_trades {step : Step α} {C : α → Prop} (finds : Finds step C)
    (more : Trades step' R) : Trades (do discard step; step') fun ls d => (∃ a, C a) ∧ R ls d where
  iff f g := by
    simp only [then_eq_ok_iff, discard_eq_ok_iff, finds f, more.iff _ _]
    grind
  sharp ls d d' related related' := more.sharp ls d d' related.2 related'.2

theorem trades_either {p : Prop} [Decidable p] (first : p → Trades step R)
    (second : ¬ p → Trades step' R) : Trades (if p then step else step') R := by
  split
  · exact first ‹p›
  · exact second ‹¬ p›

theorem trades_ite {p : Prop} [Decidable p] (first : p → Trades step R)
    (second : ¬ p → Trades step' S) :
    Trades (if p then step else step') fun ls d => p ∧ R ls d ∨ ¬ p ∧ S ls d := by
  by_cases holds : p
  · rw [if_pos holds]
    exact (first holds).congr (by simp [holds])
  · rw [if_neg holds]
    exact (second holds).congr (by simp [holds])

end Trading

/-- A form of an opcode that moves values around on the stack: the widths of the values that it
takes, the topmost first, and which of them it puts back, again the topmost first. -/
structure Form where
  widths : List Nat
  order : List Nat

def forms : Opcode → List Form
  | .pop => [⟨[1], []⟩]
  | .popTwo => [⟨[2], []⟩, ⟨[1, 1], []⟩]
  | .dup => [⟨[1], [0, 0]⟩]
  | .dupX1 => [⟨[1, 1], [0, 1, 0]⟩]
  | .dupX2 => [⟨[1, 2], [0, 1, 0]⟩, ⟨[1, 1, 1], [0, 1, 2, 0]⟩]
  | .dupTwo => [⟨[2], [0, 0]⟩, ⟨[1, 1], [0, 1, 0, 1]⟩]
  | .dupTwoX1 => [⟨[2, 1], [0, 1, 0]⟩, ⟨[1, 1, 1], [0, 1, 2, 0, 1]⟩]
  | .dupTwoX2 => [⟨[2, 2], [0, 1, 0]⟩, ⟨[2, 1, 1], [0, 1, 2, 0]⟩, ⟨[1, 1, 2], [0, 1, 2, 0, 1]⟩,
    ⟨[1, 1, 1, 1], [0, 1, 2, 3, 0, 1]⟩]
  | .swap => [⟨[1, 1], [1, 0]⟩]
  | _ => []

def Moves (op : Opcode) (d : Trade) : Prop :=
  d.change = .none ∧ ∃ form ∈ forms op, d.taken.map width = form.widths ∧
    d.pushed = form.order.filterMap (d.taken[·]?)

theorem width_of_ne_one (other : width t ≠ 1) : width t = 2 := by
  have := t.width_eq
  omega

theorem width_of_ne_two (other : width t ≠ 2) : width t = 1 := by
  have := t.width_eq
  omega

section Moving

variable {fs : List Form} {popped : List VType}

/-- After some values have come off the stack, this is the rest of one of these forms. -/
def Completes (fs : List Form) (popped : List VType) (d : Trade) : Prop :=
  d.change = .none ∧ ∃ form ∈ fs, (popped ++ d.taken).map width = form.widths ∧
    d.pushed = form.order.filterMap ((popped ++ d.taken)[·]?)

theorem Pops.completes {step : Step VType} {next : VType → Step Unit} {C : VType → Prop}
    (pops : Pops step C) (listed : ∀ form ∈ fs, popped.map width <+: form.widths →
      ∃ n, form.widths[popped.length]? = some n ∧ ∀ t, width t = n → C t)
    (more : ∀ t, C t → Trades (next t) fun _ => Completes fs (popped ++ [t])) :
    Trades (step >>= next) fun _ => Completes fs popped := by
  refine (pops.trades_known more).congr ?_
  rintro _ ⟨ts, change, us⟩
  constructor
  · rintro ⟨t, ts, rfl, _, unchanged, form, member, widths, pushed⟩
    rw [List.append_assoc] at widths
    simp only [List.append_assoc] at pushed
    exact ⟨unchanged, form, member, widths, pushed⟩
  · rintro ⟨unchanged, form, member, widths, pushed⟩
    rw [List.map_append] at widths
    obtain ⟨n, next, holds⟩ := listed form member ⟨_, widths⟩
    rw [← widths] at next
    cases ts with
    | nil => simp at next
    | cons t ts =>
      refine ⟨t, ts, rfl, holds t (by simpa using next), unchanged, form, member, ?_, ?_⟩
      · simpa using widths
      · simpa using pushed

theorem completes_pushAll {us : List VType} (form : Form) (member : form ∈ fs)
    (widths : popped.map width = form.widths)
    (only : ∀ form' ∈ fs, popped.map width <+: form'.widths → form' = form)
    (pushed : us.reverse = form.order.filterMap (popped[·]?)) :
    Trades (pushAll us) fun _ => Completes fs popped := by
  refine (trades_pushAll us).congr ?_
  rintro _ ⟨ts, change, vs⟩
  constructor
  · intro made
    cases made
    exact ⟨rfl, form, member, by rwa [List.append_nil], by rwa [List.append_nil]⟩
  · rintro ⟨unchanged, form', member', widths', pushed'⟩
    rw [List.map_append] at widths'
    obtain rfl := only form' member' ⟨_, widths'⟩
    obtain rfl : ts = [] := by simpa [widths] using widths'
    obtain rfl : change = .none := unchanged
    obtain rfl : vs = us.reverse := by simpa [pushed] using pushed'
    rfl

theorem trades_pop : Trades (discard (popWidth 1)) fun _ => Moves .pop := by
  change Trades (popWidth 1 >>= fun _ => pushAll []) fun _ => Completes [⟨[1], []⟩] []
  refine (pops_popWidth 1).completes (by simp) fun a first => ?_
  exact completes_pushAll ⟨[1], []⟩ (by simp) (by simp [first]) (by simp) rfl

theorem trades_popTwo : Trades popTwo fun _ => Moves .popTwo := by
  change Trades popTwo fun _ => Completes [⟨[2], []⟩, ⟨[1, 1], []⟩] []
  refine pops_pop.completes (by simp) fun a _ => trades_either (fun first => ?_) fun first => ?_
  · change Trades (popWidth 1 >>= fun _ => pushAll []) _
    refine (pops_popWidth 1).completes (by simp [first]) fun b second => ?_
    exact completes_pushAll ⟨[1, 1], []⟩ (by simp) (by simp [first, second])
      (by simp [first, second]) rfl
  · have first := width_of_ne_one first
    change Trades (pushAll []) _
    exact completes_pushAll ⟨[2], []⟩ (by simp) (by simp [first]) (by simp [first]) rfl

theorem trades_dup : Trades dup fun _ => Moves .dup := by
  change Trades dup fun _ => Completes [⟨[1], [0, 0]⟩] []
  refine (pops_popWidth 1).completes (by simp) fun a first => ?_
  exact completes_pushAll ⟨[1], [0, 0]⟩ (by simp) (by simp [first]) (by simp) rfl

theorem trades_dupX1 : Trades dupX1 fun _ => Moves .dupX1 := by
  change Trades dupX1 fun _ => Completes [⟨[1, 1], [0, 1, 0]⟩] []
  refine (pops_popWidth 1).completes (by simp) fun a first => ?_
  refine (pops_popWidth 1).completes (by simp) fun b second => ?_
  exact completes_pushAll ⟨[1, 1], [0, 1, 0]⟩ (by simp) (by simp [first, second]) (by simp) rfl

theorem trades_dupX2 : Trades dupX2 fun _ => Moves .dupX2 := by
  change Trades dupX2 fun _ => Completes [⟨[1, 2], [0, 1, 0]⟩, ⟨[1, 1, 1], [0, 1, 2, 0]⟩] []
  refine (pops_popWidth 1).completes (by simp) fun a first => ?_
  refine pops_pop.completes (by simp) fun b _ => trades_either (fun second => ?_) fun second => ?_
  · exact completes_pushAll ⟨[1, 2], [0, 1, 0]⟩ (by simp) (by simp [first, second])
      (by simp [second]) rfl
  · have second := width_of_ne_two second
    refine (pops_popWidth 1).completes (by simp [second]) fun c third => ?_
    exact completes_pushAll ⟨[1, 1, 1], [0, 1, 2, 0]⟩ (by simp) (by simp [first, second, third])
      (by simp [second]) rfl

theorem trades_dupTwo : Trades dupTwo fun _ => Moves .dupTwo := by
  change Trades dupTwo fun _ => Completes [⟨[2], [0, 0]⟩, ⟨[1, 1], [0, 1, 0, 1]⟩] []
  refine pops_pop.completes (by simp) fun a _ => trades_either (fun first => ?_) fun first => ?_
  · exact completes_pushAll ⟨[2], [0, 0]⟩ (by simp) (by simp [first]) (by simp [first]) rfl
  · have first := width_of_ne_two first
    refine (pops_popWidth 1).completes (by simp [first]) fun b second => ?_
    exact completes_pushAll ⟨[1, 1], [0, 1, 0, 1]⟩ (by simp) (by simp [first, second])
      (by simp [first]) rfl

theorem trades_dupTwoX1 : Trades dupTwoX1 fun _ => Moves .dupTwoX1 := by
  change Trades dupTwoX1 fun _ =>
    Completes [⟨[2, 1], [0, 1, 0]⟩, ⟨[1, 1, 1], [0, 1, 2, 0, 1]⟩] []
  refine pops_pop.completes (by simp) fun a _ => ?_
  refine (pops_popWidth 1).completes (by simp) fun b second =>
    trades_either (fun first => ?_) fun first => ?_
  · exact completes_pushAll ⟨[2, 1], [0, 1, 0]⟩ (by simp) (by simp [first, second])
      (by simp [first]) rfl
  · have first := width_of_ne_two first
    refine (pops_popWidth 1).completes (by simp [first]) fun c third => ?_
    exact completes_pushAll ⟨[1, 1, 1], [0, 1, 2, 0, 1]⟩ (by simp) (by simp [first, second, third])
      (by simp [first]) rfl

theorem trades_dupTwoX2 : Trades dupTwoX2 fun _ => Moves .dupTwoX2 := by
  change Trades dupTwoX2 fun _ => Completes [⟨[2, 2], [0, 1, 0]⟩, ⟨[2, 1, 1], [0, 1, 2, 0]⟩,
    ⟨[1, 1, 2], [0, 1, 2, 0, 1]⟩, ⟨[1, 1, 1, 1], [0, 1, 2, 3, 0, 1]⟩] []
  refine pops_pop.completes (by simp) fun a _ => trades_either (fun first => ?_) fun first => ?_
  · refine pops_pop.completes (by simp [first]) fun b _ =>
      trades_either (fun second => ?_) fun second => ?_
    · exact completes_pushAll ⟨[2, 2], [0, 1, 0]⟩ (by simp) (by simp [first, second])
        (by simp [first, second]) rfl
    · have second := width_of_ne_two second
      refine (pops_popWidth 1).completes (by simp [first, second]) fun c third => ?_
      exact completes_pushAll ⟨[2, 1, 1], [0, 1, 2, 0]⟩ (by simp) (by simp [first, second, third])
        (by simp [first, second]) rfl
  · have first := width_of_ne_two first
    refine (pops_popWidth 1).completes (by simp [first]) fun b second => ?_
    refine pops_pop.completes (by simp [first, second]) fun c _ =>
      trades_either (fun third => ?_) fun third => ?_
    · exact completes_pushAll ⟨[1, 1, 2], [0, 1, 2, 0, 1]⟩ (by simp)
        (by simp [first, second, third]) (by simp [first, second, third]) rfl
    · have third := width_of_ne_two third
      refine (pops_popWidth 1).completes (by simp [first, second, third]) fun d fourth => ?_
      exact completes_pushAll ⟨[1, 1, 1, 1], [0, 1, 2, 3, 0, 1]⟩ (by simp)
        (by simp [first, second, third, fourth]) (by simp [first, second, third]) rfl

theorem trades_swap : Trades swap fun _ => Moves .swap := by
  change Trades swap fun _ => Completes [⟨[1, 1], [1, 0]⟩] []
  refine (pops_popWidth 1).completes (by simp) fun a first => ?_
  refine (pops_popWidth 1).completes (by simp) fun b second => ?_
  exact completes_pushAll ⟨[1, 1], [1, 0]⟩ (by simp) (by simp [first, second]) (by simp) rfl

end Moving

theorem trades_loadElement (k : ArrayKind) : Trades (loadElement k) fun _ d =>
    ∃ index array t, d = ⟨[index, array], .none, [t]⟩ ∧ index.isAssignable .int = true ∧
      array.Initialized ∧ k.load? array = some t := by
  refine ((pops_popExpecting .int).discard_trades (pops_popReference.trades
    (Q := fun array _ d => ∃ t, d = ⟨[], .none, [t]⟩ ∧ k.load? array = some t) fun array => ?_)).congr ?_
  · cases k.load? array with
    | none => exact (trades_throw _).congr (by simp)
    | some t => exact (trades_push t).congr (by simp)
  · rintro ls ⟨ts, change, us⟩
    simp
    grind

def Stores : ArrayKind → VType → Prop
  | .reference, t => t.Initialized
  | k, t => t.isAssignable k.valueType = true

theorem trades_storeElement (k : ArrayKind) : Trades (storeElement k) fun _ d =>
    ∃ value index array, d = ⟨[value, index, array], .none, []⟩ ∧ Stores k value ∧
      index.isAssignable .int = true ∧ array.Initialized ∧ (k.load? array).isSome = true := by
  have stores (array : VType) : Trades (if (k.load? array).isNone then throw .notArray else pure ())
      fun _ d => d = ⟨[], .none, []⟩ ∧ (k.load? array).isSome = true := by
    cases k.load? array with
    | none => exact (trades_throw _).congr (by simp)
    | some t => exact trades_nothing.congr (by simp)
  obtain ⟨step, pops, same⟩ : ∃ step, Pops step (Stores k) ∧
      storeElement k = (discard step >>= fun _ => discard (popExpecting .int) >>= fun _ =>
        popReference >>= fun array => if (k.load? array).isNone then throw .notArray else pure ()) := by
    cases k with
    | reference => exact ⟨_, pops_popReference, rfl⟩
    | _ => exact ⟨_, pops_popExpecting _, rfl⟩
  rw [same]
  refine (pops.discard_trades ((pops_popExpecting .int).discard_trades
    (pops_popReference.trades stores))).congr ?_
  rintro ls ⟨ts, change, us⟩
  simp
  grind

def Loads (ls : Array VType) (slot : UInt16) (expected t : VType) : Prop :=
  slot.toNat + width expected ≤ ls.size ∧ ls[slot.toNat]? = some t ∧ isLoadable t expected = true

theorem load_iff {slot : UInt16} :
    load slot expected f = .ok t g ↔ Loads f.locals slot expected t ∧ g = f := by
  simp [load_eq_ok_iff, Loads, and_assoc]

theorem trades_load {next : VType → Step Unit} {Q : VType → Array VType → Trade → Prop}
    (slot : UInt16) (expected : VType) (more : ∀ t, Trades (next t) (Q t)) :
    Trades (load slot expected >>= next) fun ls d => ∃ t, Loads ls slot expected t ∧ Q t ls d where
  iff f g := by
    simp only [seq_eq_ok_iff, load_iff, (more _).iff _ _]
    grind
  sharp := by
    rintro ls d d' ⟨t, found, related⟩ ⟨u, found', related'⟩ front
    cases found.2.1.symm.trans found'.2.1
    exact (more t).sharp ls d d' related related' front

def Holds : ValueKind → VType → Prop
  | .reference, t => t.isReference = true
  | k, t => t.isAssignable (.ofKind k) = true

inductive Accesses (a : LocalAccess) (slot : UInt16) (ls : Array VType) : Trade → Prop where
  | load {t : VType} (loads : a.isStore = false) (found : Loads ls slot (.ofKind a.kind) t) :
      Accesses a slot ls ⟨[], .none, [t]⟩
  | store {t : VType} (stores : a.isStore = true) (holds : Holds a.kind t)
      (inside : slot.toNat + width t ≤ ls.size) : Accesses a slot ls ⟨[t], .write slot.toNat t, []⟩

theorem trades_access (a : LocalAccess) (slot : UInt16) :
    Trades (access a slot) (Accesses a slot) := by
  obtain ⟨kind, isStore, named⟩ := a
  cases isStore with
  | false =>
    refine (trades_load slot (.ofKind kind) trades_push).congr ?_
    intro ls d
    constructor
    · rintro ⟨t, found, rfl⟩
      exact .load rfl found
    · intro accesses
      cases accesses with
      | load _ found => exact ⟨_, found, rfl⟩
      | store stores => cases stores
  | true =>
    obtain ⟨step, pops, same⟩ : ∃ step, Pops step (Holds kind) ∧
        access ⟨kind, true, named⟩ slot = (step >>= fun t => store slot t) := by
      cases kind with
      | reference => exact ⟨_, pops_popAnyReference, rfl⟩
      | _ => exact ⟨_, pops_popExpecting _, rfl⟩
    rw [same]
    refine (pops.trades (trades_store slot)).congr ?_
    rintro ls ⟨ts, change, us⟩
    constructor
    · rintro ⟨t, _, rfl, holds, made, inside⟩
      cases made
      exact .store rfl holds inside
    · intro accesses
      cases accesses with
      | load loads => cases loads
      | store _ holds inside => exact ⟨_, [], rfl, holds, rfl, inside⟩

end Frame

end JvmClass
