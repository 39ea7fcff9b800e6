import JvmClass.Proofs.Pool.Forms
import JvmClass.Proofs.Verify.Construction
import JvmClass.Proofs.Verify.Entry
import JvmClass.Proofs.Verify.Passes

/-! The receiver of a constructor.  It starts as an unfinished object in the first local variable,
and a constructor may not return while it is still there.  So on every way to a return, a
constructor has been called on it, or the variable has been written, or the analysis has forgotten
what it holds, because another way on which one of these has happened comes together with this
one. -/

namespace JvmClass

open Width (width)

namespace Frame

variable {size : Nat} {kept t : VType} {ts : Array VType} {i : Nat}

theorem getElem?_zero_written (narrow : width kept = 1) (here : ts[0]? = some kept)
    (other : i ≠ 0) : (written ts i t)[0]? = some kept := by
  have unbroken : (breakWide ts i)[0]? = some kept := by
    cases i with
    | zero => exact here
    | succ j =>
      simp only [breakWide]
      split
      · rename_i u found
        split
        · rename_i wide
          have first : j ≠ 0 := by
            rintro rfl
            cases here.symm.trans found
            rw [narrow] at wide
            cases wide
          rwa [Array.getElem?_setIfInBounds_ne first]
        · exact here
      · exact here
  unfold written
  dsimp only
  split
  · rwa [Array.getElem?_setIfInBounds_ne (Nat.succ_ne_zero i), Array.getElem?_setIfInBounds_ne other]
  · rwa [Array.getElem?_setIfInBounds_ne other]

def Discipline.keeping (size : Nat) (kept : VType) (narrow : width kept = 1) : Discipline size where
  locals ts := ts.size = size ∧ ts[0]? = some kept
  value t := t ≠ .top
  stores slot := slot ≠ 0
  retypes t := t ≠ kept
  sized _ both := both.1
  finished _ finished := finished.usable
  loaded _ _ _ _ _ usable := usable
  written _ _ _ both other _ :=
    ⟨(size_written ..).trans both.1, getElem?_zero_written narrow both.2 other⟩
  retyped _ _ n both other := by
    refine ⟨(Array.size_map ..).trans both.1, ?_⟩
    rw [Array.getElem?_map, both.2, Option.map_some, if_neg (Ne.symm other)]

end Frame

namespace MethodContext

open JvmClass.Frame

variable {c : MethodContext} {size offset : Nat} {i : Instruction Handle} {f g : Frame}
  {kept : VType}

/-- The instruction writes to the first local variable. -/
def WritesFirst (i : Instruction Handle) : Prop :=
  ∃ a, i.opcode.localAccess? = some a ∧ a.isStore = true ∧ i.slot? = some 0

theorem locals_of_pushReturn {r : Option FieldType} (done : pushReturn r f = .ok () g) :
    g.locals = f.locals := by
  cases r with
  | none =>
    cases done
    rfl
  | some t =>
    obtain ⟨_, rfl⟩ := push_eq_ok_iff.mp done
    rfl

theorem first_stays (narrow : width kept = 1) (usable : f.Usable size)
    (here : f.locals[0]? = some kept) (unwritten : ¬ WritesFirst i)
    (unfinished : ∀ m type, c.Constructs i m type →
      f.stack[type.parameters.length]? ≠ some kept)
    (done : Frame.after (c.effect offset i) f = .ok g) : g.locals[0]? = some kept := by
  by_cases calls : ∃ op index, i = .constant op index ∧ c.CallsConstructor op index
  · obtain ⟨_, index, rfl, m, found, rfl, named⟩ := calls
    obtain ⟨type, t, n, constructs, call⟩ := exists_call found named done
    have other : t ≠ kept := by
      rintro rfl
      exact unfinished m type constructs call.receiver
    obtain ⟨_, rest, _, _, pushed⟩ := call.stack
    rw [locals_of_pushReturn pushed, retype, Array.getElem?_map, locals_withStack, here, Option.map_some,
      if_neg (Ne.symm other)]
  · have admits : c.Admits (.keeping size kept narrow) offset i := by
      refine ⟨fun a slot accesses store found first => ?_, fun _ => VType.noConfusion, ?_⟩
      · obtain rfl : slot = 0 := UInt16.toNat_inj.mp first
        exact unwritten ⟨a, accesses, store, found⟩
      · intro op index same constructs
        exact absurd ⟨op, index, same, constructs⟩ calls
    have holds : (Discipline.keeping size kept narrow).Holds f :=
      ⟨⟨usable.size_eq, here⟩, usable.stack⟩
    exact ((guarded_effect admits).holds holds (after_eq_ok_iff.mp done)).locals.2

end MethodContext

/-- The instruction at a position calls a constructor, and the recorded frame has the receiver of
this method, unfinished, below the arguments. -/
def FinishesReceiver (c : MethodContext) (p : Program) (s : Flow) (q : Nat) : Prop :=
  ∃ offset i m type F, p.code[q]? = some (offset, i) ∧ c.Constructs i m type ∧
    s.frame? q = some F ∧ F.stack[type.parameters.length]? = some .uninitializedThis

def ReplacesReceiver (p : Program) (q : Nat) : Prop :=
  ∃ offset i, p.code[q]? = some (offset, i) ∧ MethodContext.WritesFirst i

def Touched (c : MethodContext) (p : Program) (s : Flow) (passed : List Nat) : Prop :=
  ∃ q ∈ passed, FinishesReceiver c p s q ∨ ReplacesReceiver p q

/-- Nothing is known any more of the variable of the receiver at a position, to which some way leads
on which something has happened to the receiver. -/
def ForgetsReceiver (c : MethodContext) (p : Program) (s : Flow) (q : Nat) : Prop :=
  (∃ F, s.frame? q = some F ∧ F.locals[0]? = some .top) ∧
    ∃ other, Walk p other q ∧ Touched c p s other

section Ways

variable {c : MethodContext} {p : Program} {s : Flow} {size : Nat} {maxStack : UInt16} {q offset : Nat}
  {i : Instruction Handle} {f g F G : Frame} {kept : VType} {passed : List Nat}

theorem stays_of_untouched (usable : f.Usable size) (recorded : s.frame? q = some F)
    (below : f.Under (fun _ => True) size maxStack F) (here : p.code[q]? = some (offset, i))
    (unfinished : ¬ FinishesReceiver c p s q) (unreplaced : ¬ ReplacesReceiver p q)
    (initial : f.locals[0]? = some .uninitializedThis)
    (done : Frame.after (c.effect offset i) f = .ok g) :
    g.locals[0]? = some .uninitializedThis := by
  refine MethodContext.first_stays rfl usable initial (fun writes => ?_) (fun m type call found => ?_)
    done
  · exact unreplaced ⟨offset, i, here, writes⟩
  · refine unfinished ⟨offset, i, m, type, F, here, call, recorded, ?_⟩
    obtain ⟨t, found', value⟩ := getElem?_of_forall₂ below.stack found
    cases value
    exact found'

/-- The receiver is where it was, or nothing is known of its variable. -/
def Awaits (F : Frame) : Prop :=
  F.locals[0]? = some .uninitializedThis ∨ F.locals[0]? = some .top

theorem awaits_of_under (below : f.Under (fun _ => True) size maxStack F) (awaits : Awaits f) :
    Awaits F := by
  obtain ⟨t, here, kind⟩ : ∃ t, f.locals[0]? = some t ∧ (t = .uninitializedThis ∨ t = .top) := by
    obtain here | here := awaits
    · exact ⟨_, here, .inl rfl⟩
    · exact ⟨_, here, .inr rfl⟩
  have inside : 0 < F.locals.size := by
    rw [below.right.locals, ← below.left.locals]
    exact (Array.getElem?_eq_some_iff.mp here).1
  have there := Array.getElem?_eq_getElem inside
  have covered := below.locals 0 t _ here there
  unfold Awaits
  rw [there]
  generalize F.locals[0] = u at covered
  cases covered with
  | unusable => exact .inr rfl
  | under value =>
    obtain rfl | rfl := kind <;> cases value
    · exact .inl rfl
    · exact .inr rfl

variable {entry : Frame} (analysis : Flow.Analysis c p size maxStack entry s)
include analysis

theorem awaits_of_effect (recorded : s.frame? q = some F) (here : p.code[q]? = some (offset, i))
    (untouched : ¬ (FinishesReceiver c p s q ∨ ReplacesReceiver p q)) (awaits : Awaits F)
    (done : Frame.after (c.effect offset i) F = .ok g) : Awaits g := by
  have usable := analysis.usableFrame recorded
  obtain initial | forgotten := awaits
  · exact .inl (stays_of_untouched usable recorded (.refl (analysis.shapedFrame recorded)) here
      (fun finishes => untouched (.inl finishes)) (fun replaces => untouched (.inr replaces)) initial
      done)
  · refine .inr (MethodContext.first_stays rfl usable forgotten (fun writes => ?_)
      (fun m type _ found => ?_) done)
    · exact untouched (.inr ⟨offset, i, here, writes⟩)
    · exact usable.stack _ (List.mem_of_getElem? found) rfl

/-- On a way on which nothing happens to the receiver it stays, or it is forgotten. -/
theorem awaits_of_walk (initial : entry.locals[0]? = some .uninitializedThis)
    (walk : Walk p passed q) (untouched : ¬ Touched c p s passed) :
    q < p.code.size ∧ ∃ F, s.frame? q = some F ∧ Awaits F := by
  induction walk with
  | start inside =>
    obtain ⟨F, recorded, below⟩ := analysis.start inside
    exact ⟨inside, F, recorded, awaits_of_under below (.inl initial)⟩
  | @next passed q r offset i walk here leads ih =>
    have earlier : ¬ Touched c p s passed := fun ⟨k, member, touches⟩ =>
      untouched ⟨k, List.mem_cons_of_mem q member, touches⟩
    obtain ⟨_, F, recorded, awaits⟩ := ih earlier
    obtain ⟨g, done, later⟩ := (analysis.settled recorded).next offset i here
    obtain ⟨_, same, inside, G, recorded', below⟩ := later _ leads
    obtain rfl := Option.some.inj same
    have awaits' := awaits_of_effect analysis recorded here
      (fun touches => untouched ⟨q, List.mem_cons_self, touches⟩) awaits done
    exact ⟨inside, G, recorded', awaits_of_under below awaits'⟩
  | @caught passed q offset i h walk here listed starts stops ih =>
    obtain ⟨_, F, recorded, awaits⟩ := ih untouched
    obtain ⟨g, caught, later⟩ := (analysis.settled recorded).caught offset i here h listed starts stops
    have inside := analysis.positions h listed
    obtain ⟨G, recorded', below⟩ := later inside
    have same : g.locals = F.locals := by
      obtain ⟨_, rfl⟩ := Frame.push_eq_ok_iff.mp (MethodContext.after_eq_ok_iff.mp caught)
      rfl
    refine ⟨inside, G, recorded', awaits_of_under below ?_⟩
    unfold Awaits
    rwa [same]

end Ways

/-- A frame that the analysis finds at a position: the receiver is there, or on some way to this
position something has happened to it. -/
structure Traced (c : MethodContext) (p : Program) (s : Flow) (size : Nat) (maxStack : UInt16)
    (q : Nat) (f : Frame) : Prop where
  below : s.Receives size maxStack q f
  usable : f.Usable size
  reached : ∃ passed, Walk p passed q
  receiver : f.locals[0]? = some .uninitializedThis ∨
    ∃ passed, Walk p passed q ∧ Touched c p s passed

section Traced

variable {c : MethodContext} {p : Program} {s : Flow} {size : Nat} {maxStack : UInt16} {q : Nat}
  {entry F : Frame} {passed : List Nat} (analysis : Flow.Analysis c p size maxStack entry s)
include analysis

theorem keeps_traced : Flow.Keeps c p (Traced c p s size maxStack) where
  merged q f g m traced traced' merged := by
    refine ⟨(Flow.keeps_receives (fun _ _ => analysis.settled) analysis.positions).merged
      traced.below traced'.below merged, Frame.usable_merge traced.usable traced'.usable merged,
      traced.reached, ?_⟩
    obtain here | touched := traced.receiver
    · obtain there | touched := traced'.receiver
      · left
        rw [Frame.merge_eq merged, Frame.locals_ofStack, Array.getElem?_zipWith, here, there]
        exact congrArg some (VType.merge_self _)
      · exact .inr touched
    · exact .inr touched
  caught q offset i f g h here traced listed starts stops done := by
    refine ⟨(Flow.keeps_receives (fun _ _ => analysis.settled) analysis.positions).caught here
      traced.below listed starts stops done,
      Frame.holds_withCaught traced.usable (analysis.values h listed).usable done, ?_, ?_⟩
    · obtain ⟨passed, walk⟩ := traced.reached
      exact ⟨passed, walk.caught here listed starts stops⟩
    · obtain ⟨_, rfl⟩ := Frame.push_eq_ok_iff.mp (MethodContext.after_eq_ok_iff.mp done)
      exact traced.receiver.imp_right fun ⟨passed, walk, touched⟩ =>
        ⟨passed, walk.caught here listed starts stops, touched⟩
  next q offset i f g r here traced done leads := by
    refine ⟨(Flow.keeps_receives (fun _ _ => analysis.settled) analysis.positions).next here
      traced.below done leads, (Flow.keeps_usable analysis.values).next here traced.usable done leads,
      ?_, ?_⟩
    · obtain ⟨passed, walk⟩ := traced.reached
      exact ⟨q :: passed, walk.next here leads⟩
    · obtain initial | ⟨passed, walk, k, member, touches⟩ := traced.receiver
      · by_cases touches : FinishesReceiver c p s q ∨ ReplacesReceiver p q
        · obtain ⟨passed, walk⟩ := traced.reached
          exact .inr ⟨q :: passed, walk.next here leads, q, List.mem_cons_self, touches⟩
        · obtain ⟨F, recorded, below⟩ := traced.below
          exact .inl (stays_of_untouched traced.usable recorded below here
            (fun finishes => touches (.inl finishes)) (fun replaces => touches (.inr replaces))
            initial done)
      · exact .inr ⟨q :: passed, walk.next here leads, k, List.mem_cons_of_mem q member, touches⟩

theorem exists_touched_of_recorded (initial : entry.locals[0]? = some .uninitializedThis)
    (inside : 0 < p.code.size) (recorded : s.frame? q = some F)
    (gone : F.locals[0]? ≠ some .uninitializedThis) :
    ∃ other, Walk p other q ∧ Touched c p s other := by
  have start : Traced c p s size maxStack 0 entry :=
    ⟨analysis.start inside, analysis.usable, ⟨[], .start inside⟩, .inl initial⟩
  have traced := Flow.has_solve (keeps_traced analysis) start analysis.solved q F recorded
  exact traced.receiver.resolve_left gone

end Traced

namespace Opcode

theorem eq_voidReturn_or {op : Opcode} (returning : op.hasFacet .returning = true) :
    op.shape? = some .none ∧ (op = .voidReturn ∨ op.returnKind?.isSome = true) := by
  have rows : ∀ row ∈ table.toList.zipIdx, row.1.facets.contains .returning = true →
      row.1.shape = .none ∧ ((⟨UInt8.ofNat row.2⟩ : Opcode) = .voidReturn ∨
        (returnKind? ⟨UInt8.ofNat row.2⟩).isSome = true) := by
    decide +kernel
  cases entry : op.entry? with
  | none => simp [hasFacet, facets, entry] at returning
  | some e =>
    obtain ⟨n, row, rfl⟩ := row_of_entry? entry
    obtain ⟨bare, result⟩ := rows (e, n) row (by simpa [hasFacet, facets, entry] using returning)
    exact ⟨by rw [shape?, entry, ← bare]; rfl, result⟩

end Opcode

namespace MethodContext

open JvmClass.Frame

variable {c : MethodContext} {offset : Nat} {i : Instruction Handle} {f g : Frame} {op : Opcode}

theorem eq_voidReturn_of_effect (void : c.type.returns = none)
    (shaped : i.checkShape = .ok ()) (returning : i.opcode.hasFacet .returning = true)
    (done : Frame.after (c.effect offset i) f = .ok g) : i = .plain .voidReturn := by
  obtain ⟨bare, special⟩ := Opcode.eq_voidReturn_or returning
  obtain ⟨shape, known, takes⟩ := Instruction.takes_of_checkShape shaped
  cases bare.symm.trans known
  cases i with
  | plain op =>
    obtain rfl | valued := special
    · rfl
    · obtain ⟨k, kind⟩ : ∃ k, op.returnKind? = some k := Option.isSome_iff_exists.mp valued
      rw [after_eq_ok_iff, effect_of_returnKind? kind] at done
      unfold returnValue at done
      rw [void] at done
      cases done
  | constant | localVariable | branch => cases takes
  | _ => exact absurd returning (by simp only [Instruction.opcode]; decide +kernel)

theorem gone_of_voidReturn (constructor : c.isConstructor = true)
    (done : Frame.after (c.effect offset (.plain (τ := Handle) .voidReturn)) f = .ok g) :
    f.locals[0]? ≠ some .uninitializedThis := by
  rw [after_eq_ok_iff, effect_voidReturn] at done
  obtain ⟨_, finished, _⟩ := returnVoid_eq_ok_iff.mp done
  rw [constructor, Bool.true_and, hasUninitializedThis] at finished
  intro here
  have listed : f.locals.contains .uninitializedThis = true :=
    Array.contains_iff_mem.mpr (Array.mem_of_getElem? here)
  rw [listed] at finished
  cases finished

end MethodContext

namespace MethodContext

open JvmClass.Frame

variable {c : MethodContext} {f : Frame}

theorem first_of_entryFrame {maxLocals maxStack : UInt16} (constructor : c.isConstructor = true)
    (derived : c.thisClass ≠ Name.object)
    (entered : c.entryFrame maxLocals maxStack false = .ok f) :
    f.locals[0]? = some .uninitializedThis := by
  have receiver : c.receiverType = .uninitializedThis := if_pos ⟨constructor, derived⟩
  obtain ⟨_, rfl⟩ := entryFrame_eq_ok_iff.mp entered
  rw [← receiver]
  exact (getElem?_filled (k := 0) rfl).1

end MethodContext

namespace ClassFile

variable {c : ClassFile} {position : Nat} {s : FlowSubject}

theorem constructor_of_checkRules (rules : c.checkRules = .ok ())
    (subject : c.flowSubject? position = .ok (some s)) (constructor : s.context.isConstructor = true) :
    s.isStatic = false ∧ s.context.type.returns = none := by
  obtain ⟨m, name, descriptor, here, is⟩ := flowSubject?_eq_some_iff.mp subject
  obtain ⟨signature, type, keeps⟩ := declares_of_checkRules rules here
  have named : signature.1 = Name.constructorName := by
    rw [is.constructor, beq_iff_eq] at constructor
    rw [← constructor]
    exact Except.ok.inj (keeps.named.symm.trans is.named)
  have described := Except.ok.inj (keeps.described.symm.trans is.described)
  obtain rfl := Except.ok.inj ((described ▸ keeps.parsed).symm.trans is.parsed)
  have rule := keeps.constructs named
  unfold checkConstructor at rule
  obtain ⟨neither, _⟩ := ite_throw_bind_eq_ok_iff.mp rule
  rw [not_or, Bool.not_eq_true, Bool.not_eq_true] at neither
  exact ⟨is.static.trans neither.1, Option.not_isSome_iff_eq_none.mp (by simp [neither.2])⟩

/-- On every way through an accepted constructor to a return, the receiver has been finished, or its
variable has been written, or the variable has been forgotten there. -/
theorem finishes_or_forgets (rules : c.checkRules = .ok ())
    (code : c.checkCode position = .ok (.ok ())) (accepted : c.checkFlow position = .ok ())
    (subject : c.flowSubject? position = .ok (some s)) (constructor : s.context.isConstructor = true)
    (derived : s.context.thisClass ≠ Name.object) :
    ∃ p flow, c.FlowsAs position s p flow ∧
      ∀ passed q, Walk p passed q → ∀ offset i, p.code[q]? = some (offset, i) →
        i.opcode.hasFacet .returning = true →
          (∃ k ∈ passed, FinishesReceiver s.context p flow k) ∨
            (∃ k ∈ passed, ReplacesReceiver p k) ∨ ForgetsReceiver s.context p flow q := by
  obtain ⟨p, entry, flow, program, entered, analysis⟩ := exists_analysis subject accepted
  obtain ⟨static, void⟩ := constructor_of_checkRules rules subject constructor
  have suited := suited_of_passes rules code subject program
  have initial : entry.locals[0]? = some .uninitializedThis :=
    MethodContext.first_of_entryFrame constructor derived (static ▸ entered)
  refine ⟨p, flow, ⟨subject, program, entry, entered, analysis.solved⟩,
    fun passed q walk offset i here returning => ?_⟩
  by_cases touched : Touched s.context p flow passed
  · obtain ⟨k, member, finishes | replaces⟩ := touched
    · exact .inl ⟨k, member, finishes⟩
    · exact .inr (.inl ⟨k, member, replaces⟩)
  · obtain ⟨inside, F, recorded, awaits⟩ := awaits_of_walk analysis initial walk touched
    obtain ⟨g, done, _⟩ := (analysis.settled recorded).next offset i here
    obtain rfl := MethodContext.eq_voidReturn_of_effect void (suited q offset i here).shape
      returning done
    have gone := MethodContext.gone_of_voidReturn constructor done
    have others := exists_touched_of_recorded analysis initial (Nat.zero_lt_of_lt inside) recorded
      gone
    exact .inr (.inr ⟨⟨F, recorded, awaits.resolve_left gone⟩, others⟩)

def dutifulMethod : Method where
  flags := ⟨0x0001⟩
  name := 6
  descriptor := 7
  attributes := [⟨5, [0, 1, 0, 1, 0, 0, 0, 5, 0x2A, 0xB7, 0, 9, 0xB1, 0, 0, 0, 0]⟩]

def dutiful : ClassFile where
  version := ⟨52, 0⟩
  pool := .ofConstants [.utf8 "a/Foo", .classInfo 1, .utf8 "java/lang/Object", .classInfo 3,
    .utf8 "Code", .utf8 "<init>", .utf8 "()V", .nameAndType 6 7, .methodRef 4 8 false]
  flags := ⟨0x0021⟩
  thisClass := 2
  superClass := some 4
  interfaces := []
  fields := []
  methods := [dutifulMethod]
  attributes := []

def dutifulContext : MethodContext := ⟨dutiful.pool, "a/Foo", ⟨[], none⟩, true⟩

def dutifulBody (τ : Type) : List (Nat × Instruction τ) :=
  [(0, .plain ⟨0x2A⟩), (1, .constant .invokespecial 9), (4, .plain .voidReturn)]

def singleFrame (receiver : VType) (stack : List VType) : Frame := .ofStack #[receiver] stack 1

theorem replays_dutiful : dutiful.Replays dutifulMethod "<init>" "()V" dutifulContext
    ⟨1, 1, [0x2A, 0xB7, 0, 9, 0xB1], [], []⟩ (dutifulBody Int32) ((dutifulBody Handle).map (·.2))
    (singleFrame .uninitializedThis [])
    [singleFrame .uninitializedThis [], singleFrame .uninitializedThis [.uninitializedThis],
      singleFrame (.object "a/Foo") []] where
  flows := ⟨4, by decide +kernel⟩

theorem finishes_or_forgets_dutiful : ∃ s, dutiful.checkRules = .ok () ∧
    dutiful.checkCode 0 = .ok (.ok ()) ∧ dutiful.checkFlow 0 = .ok () ∧
    dutiful.flowSubject? 0 = .ok (some s) ∧ s.context.isConstructor = true ∧
    s.context.thisClass ≠ Name.object ∧ ∃ p flow, dutiful.FlowsAs 0 s p flow ∧
      Walk p [1, 0] 2 ∧ ∃ k ∈ [1, 0], FinishesReceiver s.context p flow k := by
  obtain ⟨s, p, flow, replayed⟩ := replays_dutiful.replayed
  have constructor : s.context.isConstructor = true := by
    rw [replayed.context]
    rfl
  have derived : s.context.thisClass ≠ Name.object := by
    rw [replayed.context]
    decide +kernel
  obtain ⟨p', flow', flows, ends⟩ := finishes_or_forgets replays_dutiful.checkRules
    replays_dutiful.checkCode replayed.accepted replayed.flows.subject constructor derived
  obtain ⟨rfl, rfl⟩ := replayed.flows.unique flows
  have inside : 0 < p'.code.size := (Array.getElem?_eq_some_iff.mp (replayed.code 0)).1
  have walk : Walk p' [1, 0] 2 :=
    ((Walk.start inside).next (replayed.code 0) (replayed.leads (by decide +kernel))).next
      (replayed.code 1) (replayed.leads (by decide +kernel))
  refine ⟨s, replays_dutiful.checkRules, replays_dutiful.checkCode, replayed.accepted,
    replayed.flows.subject, constructor, derived, p', flow', flows, walk, ?_⟩
  obtain finishes | ⟨k, _, offset, i, here, a, accesses, stores, _⟩ | ⟨⟨F, recorded, forgotten⟩, _⟩ :=
    ends [1, 0] 2 walk 4 _ (replayed.code 2) (by decide +kernel)
  · exact finishes
  · have reads : ∀ x ∈ dutifulBody Handle, ∀ a ∈ x.2.opcode.localAccess?, a.isStore = false := by
      decide +kernel
    have listed : (offset, i) ∈ dutifulBody Handle :=
      List.mem_of_getElem? ((replayed.code k).symm.trans here)
    cases stores.symm.trans (reads _ listed a accesses)
  · cases recorded.symm.trans (replayed.frame? 2)
    cases forgotten

def lazyMethod : Method where
  flags := ⟨0x0001⟩
  name := 6
  descriptor := 7
  attributes := [⟨5, [0, 1, 0, 1, 0, 0, 0, 3, 0x01, 0x4B, 0xB1, 0, 0, 0, 0]⟩]

/-- A class with a constructor that forgets its receiver: it writes over the variable, and is accepted
although it calls no other constructor. -/
def lazy : ClassFile where
  version := ⟨52, 0⟩
  pool := .ofConstants [.utf8 "a/Lazy", .classInfo 1, .utf8 "java/lang/Object", .classInfo 3,
    .utf8 "Code", .utf8 "<init>", .utf8 "()V"]
  flags := ⟨0x0021⟩
  thisClass := 2
  superClass := some 4
  interfaces := []
  fields := []
  methods := [lazyMethod]
  attributes := []

def lazyContext : MethodContext := ⟨lazy.pool, "a/Lazy", ⟨[], none⟩, true⟩

def lazyBody (τ : Type) : List (Nat × Instruction τ) :=
  [(0, .plain .aconstNull), (1, .plain ⟨0x4B⟩), (2, .plain .voidReturn)]

theorem replays_lazy : lazy.Replays lazyMethod "<init>" "()V" lazyContext
    ⟨1, 1, [0x01, 0x4B, 0xB1], [], []⟩ (lazyBody Int32) ((lazyBody Handle).map (·.2))
    (singleFrame .uninitializedThis [])
    [singleFrame .uninitializedThis [], singleFrame .uninitializedThis [.null],
      singleFrame .null []] where
  flows := ⟨4, by decide +kernel⟩

/-- There is a way to a return on which no constructor is called on the receiver. -/
theorem unfinished_lazy : lazy.checkRules = .ok () ∧ lazy.checkCode 0 = .ok (.ok ()) ∧
    lazy.checkFlow 0 = .ok () ∧ ∃ s p flow, lazy.FlowsAs 0 s p flow ∧
      s.context.isConstructor = true ∧ s.context.thisClass ≠ Name.object ∧
      ∃ passed q offset i, Walk p passed q ∧ p.code[q]? = some (offset, i) ∧
        i.opcode.hasFacet .returning = true ∧
          ¬ ∃ k ∈ passed, FinishesReceiver s.context p flow k := by
  obtain ⟨s, p, flow, replayed⟩ := replays_lazy.replayed
  have inside : 0 < p.code.size := (Array.getElem?_eq_some_iff.mp (replayed.code 0)).1
  have walk : Walk p [1, 0] 2 :=
    ((Walk.start inside).next (replayed.code 0) (replayed.leads (by decide +kernel))).next
      (replayed.code 1) (replayed.leads (by decide +kernel))
  have constructor : s.context.isConstructor = true := by
    rw [replayed.context]
    rfl
  have derived : s.context.thisClass ≠ Name.object := by
    rw [replayed.context]
    decide +kernel
  refine ⟨replays_lazy.checkRules, replays_lazy.checkCode, replayed.accepted, s, p, flow,
    replayed.flows, constructor, derived, [1, 0], 2, 2, .plain .voidReturn, walk, replayed.code 2,
    by decide +kernel, ?_⟩
  -- No instruction of the method has an operand.
  rintro ⟨k, _, offset, i, m, type, _, here, constructs, _⟩
  obtain ⟨index, rfl, _⟩ := constructs.reference
  have listed : (offset, .constant .invokespecial index) ∈ lazyBody Handle :=
    List.mem_of_getElem? ((replayed.code k).symm.trans here)
  simp [lazyBody] at listed

end ClassFile

end JvmClass
