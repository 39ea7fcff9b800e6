import JvmClass.Proofs.Descriptors
import JvmClass.Proofs.Instruction.Consumption
import JvmClass.Proofs.Pool.Forms
import JvmClass.Proofs.Verify.Construction
import JvmClass.Proofs.Verify.Passes

/-! Where unfinished objects come from, and what becomes of them.  An unfinished object of an offset
was made by the new instruction there, on some way to where it stands.  A constructor makes it an
object of the class that its call names; the class that the new instruction names has no part in
this. -/

namespace JvmClass

open Width (width)

namespace VType

def Sourced (S : Nat → Prop) (t : VType) : Prop := ∀ o, t = .uninitialized o → S o

variable {S : Nat → Prop} {t u : VType}

theorem Finished.sourced (finished : t.Finished) : t.Sourced S := by
  rintro o rfl
  cases finished.initialized

theorem Sourced.mono {S' : Nat → Prop} (sourced : t.Sourced S) (more : ∀ o, S o → S' o) :
    t.Sourced S' := fun o same => more o (sourced o same)

theorem sourced_top : top.Sourced S := fun _ => VType.noConfusion

/-- Values that are not the same have no common type that is unfinished. -/
theorem Sourced.merge (sourced : t.Sourced S) : (t.merge u).Sourced S := by
  intro o same
  unfold VType.merge at same
  split at same
  · exact sourced o same
  · split at same <;> cases same

end VType

namespace Frame

variable {size i : Nat} {S : Nat → Prop} {ts : Array VType} {t u : VType} {f g m : Frame}

theorem mem_breakWide (member : u ∈ breakWide ts i) : u ∈ ts ∨ u = .top := by
  cases i with
  | zero => exact .inl member
  | succ i =>
    simp only [breakWide] at member
    split at member
    · split at member
      · exact Array.mem_or_eq_of_mem_setIfInBounds member
      · exact .inl member
    · exact .inl member

theorem mem_written (member : u ∈ written ts i t) : u ∈ ts ∨ u = t ∨ u = .top := by
  have single (member : u ∈ (breakWide ts i).setIfInBounds i t) : u ∈ ts ∨ u = t ∨ u = .top := by
    obtain member | same := Array.mem_or_eq_of_mem_setIfInBounds member
    · exact (mem_breakWide member).imp_right .inr
    · exact .inr (.inl same)
  unfold written at member
  dsimp only at member
  split at member
  · obtain member | same := Array.mem_or_eq_of_mem_setIfInBounds member
    · exact single member
    · exact .inr (.inr same)
  · exact single member

def Discipline.sourced (size : Nat) (S : Nat → Prop) : Discipline size where
  locals ts := ts.size = size ∧ ∀ t ∈ ts, t.Sourced S
  value t := t.Sourced S
  stores _ := True
  retypes _ := True
  sized _ both := both.1
  finished _ finished := finished.sourced
  loaded _ _ _ both here _ := both.2 _ (Array.mem_of_getElem? here)
  written ts i t both _ value := by
    refine ⟨(size_written ..).trans both.1, fun u member => ?_⟩
    obtain member | rfl | rfl := mem_written member
    · exact both.2 u member
    · exact value
    · exact VType.sourced_top
  retyped ts old n both _ := by
    refine ⟨(Array.size_map ..).trans both.1, fun u member => ?_⟩
    obtain ⟨t, listed, rfl⟩ := Array.mem_map.mp member
    split
    · exact (VType.finished_object n).sourced
    · exact both.2 t listed

abbrev Sourced (size : Nat) (S : Nat → Prop) (f : Frame) : Prop :=
  (Discipline.sourced size S).Holds f

theorem Sourced.mono {S' : Nat → Prop} (sourced : f.Sourced size S) (more : ∀ o, S o → S' o) :
    f.Sourced size S' :=
  ⟨⟨sourced.locals.1, fun t member => (sourced.locals.2 t member).mono more⟩,
    fun t member => (sourced.stack t member).mono more⟩

theorem sourced_merge (sourced : f.Sourced size S) (sized : g.locals.size = size)
    (merged : f.merge g = .ok m) : m.Sourced size S := by
  obtain ⟨locals, stack⟩ := mem_merge merged
  refine ⟨⟨?_, fun t member => ?_⟩, fun t member => ?_⟩
  · rw [merge_eq merged, locals_ofStack, Array.size_zipWith, sourced.locals.1, sized, Nat.min_self]
  · obtain ⟨a, left, b, _, rfl⟩ := locals t member
    exact (sourced.locals.2 a left).merge
  · obtain ⟨a, left, b, _, rfl⟩ := stack t member
    exact (sourced.stack a left).merge

theorem sourced_empty {maxLocals maxStack : UInt16} :
    (Frame.empty maxLocals maxStack).Sourced maxLocals.toNat S := by
  refine ⟨⟨Array.size_replicate, fun t member => ?_⟩, fun _ member => absurd member List.not_mem_nil⟩
  obtain ⟨_, rfl⟩ := Array.mem_replicate.mp member
  exact VType.sourced_top

end Frame

namespace MethodContext

open JvmClass.Frame

variable {c : MethodContext} {size offset : Nat} {i : Instruction Handle} {S : Nat → Prop}
  {f : Frame}

theorem admits_sourced (made : i.opcode = .new → S offset) : c.Admits (.sourced size S) offset i where
  stores _ _ _ _ _ := trivial
  makes new o same := by
    cases same
    exact made new
  retypes _ _ _ _ _ _ := trivial

theorem sourced_receiverType : c.receiverType.Sourced S := by
  unfold receiverType
  split <;> exact fun _ => VType.noConfusion

theorem sourced_entryFrame {maxLocals maxStack : UInt16} {isStatic : Bool}
    (found : c.entryFrame maxLocals maxStack isStatic = .ok f) : f.Sourced maxLocals.toNat S :=
  (guarded_entry (d := .sourced _ S) (fun _ => trivial) sourced_receiverType False.elim).holds
    sourced_empty (after_eq_ok_iff.mp found)

end MethodContext

structure Makes (c : MethodContext) (p : Program) (k o : Nat) (n : String) : Prop where
  here : ∃ index, p.code[k]? = some (o, .constant .new index) ∧ c.pool.getClassName index = .ok n
  single : RefType.ofClassName n = .ok (.object n)

/-- A new instruction with this offset has been executed on some way to a position. -/
def MadeBefore (c : MethodContext) (p : Program) (q o : Nat) : Prop :=
  ∃ passed k n, Walk p passed q ∧ k ∈ passed ∧ Makes c p k o n

section Making

variable {c : MethodContext} {p : Program} {s : Flow} {size : Nat} {q r offset : Nat}
  {i : Instruction Handle} {entry F : Frame}

theorem Instruction.eq_constant_of_new (shaped : i.checkShape = .ok ()) (new : i.opcode = .new) :
    ∃ index, i = .constant .new index := by
  obtain ⟨shape, known, takes⟩ := takes_of_checkShape shaped
  have operand : Opcode.new.shape? = some .constant := by decide +kernel
  rw [new] at known
  cases operand.symm.trans known
  cases i with
  | constant op index =>
    cases new
    exact ⟨index, rfl⟩
  | plain | localVariable | branch => cases takes
  | _ => cases new

theorem makes_of_suits (here : p.code[q]? = some (offset, i)) (suits : c.Suits size i)
    (new : i.opcode = .new) : ∃ n, Makes c p q offset n := by
  obtain ⟨index, rfl⟩ := Instruction.eq_constant_of_new suits.shape new
  obtain ⟨k, same, _, rule⟩ := suits.operands
  obtain ⟨r, operand, rule⟩ := bind_eq_ok (x := k.classOperand index) rule
  obtain ⟨n, named, read⟩ := CodeContext.exists_of_classOperand operand
  cases r with
  | array d e => cases rule
  | object n' =>
    obtain rfl : n' = n := RefType.className_of_ofClassName read
    exact ⟨n', ⟨index, here, same ▸ named⟩, read⟩

theorem MadeBefore.next {o : Nat} (made : MadeBefore c p q o)
    (here : p.code[q]? = some (offset, i)) (leads : some r ∈ p.successors q i) :
    MadeBefore c p r o := by
  obtain ⟨passed, k, n, walk, member, makes⟩ := made
  exact ⟨q :: passed, k, n, walk.next here leads, List.mem_cons_of_mem q member, makes⟩

theorem MadeBefore.caught {o : Nat} {h : Handler} (made : MadeBefore c p q o)
    (here : p.code[q]? = some (offset, i)) (listed : h ∈ p.handlers) (starts : h.start ≤ offset)
    (stops : offset < h.stop) : MadeBefore c p h.position o := by
  obtain ⟨passed, k, n, walk, member, makes⟩ := made
  exact ⟨passed, k, n, walk.caught here listed starts stops, member, makes⟩

/-- A frame at a position that some way leads to, with unfinished objects that have been made on such
ways. -/
structure Produced (c : MethodContext) (p : Program) (size q : Nat) (f : Frame) : Prop where
  reached : ∃ passed, Walk p passed q
  sourced : f.Sourced size (MadeBefore c p q)

theorem keeps_produced (suited : Flow.Suited c size p)
    (values : ∀ h ∈ p.handlers, h.caught.Finished) : Flow.Keeps c p (Produced c p size) where
  merged q f g m produced produced' merged :=
    ⟨produced.reached, Frame.sourced_merge produced.sourced produced'.sourced.size_eq merged⟩
  caught q offset i f g h here produced listed starts stops done := by
    obtain ⟨passed, walk⟩ := produced.reached
    have sourced : f.Sourced size (MadeBefore c p h.position) :=
      produced.sourced.mono fun o made => made.caught here listed starts stops
    exact ⟨⟨passed, walk.caught here listed starts stops⟩,
      Frame.holds_withCaught sourced (values h listed).sourced done⟩
  next q offset i f g r here produced done leads := by
    obtain ⟨passed, walk⟩ := produced.reached
    refine ⟨⟨q :: passed, walk.next here leads⟩, ?_⟩
    have sourced : f.Sourced size (MadeBefore c p r) :=
      produced.sourced.mono fun o made => made.next here leads
    refine (MethodContext.guarded_effect (MethodContext.admits_sourced fun new => ?_)).holds sourced
      (MethodContext.after_eq_ok_iff.mp done)
    obtain ⟨n, makes⟩ := makes_of_suits here (suited q offset i here) new
    exact ⟨q :: passed, q, n, walk.next here leads, List.mem_cons_self, makes⟩

end Making

namespace MethodContext

open JvmClass.Frame

variable {c : MethodContext} {size offset o : Nat} {i : Instruction Handle} {m : MemberRef}
  {type : MethodType} {f g : Frame}

theorem Constructs.returns_eq_none (constructs : c.Constructs i m type) (suits : c.Suits size i) :
    type.returns = none := by
  obtain ⟨index, rfl, found⟩ := constructs.reference
  obtain ⟨k, same, _, rule⟩ := suits.operands
  have called : k.checkMethod .invokespecial index = .ok () := rule
  obtain ⟨m', found', method⟩ := CodeContext.exists_of_checkMethod called
  rw [same] at found'
  cases found.symm.trans found'
  obtain ⟨type', read, nothing⟩ :=
    (ClassFile.parse_of_getMemberRef suits.pool found).2.2 method
  cases constructs.parsed.symm.trans read
  exact nothing constructs.named

theorem Constructs.eq_retype (constructs : c.Constructs i m type) (suits : c.Suits size i)
    (receiver : f.stack[type.parameters.length]? = some (.uninitialized o))
    (done : after (c.effect offset i) f = .ok g) :
    g = retype (.uninitialized o) (.object m.owner)
      (f.withStack (f.stack.drop (type.parameters.length + 1))) := by
  obtain ⟨t, n, call⟩ := constructs.exists_call done
  cases call.receiver.symm.trans receiver
  obtain ⟨arguments, rest, stack, length, returned⟩ := call.stack
  have left : f.stack.drop (type.parameters.length + 1) = rest := by
    rw [stack, ← length]
    simp
  cases call.finishes with
  | made _ read =>
    rw [RefType.className_of_ofClassName read, constructs.returns_eq_none suits] at returned
    rw [left]
    cases returned
    rfl

end MethodContext

namespace ClassFile

variable {c : ClassFile} {position : Nat} {label : String} {s : FlowSubject} {p : Program}

theorem increasing_programOf (decoded : Listing.decode 0 s.code.bytes = .ok (s.listing, s.starts))
    (found : programOf label s = .ok p) : Search.Increasing (·.1) p.code := by
  obtain ⟨hs, rfl, _⟩ := programOf_eq_ok found
  obtain ⟨read, is, all, _, each, _, holds⟩ := Listing.holds_decode decoded
  have code : (Program.ofListing s.listing []).code.toList = _ := Program.code_ofListing holds
  have increasing : (read.map (·.1)).Pairwise (· < ·) :=
    List.pairwise_map.mpr (Listing.offsets_readAll all).1
  unfold Search.Increasing
  rw [code, ← List.pairwise_map (f := Prod.fst), List.map_fst_zip]
  · exact increasing
  · rw [List.length_map]
    exact Nat.le_of_eq each.length_eq

theorem eq_of_offset (increasing : Search.Increasing (·.1) p.code) {k k' o : Nat}
    {i i' : Instruction Handle} (here : p.code[k]? = some (o, i)) (here' : p.code[k']? = some (o, i')) :
    k = k' := by
  obtain before | same | after := Nat.lt_trichotomy k k'
  · exact absurd (increasing.lt before here here') (Nat.lt_irrefl o)
  · exact same
  · exact absurd (increasing.lt after here' here) (Nat.lt_irrefl o)

theorem unique_makes (decoded : Listing.decode 0 s.code.bytes = .ok (s.listing, s.starts))
    (found : programOf label s = .ok p) {k k' o : Nat} {n n' : String}
    (makes : Makes s.context p k o n) (makes' : Makes s.context p k' o n') : k = k' ∧ n = n' := by
  obtain ⟨index, here, named⟩ := makes.here
  obtain ⟨index', here', named'⟩ := makes'.here
  obtain rfl := eq_of_offset (increasing_programOf decoded found) here here'
  cases here.symm.trans here'
  exact ⟨rfl, Except.ok.inj (named.symm.trans named')⟩

/-- An unfinished object on which an accepted method calls a constructor was made by one new instruction
at its offset, on some way to the call, and the call makes it an object of the class that the call
names. -/
theorem retypes_as_called (rules : c.checkRules = .ok ())
    (code : c.checkCode position = .ok (.ok ())) (accepted : c.checkFlow position = .ok ())
    (subject : c.flowSubject? position = .ok (some s)) :
    ∃ p flow, c.FlowsAs position s p flow ∧ ∀ q offset i m type F o,
      p.code[q]? = some (offset, i) → s.context.Constructs i m type → flow.frame? q = some F →
      F.stack[type.parameters.length]? = some (.uninitialized o) →
        (∃ passed k n, Walk p passed q ∧ k ∈ passed ∧ Makes s.context p k o n ∧
          ∀ k' n', Makes s.context p k' o n' → k' = k ∧ n' = n) ∧
        Frame.after (s.context.effect offset i) F =
          .ok (Frame.retype (.uninitialized o) (.object m.owner)
            (F.withStack (F.stack.drop (type.parameters.length + 1)))) := by
  obtain ⟨p, entry, flow, program, entered, analysis⟩ := exists_analysis subject accepted
  have suited := suited_of_passes rules code subject program
  refine ⟨p, flow, ⟨subject, program, entry, entered, analysis.solved⟩,
    fun q offset i m type F o here constructs recorded receiver => ⟨?_, ?_⟩⟩
  · have inside : 0 < p.code.size :=
      Nat.zero_lt_of_lt (Array.getElem?_eq_some_iff.mp here).1
    have start : Produced s.context p s.code.maxLocals.toNat 0 entry :=
      ⟨⟨[], .start inside⟩, MethodContext.sourced_entryFrame entered⟩
    have produced := Flow.has_solve (keeps_produced suited analysis.values) start analysis.solved
      q F recorded
    obtain ⟨passed, k, n, walk, member, makes⟩ :=
      produced.sourced.stack _ (List.mem_of_getElem? receiver) o rfl
    exact ⟨passed, k, n, walk, member, makes, fun k' n' makes' =>
      unique_makes (decode_of_flowSubject? subject) program makes' makes⟩
  · obtain ⟨g, done, _⟩ := (analysis.settled recorded).next offset i here
    rw [done, constructs.eq_retype (suited q offset i here) receiver done]

def mintingCode : List UInt8 :=
  [0x09, 0x3F, 0xBB, 0, 2, 0x59, 0xB7, 0, 6, 0x57, 0xBB, 0, 2, 0x4D, 0xA7, 0xFF, 0xF4]

def mintingMethod : Method where
  flags := ⟨0x0009⟩
  name := 10
  descriptor := 4
  attributes := [⟨9, [0, 2, 0, 3, 0, 0, 0, 17] ++ mintingCode ++ [0, 0, 0, 0]⟩]

/-- A class that makes objects over and over.  Of two of its own the first one is finished and dropped, and
the second one is kept unfinished, next to a long number, until the next turn. -/
def minting : ClassFile where
  version := ⟨52, 0⟩
  pool := .ofConstants [.utf8 "a/Foo", .classInfo 1, .utf8 "<init>", .utf8 "()V", .nameAndType 3 4,
    .methodRef 2 5 false, .utf8 "java/lang/Object", .classInfo 7, .utf8 "Code", .utf8 "f"]
  flags := ⟨0x0021⟩
  thisClass := 2
  superClass := some 8
  interfaces := []
  fields := []
  methods := [mintingMethod]
  attributes := []

def mintingContext : MethodContext := ⟨minting.pool, "a/Foo", ⟨[], none⟩, false⟩

def mintingBody {τ : Type} (first : τ) : List (Nat × Instruction τ) :=
  [(0, .plain ⟨0x09⟩), (1, .plain ⟨0x3F⟩), (2, .constant .new 2), (5, .plain .dup),
    (6, .constant .invokespecial 6), (9, .plain .pop), (10, .constant .new 2), (13, .plain ⟨0x4D⟩),
    (14, .branch .goto first)]

def mintingFrame (kept : VType) (stack : List VType) : Frame := .ofStack #[.long, .top, kept] stack 2

theorem replays_minting : minting.Replays mintingMethod "f" "()V" mintingContext
    ⟨2, 3, mintingCode, [], []⟩ (mintingBody (-12)) ((mintingBody ⟨0, 2⟩).map (·.2)) (.empty 3 2)
    [.empty 3 2, .ofStack #[.top, .top, .top] [.long] 2, mintingFrame .top [],
      mintingFrame .top [.uninitialized 2], mintingFrame .top [.uninitialized 2, .uninitialized 2],
      mintingFrame .top [.object "a/Foo"], mintingFrame .top [],
      mintingFrame .top [.uninitialized 10], mintingFrame (.uninitialized 10) []] where
  flows := ⟨11, by decide +kernel⟩

theorem retypes_as_called_minting : ∃ s, minting.checkRules = .ok () ∧
    minting.checkCode 0 = .ok (.ok ()) ∧ minting.checkFlow 0 = .ok () ∧
    minting.flowSubject? 0 = .ok (some s) ∧ ∃ p flow, minting.FlowsAs 0 s p flow ∧
      (∃ passed k, Walk p passed 4 ∧ k ∈ passed ∧ Makes s.context p k 2 "a/Foo") ∧
      Frame.after (s.context.effect 6 (.constant .invokespecial 6 : Instruction Handle))
        (mintingFrame .top [.uninitialized 2, .uninitialized 2]) =
          .ok (mintingFrame .top [.object "a/Foo"]) := by
  obtain ⟨s, p, flow, replayed⟩ := replays_minting.replayed
  obtain ⟨p', flow', flows, retypes⟩ := retypes_as_called replays_minting.checkRules
    replays_minting.checkCode replayed.accepted replayed.flows.subject
  obtain ⟨rfl, rfl⟩ := replayed.flows.unique flows
  have constructs : s.context.Constructs (.constant .invokespecial 6)
      ⟨"a/Foo", "<init>", "()V", .method⟩ ⟨[], none⟩ := by
    rw [replayed.context]
    exact ⟨⟨6, rfl, by decide +kernel⟩, by decide +kernel, by decide +kernel⟩
  have makes : Makes s.context p' 2 2 "a/Foo" := by
    rw [replayed.context]
    exact ⟨⟨2, replayed.code 2, by decide +kernel⟩, by decide +kernel⟩
  obtain ⟨⟨passed, k, n, walk, member, made, unique⟩, retyped⟩ :=
    retypes 4 6 _ _ _ _ 2 (replayed.code 4) constructs (replayed.frame? 4) (by decide +kernel)
  obtain ⟨rfl, rfl⟩ := unique 2 "a/Foo" makes
  refine ⟨s, replays_minting.checkRules, replays_minting.checkCode, replayed.accepted,
    replayed.flows.subject, p', flow', flows, ⟨passed, 2, walk, member, makes⟩, ?_⟩
  exact retyped.trans (by decide +kernel)

def disguisedMethod : Method where
  flags := ⟨0x0009⟩
  name := 12
  descriptor := 13
  attributes := [⟨11, [0, 2, 0, 0, 0, 0, 0, 10, 0xBB, 0, 2, 0x59, 0xB7, 0, 8, 0x03, 0x2E, 0xAC,
    0, 0, 0, 0]⟩]

/-- Its method calls a constructor of arrays on a new object of the class, which is taken for an array from
then on: a number is loaded from it. -/
def disguised : ClassFile where
  version := ⟨52, 0⟩
  pool := .ofConstants [.utf8 "a/Foo", .classInfo 1, .utf8 "[I", .classInfo 3, .utf8 "<init>",
    .utf8 "()V", .nameAndType 5 6, .methodRef 4 7 false, .utf8 "java/lang/Object", .classInfo 9,
    .utf8 "Code", .utf8 "f", .utf8 "()I"]
  flags := ⟨0x0021⟩
  thisClass := 2
  superClass := some 10
  interfaces := []
  fields := []
  methods := [disguisedMethod]
  attributes := []

def disguisedContext : MethodContext :=
  ⟨disguised.pool, "a/Foo", ⟨[], some (.base .int)⟩, false⟩

def disguisedBody (τ : Type) : List (Nat × Instruction τ) :=
  [(0, .constant .new 2), (3, .plain .dup), (4, .constant .invokespecial 8), (7, .plain ⟨0x03⟩),
    (8, .plain ⟨0x2E⟩), (9, .plain ⟨0xAC⟩)]

def disguisedFrame (stack : List VType) : Frame := .ofStack #[] stack 2

theorem replays_disguised : disguised.Replays disguisedMethod "f" "()I" disguisedContext
    ⟨2, 0, [0xBB, 0, 2, 0x59, 0xB7, 0, 8, 0x03, 0x2E, 0xAC], [], []⟩ (disguisedBody Int32)
    ((disguisedBody Handle).map (·.2)) (disguisedFrame [])
    [disguisedFrame [], disguisedFrame [.uninitialized 0],
      disguisedFrame [.uninitialized 0, .uninitialized 0], disguisedFrame [.object "[I"],
      disguisedFrame [.int, .object "[I"], disguisedFrame [.int]] where
  flows := ⟨7, by decide +kernel⟩

/-- The class that the call names is not the one that the new instruction names. -/
theorem misnamed_disguised : disguised.checkRules = .ok () ∧ disguised.checkCode 0 = .ok (.ok ()) ∧
    disguised.checkFlow 0 = .ok () ∧ ∃ s p flow, disguised.FlowsAs 0 s p flow ∧
      ∃ q offset i m type F o k n, p.code[q]? = some (offset, i) ∧ s.context.Constructs i m type ∧
        flow.frame? q = some F ∧ F.stack[type.parameters.length]? = some (.uninitialized o) ∧
          Makes s.context p k o n ∧ m.owner ≠ n := by
  obtain ⟨s, p, flow, replayed⟩ := replays_disguised.replayed
  have constructs : s.context.Constructs (.constant .invokespecial 8)
      ⟨"[I", "<init>", "()V", .method⟩ ⟨[], none⟩ := by
    rw [replayed.context]
    exact ⟨⟨8, rfl, by decide +kernel⟩, by decide +kernel, by decide +kernel⟩
  have makes : Makes s.context p 0 0 "a/Foo" := by
    rw [replayed.context]
    exact ⟨⟨2, replayed.code 0, by decide +kernel⟩, by decide +kernel⟩
  exact ⟨replays_disguised.checkRules, replays_disguised.checkCode, replayed.accepted, s, p, flow,
    replayed.flows, 2, 4, _, _, _, _, 0, 0, "a/Foo", replayed.code 2, constructs, replayed.frame? 2,
    by decide +kernel, makes, by decide +kernel⟩

end ClassFile

end JvmClass
