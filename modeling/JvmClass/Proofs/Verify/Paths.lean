import JvmClass.Proofs.Verify.Fixpoint
import JvmClass.Proofs.Pool.Forms
import JvmClass.Proofs.Verify.Replay
import JvmClass.Verify.Verifier

/-! What the frames that are recorded tell about the paths through a method.  Frames do not merge
on a path, so what is known of a value there may be lost in the recorded frame.  That an array of
primitives is more than an object is the only knowledge of this kind that a check asks for, apart
from that of a receiver on which no constructor has been called. -/

namespace JvmClass

/-- A path through the code has this frame when it comes to a position.  It starts at the first
instruction and goes on to a successor, or to a handler that covers the instruction. -/
inductive Path (c : MethodContext) (p : Program) (entry : Frame) : Nat → Frame → Prop where
  | start (inside : 0 < p.code.size) : Path c p entry 0 entry
  | next {position q offset : Nat} {i : Instruction Handle} {f g : Frame}
      (path : Path c p entry position f) (here : p.code[position]? = some (offset, i))
      (done : Frame.after (c.effect offset i) f = .ok g)
      (leads : some q ∈ p.successors position i) : Path c p entry q g
  | caught {position offset : Nat} {i : Instruction Handle} {f g : Frame} {h : Handler}
      (path : Path c p entry position f) (here : p.code[position]? = some (offset, i))
      (listed : h ∈ p.handlers) (starts : h.start ≤ offset) (stops : offset < h.stop)
      (done : f.withCaught h.caught = .ok g) : Path c p entry h.position g

/-- Control has come to a position, and has executed the instructions at others on the way, the
last one first.  An instruction from which control goes to a handler is not among them. -/
inductive Walk (p : Program) : List Nat → Nat → Prop where
  | start (inside : 0 < p.code.size) : Walk p [] 0
  | next {passed : List Nat} {q r offset : Nat} {i : Instruction Handle} (walk : Walk p passed q)
      (here : p.code[q]? = some (offset, i)) (leads : some r ∈ p.successors q i) :
      Walk p (q :: passed) r
  | caught {passed : List Nat} {q offset : Nat} {i : Instruction Handle} {h : Handler}
      (walk : Walk p passed q) (here : p.code[q]? = some (offset, i)) (listed : h ∈ p.handlers)
      (starts : h.start ≤ offset) (stops : offset < h.stop) : Walk p passed h.position

/-- What is so at every point of a path: there is an instruction, control can go on wherever it
leads and to all handlers, and the instruction suits the frame, unless an array of primitives
stands where the recorded frame has an object, or a constructor returns early. -/
structure Sound (c : MethodContext) (p : Program) (s : Flow) (position : Nat) (f : Frame)
    (offset : Nat) (i : Instruction Handle) (F : Frame) : Prop where
  here : p.code[position]? = some (offset, i)
  recorded : s.frame? position = some F
  handled : ∀ h ∈ p.handlers, h.start ≤ offset → offset < h.stop →
    ∃ g, f.withCaught h.caught = .ok g
  inside : ∀ next ∈ p.successors position i, ∃ q, next = some q ∧ q < p.code.size
  suits : (∃ g, Frame.after (c.effect offset i) f = .ok g) ∨
    (∃ n s, Frame.after (c.effect offset i) f = .error (.incompatible (.object n) (.object s)) ∧
      VType.Misfit n s ∧ Frame.Loses f F s) ∨
    (i = .plain .voidReturn ∧ c.isConstructor = true ∧ f.hasUninitializedThis = true)

variable {c : MethodContext} {p : Program} {entry f : Frame} {s : Flow} {size position : Nat}
  {maxStack : UInt16}

theorem Flow.Settled.receives_next {F g : Frame} {offset q : Nat} {i : Instruction Handle}
    (settled : Settled c p size maxStack s position F)
    (below : f.Under (fun _ => True) size maxStack F)
    (here : p.code[position]? = some (offset, i)) (done : Frame.after (c.effect offset i) f = .ok g)
    (leads : some q ∈ p.successors position i) :
    q < p.code.size ∧ s.Receives size maxStack q g := by
  obtain ⟨G, done', later⟩ := settled.next _ _ here
  obtain ⟨q', same, inside, receives⟩ := later _ leads
  obtain rfl := Option.some.inj same
  have below' := MethodContext.effect_monotone below done done'
  obtain ⟨G', recorded', above⟩ := receives
  exact ⟨inside, G', recorded', below'.trans above⟩

theorem Flow.Settled.receives_caught {F g : Frame} {offset : Nat} {i : Instruction Handle}
    {h : Handler} (settled : Settled c p size maxStack s position F)
    (below : f.Under (fun _ => True) size maxStack F)
    (here : p.code[position]? = some (offset, i)) (listed : h ∈ p.handlers)
    (starts : h.start ≤ offset) (stops : offset < h.stop) (inside : h.position < p.code.size)
    (done : f.withCaught h.caught = .ok g) : s.Receives size maxStack h.position g := by
  obtain ⟨G, done', receives⟩ := settled.caught _ _ here _ listed starts stops
  obtain ⟨f', again, below'⟩ := MethodContext.withCaught_below below done'
  obtain rfl := Except.ok.inj (done.symm.trans again)
  obtain ⟨G', recorded', above⟩ := receives inside
  exact ⟨G', recorded', below'.trans above⟩

def follow (c : MethodContext) (body : List (Nat × Instruction Handle)) :
    List Nat → Nat → Frame → Option (Nat × Frame)
  | [], q, f => some (q, f)
  | r :: rs, q, f => do
    let (offset, i) ← body[q]?
    let g ← (Frame.after (c.effect offset i) f).toOption
    if some r ∈ Program.leads (Handle.standing body.length) q i then follow c body rs r g else none

theorem Path.follow {body : List (Nat × Instruction Handle)} {rs : List Nat} {q r : Nat} {f g : Frame}
    (path : Path c p entry q f) (code : ∀ q : Nat, p.code[q]? = body[q]?)
    (successors : p.successors = Program.leads (Handle.standing body.length))
    (done : JvmClass.follow c body rs q f = some (r, g)) : Path c p entry r g := by
  induction rs generalizing q f with
  | nil =>
    cases done
    exact path
  | cons r' rs ih =>
    obtain ⟨⟨offset, i⟩, here, done⟩ := Option.bind_eq_some_iff.mp done
    obtain ⟨h, after, done⟩ := Option.bind_eq_some_iff.mp done
    obtain ⟨leads, done⟩ := Option.ite_none_right_eq_some.mp done
    refine ih (path.next ((code q).trans here) (Flow.eq_ok_of_toOption after) ?_) done
    rw [successors]
    exact leads

namespace ClassFile

open Listing

def mergingCode : List UInt8 := [0x2b, 0x1c, 0x99, 0, 5, 0x57, 0x2a, 0xb0]

def mergingText : String := "([ILjava/lang/String;Z)Ljava/lang/String;"

def mergingMethod : Method where
  flags := ⟨0x0009⟩
  name := 5
  descriptor := 6
  attributes := [⟨7, [0, 2, 0, 3, 0, 0, 0, 8] ++ mergingCode ++ [0, 0, 0, 0]⟩]

/-- A class where a string and an array of numbers come to one instruction, which returns a string.
Together they are an object, which is accepted. -/
def merging : ClassFile where
  version := ⟨52, 0⟩
  pool := .ofConstants [.utf8 "a/Foo", .classInfo 1, .utf8 "java/lang/Object", .classInfo 3,
    .utf8 "f", .utf8 mergingText, .utf8 "Code"]
  flags := ⟨0x0021⟩
  thisClass := 2
  superClass := some 4
  interfaces := []
  fields := []
  methods := [mergingMethod]
  attributes := []

def mergingContext : MethodContext where
  pool := merging.pool
  thisClass := "a/Foo"
  type := ⟨[.ref (.array 1 (.base .int)), .ref (.object Name.stringObject), .base .boolean],
    some (.ref (.object Name.stringObject))⟩
  isConstructor := false

def mergingBody {τ : Type} (last : τ) : List (Nat × Instruction τ) :=
  [(0, .plain ⟨0x2b⟩), (1, .plain ⟨0x1c⟩), (2, .branch ⟨0x99⟩ last), (5, .plain .pop),
    (6, .plain ⟨0x2a⟩), (7, .plain .areturn)]

def mergingFrame (stack : List VType) : Frame :=
  .ofStack #[.object "[I", .object Name.stringObject, .int] stack 2

theorem replays_merging : merging.Replays mergingMethod "f" mergingText mergingContext
    ⟨2, 3, mergingCode, [], []⟩ (mergingBody 5) ((mergingBody ⟨0, 5⟩).map (·.2)) (mergingFrame [])
    [mergingFrame [], mergingFrame [.object Name.stringObject],
      mergingFrame [.int, .object Name.stringObject], mergingFrame [.object Name.stringObject],
      mergingFrame [], mergingFrame [.object Name.object]] where
  flows := ⟨8, by decide +kernel⟩

end ClassFile

end JvmClass
