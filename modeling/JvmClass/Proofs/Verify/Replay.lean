import JvmClass.Proofs.Verify.Members
import JvmClass.Proofs.Verify.Programs

/-! Analyses that can be run again.  In code without handlers the visits of an analysis are counted, and
handles go to positions without a table, so that the frames it records are computed.  A class with a
single method is accepted as soon as this comes to an end. -/

namespace JvmClass

/-- Where the instructions of the first listing stand that are not the result of edits. -/
def Handle.standing (n : Nat) (h : Handle) : Option Nat :=
  if h.listing = 0 ∧ h.number < n then some h.number else none

theorem Program.positions_eq_standing {l : Listing} {hs : List Handler} {n : Nat}
    (nodup : l.order.toList.Nodup) (order : l.order.toList = Listing.handlesFrom 0 0 n) (h : Handle) :
    (ofListing l hs).positions[h]? = h.standing n := by
  unfold Handle.standing
  split
  · rename_i first
    obtain ⟨listing, number⟩ := h
    obtain ⟨rfl, inside⟩ : listing = 0 ∧ number < n := first
    refine positions_of_getElem? nodup ?_
    simp [order, Listing.handlesFrom, inside]
  · rename_i other
    refine Option.eq_none_iff_forall_ne_some.mpr fun k found => other ?_
    have member := List.mem_of_getElem? (getElem?_of_positions nodup found)
    rw [order, Listing.mem_handlesFrom] at member
    exact ⟨member.1, by omega⟩

namespace Flow

variable {c : MethodContext} {p : Program} {f g : Frame} {s t u : Flow} {position offset n : Nat}
  {i : Instruction Handle} {positions : Handle → Option Nat}

theorem visit_of_parts (here : p.code[position]? = some (offset, i))
    (found : s.frame? position = some f) (unhandled : p.handlers = [])
    (done : Frame.after (c.effect offset i) f = .ok g) :
    visit c p position s = s.flowOn p.code.size g (p.successors position i) := by
  unfold visit
  rw [here, found]
  dsimp only
  rw [unhandled, done]
  simp only [flowIntoHandlers, bind, Except.bind]

theorem run_of_visit {frames : Array (Option Frame)} {queued : Array Bool} {left : List Nat}
    (visited : visit c p position ⟨frames, queued.setIfInBounds position false, left⟩ = .ok t)
    (done : run c p t = .ok u) : run c p ⟨frames, queued, position :: left⟩ = .ok u := by
  rw [run]
  split
  · rename_i failed
    rw [visited] at failed
    cases failed
  · rename_i visited'
    obtain rfl := Except.ok.inj (visited.symm.trans visited')
    exact done

def replay (c : MethodContext) (code : Array (Nat × Instruction Handle))
    (positions : Handle → Option Nat) : Nat → Flow → Option Flow
  | 0, _ => none
  | _ + 1, ⟨frames, queued, []⟩ => some ⟨frames, queued, []⟩
  | n + 1, ⟨frames, queued, position :: left⟩ => do
    let s : Flow := ⟨frames, queued.setIfInBounds position false, left⟩
    let (offset, i) ← code[position]?
    let f ← s.frame? position
    let g ← (Frame.after (c.effect offset i) f).toOption
    let t ← (s.flowOn code.size g (Program.leads positions position i)).toOption
    replay c code positions n t

theorem eq_ok_of_toOption {ε α : Type} {x : Except ε α} {a : α} (found : x.toOption = some a) :
    x = .ok a := by
  cases x with
  | error e => cases found
  | ok b => exact congrArg Except.ok (Option.some.inj found)

theorem run_of_replay (handlers : p.handlers = []) (same : ∀ h, p.positions[h]? = positions h)
    (done : replay c p.code positions n s = some t) : run c p s = .ok t := by
  induction n generalizing s with
  | zero => cases done
  | succ n ih =>
    obtain ⟨frames, queued, _ | ⟨position, left⟩⟩ := s
    · cases done
      exact Flow.run.eq_1 ..
    · obtain ⟨⟨offset, i⟩, here, done⟩ := Option.bind_eq_some_iff.mp done
      obtain ⟨f, found, done⟩ := Option.bind_eq_some_iff.mp done
      obtain ⟨g, after, done⟩ := Option.bind_eq_some_iff.mp done
      obtain ⟨u, flowed, done⟩ := Option.bind_eq_some_iff.mp done
      have visited := visit_of_parts here found handlers (eq_ok_of_toOption after)
      have leads : p.successors position i = Program.leads positions position i :=
        congrArg (Program.leads · position i) (funext same)
      rw [leads, eq_ok_of_toOption flowed] at visited
      exact run_of_visit visited (ih done)

def replayFrom (c : MethodContext) (code : Array (Nat × Instruction Handle)) (entry : Frame) (n : Nat) :
    Option (Array (Option Frame)) := do
  let s ← ((empty code.size).flowInto 0 entry).toOption
  let t ← replay c code (Handle.standing code.size) n s
  return t.frames

theorem exists_solve_of_replayFrom {frames : Array (Option Frame)} (handlers : p.handlers = [])
    (same : ∀ h : Handle, p.positions[h]? = h.standing p.code.size)
    (done : replayFrom c p.code f n = some frames) :
    ∃ flow, solve c p f = .ok flow ∧ flow.frames = frames := by
  obtain ⟨s, started, done⟩ := Option.bind_eq_some_iff.mp done
  obtain ⟨t, ended, done⟩ := Option.bind_eq_some_iff.mp done
  refine ⟨t, ?_, Option.some.inj done⟩
  unfold solve
  rw [eq_ok_of_toOption started]
  exact run_of_replay handlers same ended

end Flow

namespace ClassFile

open Listing

/-- A class with a single method, which has no handlers, and the frames in front of its instructions. -/
structure Replays (c : ClassFile) (m : Method) (name descriptor : String) (k : MethodContext)
    (code : Code) (read : List (Nat × Instruction Int32)) (is : List (Instruction Handle))
    (entry : Frame) (fs : List Frame) : Prop where
  pool : checkPool c.pool = .ok () := by decide +kernel
  header : checkHeader c = .ok () := by decide +kernel
  fields : checkFields c = .ok () := by decide +kernel
  only : c.methods = [m] := by rfl
  rules : MethodRules c 0 m name descriptor k.type := by decide +kernel
  length : c.codeToCheck? 0 = .ok (some code) := by decide +kernel
  unhandled : code.handlers = [] := by rfl
  bare : code.attributes = [] := by rfl
  all : readAll (.ofBytes code.bytes) = .ok read := by decide +kernel
  linked : read.mapM (fun r => linkOne (startsOf 0 code.bytes.length read) r.1 r.2) = .ok is := by
    decide +kernel
  operands : ∀ i ∈ is,
    (CodeContext.mk c.pool c.version.major code.maxLocals).checkOperands i = .ok () := by
    decide +kernel
  constants : k.pool = c.pool := by rfl
  constructor : k.isConstructor = (name == Name.constructorName) := by decide +kernel
  thisClass : c.name = .ok k.thisClass := by decide +kernel
  entered : k.entryFrame code.maxLocals code.maxStack (m.flags.has AccessFlags.staticBit) =
    .ok entry := by
    decide +kernel
  flows : ∃ n, Flow.replayFrom k ((read.map (·.1)).zip is).toArray entry n =
    some (fs.map some).toArray

structure Replayed (c : ClassFile) (k : MethodContext) (body : List (Nat × Instruction Handle))
    (entry : Frame) (fs : List Frame) (s : FlowSubject) (p : Program) (flow : Flow) : Prop where
  flows : c.FlowsAs 0 s p flow
  accepted : c.checkFlow 0 = .ok ()
  context : s.context = k
  entered : s.context.entryFrame s.code.maxLocals s.code.maxStack s.isStatic = .ok entry
  code : ∀ q : Nat, p.code[q]? = body[q]?
  successors : p.successors = Program.leads (Handle.standing body.length)
  frames : flow.frames = (fs.map some).toArray

variable {c : ClassFile} {m : Method} {name descriptor : String} {k : MethodContext} {code : Code}
  {read : List (Nat × Instruction Int32)} {is : List (Instruction Handle)} {entry : Frame}
  {fs : List Frame}

theorem Replays.checkRules (runs : c.Replays m name descriptor k code read is entry fs) :
    c.checkRules = .ok () :=
  checkRules_of_method runs.pool runs.header runs.fields runs.only runs.rules

theorem Replays.checkCode (runs : c.Replays m name descriptor k code read is entry fs) :
    c.checkCode 0 = .ok (.ok ()) := by
  obtain ⟨l, decoded, _, holds⟩ := decode_of_linked runs.all (mapM_eq_ok_iff.mp runs.linked)
  have lifted : Body.lift 0 c.pool code =
      .ok { Body.empty 0 code.maxStack code.maxLocals with listing := l } := by
    unfold Body.lift
    rw [decoded, runs.unhandled, runs.bare]
    rfl
  have operands : ∀ x ∈ l.toList,
      (CodeContext.mk c.pool c.version.major code.maxLocals).checkOperands x.2 = .ok () := by
    intro x listed
    obtain ⟨h, stands, found⟩ := List.mem_filterMap.mp listed
    obtain ⟨y, member, _, stored⟩ := exists_right_of_forall₂ holds.stored stands
    rw [stored] at found
    cases found
    exact runs.operands _ (List.of_mem_zip member).2
  unfold ClassFile.checkCode
  rw [runs.length]
  dsimp only
  rw [lifted]
  refine congrArg _ (forM_eq_ok_iff.mpr fun x listed => ?_)
  exact mapError_eq_ok_iff.mpr (operands x listed)

theorem Replayed.leads {body : List (Nat × Instruction Handle)} {s : FlowSubject} {p : Program}
    {flow : Flow} (replayed : c.Replayed k body entry fs s p flow) {q r : Nat} {i : Instruction Handle}
    (leads : some r ∈ Program.leads (Handle.standing body.length) q i) :
    some r ∈ p.successors q i := by
  rw [replayed.successors]
  exact leads

theorem Replayed.frame? {body : List (Nat × Instruction Handle)} {s : FlowSubject} {p : Program}
    {flow : Flow} (replayed : c.Replayed k body entry fs s p flow) (q : Nat) :
    flow.frame? q = fs[q]? := by
  rw [Flow.frame?, replayed.frames, List.getElem?_toArray, List.getElem?_map]
  cases fs[q]? <;> rfl

theorem Replays.flowSubject? {l : Listing} {starts : Starts}
    (runs : c.Replays m name descriptor k code read is entry fs)
    (decoded : decode 0 code.bytes = .ok (l, starts)) : c.flowSubject? 0 =
      .ok (some ⟨k, m.flags.has AccessFlags.staticBit, code, l, starts⟩) := by
  have here : c.methods[0]? = some m := by
    rw [runs.only]
    rfl
  obtain ⟨m', here', body, _⟩ := exists_of_codeToCheck? runs.length
  cases here.symm.trans here'
  exact flowSubject?_eq_some_iff.mpr ⟨m, name, descriptor, here, body, runs.thisClass,
    runs.rules.named, runs.rules.described, runs.rules.parsed, decoded, runs.constants,
    runs.constructor, rfl⟩

theorem programOf_of_unhandled {label : String} {s : FlowSubject} (unhandled : s.code.handlers = []) :
    programOf label s = .ok (.ofListing s.listing []) := by
  unfold programOf
  rw [unhandled]
  rfl

theorem Replays.replayed (runs : c.Replays m name descriptor k code read is entry fs) :
    ∃ s p flow, c.Replayed k ((read.map (·.1)).zip is) entry fs s p flow := by
  have each := mapM_eq_ok_iff.mp runs.linked
  obtain ⟨l, decoded, order, holds⟩ := decode_of_linked runs.all each
  let s : FlowSubject := ⟨k, m.flags.has AccessFlags.staticBit, code, l,
    startsOf 0 code.bytes.length read⟩
  let p := Program.ofListing l []
  let body := (read.map (·.1)).zip is
  have listed : p.code = body.toArray := by
    have code : p.code.toList = body := Program.code_ofListing holds
    rw [← code, Array.toArray_toList]
  have size : p.code.size = body.length := by rw [listed, List.size_toArray]
  have positions (h : Handle) : p.positions[h]? = h.standing body.length := by
    rw [List.length_zip, List.length_map, each.length_eq, Nat.min_self]
    exact Program.positions_eq_standing holds.nodup order h
  obtain ⟨n, frames⟩ := runs.flows
  obtain ⟨flow, solved, recorded⟩ :=
    Flow.exists_solve_of_replayFrom (p := p) rfl (size ▸ positions) (listed ▸ frames)
  have flows : c.FlowsAs 0 s p flow :=
    ⟨runs.flowSubject? decoded, programOf_of_unhandled runs.unhandled, entry, runs.entered, solved⟩
  refine ⟨s, p, flow, flows, (checkFlow_eq_ok_iff flows.subject).mpr ⟨p, flow, flows⟩, rfl,
    runs.entered, fun q => ?_, congrArg Program.leads (funext positions), recorded⟩
  rw [listed, List.getElem?_toArray]

end ClassFile

end JvmClass
