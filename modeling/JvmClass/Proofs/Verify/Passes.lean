import JvmClass.Proofs.Code.Lifting
import JvmClass.Proofs.Instruction.Shapes
import JvmClass.Proofs.Verify.Solutions

/-! What the passes leave to the last one.  In a class that keeps its rules, the code of a method
that keeps those for code has everything that the flow of types looks up, so that no frame is
missing for any reason but the flow itself. -/

namespace JvmClass

namespace ClassFile

variable {c : ClassFile} {position : Nat} {label : String}

structure Resolves (c : ClassFile) : Prop where
  pool : checkPool c.pool = .ok ()
  named : ∃ name, c.name = .ok name
  methods : ∀ m ∈ c.methods, ∃ name descriptor type, m.nameIn c.pool = .ok name ∧
    m.descriptorIn c.pool = .ok descriptor ∧ MethodType.parse descriptor = .ok type

theorem resolves_of_checkRules (rules : c.checkRules = .ok ()) : c.Resolves := by
  obtain ⟨_, pool, others⟩ := bind_eq_ok rules
  obtain ⟨_, header, _⟩ := bind_eq_ok others
  obtain ⟨name, named, _⟩ := bind_eq_ok header
  refine ⟨pool, ⟨name, ok_of_resolved named⟩, fun m member => ?_⟩
  obtain ⟨position, here⟩ := List.mem_iff_getElem?.mp member
  obtain ⟨signature, type, keeps⟩ := declares_of_checkRules rules here
  exact ⟨signature.1, signature.2, type, keeps.named, keeps.described, keeps.parsed⟩

theorem exists_of_checkCode {code : Code} (found : c.codeToCheck? position = .ok (some code))
    (accepted : c.checkCode position = .ok (.ok ())) : ∃ b, Body.lift 0 c.pool code = .ok b ∧
      b.checkRules ⟨c.pool, c.version.major, code.maxLocals⟩ = .ok () := by
  unfold checkCode at accepted
  rw [found] at accepted
  dsimp only at accepted
  split at accepted
  · cases accepted
  · cases accepted
  · rename_i b lifted
    exact ⟨b, lifted, Except.ok.inj accepted⟩

theorem flowSubject?_of_bodiless {m : Method} (here : c.methods[position]? = some m)
    (bodiless : m.code? c.pool = .ok none) : c.flowSubject? position = .ok none := by
  unfold flowSubject?
  simp only [here, bodiless, bind, Except.bind, Except.mapError, pure, Except.pure]

theorem exists_flowSubject? {code : Code} {l : Listing} {starts : Listing.Starts}
    (resolves : c.Resolves) (found : c.codeToCheck? position = .ok (some code))
    (decoded : Listing.decode 0 code.bytes = .ok (l, starts)) :
    ∃ k isStatic, c.flowSubject? position = .ok (some ⟨k, isStatic, code, l, starts⟩) ∧
      k.pool = c.pool ∧ k.type.parameterSlots (!isStatic) ≤ code.maxLocals.toNat := by
  obtain ⟨m, here, body, enough⟩ := exists_of_codeToCheck? found
  obtain ⟨thisClass, named⟩ := resolves.named
  obtain ⟨name, descriptor, type, called, described, parsed⟩ :=
    resolves.methods m (List.mem_of_getElem? here)
  refine ⟨⟨c.pool, thisClass, type, name == Name.constructorName⟩,
    m.flags.has AccessFlags.staticBit, ?_, rfl, enough code rfl descriptor type described parsed⟩
  unfold flowSubject?
  simp only [here, body, named, called, described, parsed, decoded, bind, Except.bind,
    Except.mapError, pure, Except.pure]

theorem exists_position {id : Nat} {code : List UInt8} {l : Listing} {starts : Listing.Starts}
    {h : Handle} {offset : Nat} (decoded : Listing.decode id code = .ok (l, starts))
    (starting : starts.at? offset = some h) :
    ∃ k, (Program.ofListing l []).positions[h]? = some k := by
  obtain ⟨read, is, _, rfl, each, order, holds⟩ := Listing.holds_decode decoded
  obtain ⟨entry, listed, rfl⟩ := Option.map_eq_some_iff.mp starting
  have member : entry.2 ∈ Listing.handlesFrom id 0 read.length := by
    rw [← Listing.handles_startsOf id code.length]
    exact List.mem_map.mpr ⟨entry, Array.mem_toList_iff.mpr (Search.of_at? listed).1, rfl⟩
  rw [each.length_eq, ← order] at member
  obtain ⟨k, there⟩ := List.mem_iff_getElem?.mp member
  exact ⟨k, Program.positions_of_getElem? holds.nodup there⟩

theorem exists_catches {p : Pool} {b : Body} {r : ExceptionRange} (pool : checkPool p = .ok ())
    (rule : Body.checkHandler p b r = .ok ()) : ∃ t, Catches p r.catches t := by
  cases catches : r.catches with
  | none => exact ⟨_, .all⟩
  | some i =>
    unfold Body.checkHandler at rule
    rw [catches] at rule
    obtain ⟨name, named, _⟩ := bind_eq_ok rule
    rw [mapError_eq_ok_iff] at named
    obtain ⟨class', read⟩ := ofClassName_of_getClassName pool named
    exact ⟨_, .only named read⟩

theorem exists_handlerOf {s : FlowSubject} {b : Body} {e : ExceptionEntry} {r : ExceptionRange}
    (pool : checkPool s.context.pool = .ok ())
    (decoded : Listing.decode 0 s.code.bytes = .ok (s.listing, s.starts))
    (made : Body.rangeOf s.starts e = .ok r)
    (rule : Body.checkHandler s.context.pool b r = .ok ()) :
    ∃ h, handlerOf label s (Program.ofListing s.listing []) e = .ok h := by
  obtain ⟨start, _, made⟩ := bind_eq_ok made
  obtain ⟨last, _, made⟩ := bind_eq_ok made
  obtain ⟨target, starting, made⟩ := bind_eq_ok made
  cases made
  rw [Body.startAt_eq_ok_iff] at starting
  obtain ⟨k, there⟩ := exists_position decoded starting
  obtain ⟨t, catches⟩ := exists_catches pool rule
  exact ⟨⟨e.start.toNat, e.stop.toNat, k, t⟩, handlerOf_eq_ok_iff.mpr
    ⟨rfl, rfl, ⟨target, starting, there⟩, catches⟩⟩

variable {s : FlowSubject} {b : Body} {p : Program}

theorem exists_programOf (pool : checkPool s.context.pool = .ok ())
    (decoded : Listing.decode 0 s.code.bytes = .ok (s.listing, s.starts))
    (ranges : List.Forall₂ (fun e r => Body.rangeOf s.starts e = .ok r) s.code.handlers
      b.handlers.values)
    (rule : ∀ r ∈ b.handlers.values, Body.checkHandler s.context.pool b r = .ok ()) :
    ∃ p, programOf label s = .ok p := by
  obtain ⟨hs, found⟩ : ∃ hs, s.code.handlers.mapM
      (handlerOf label s (Program.ofListing s.listing [])) = .ok hs := by
    refine exists_mapM fun e member => ?_
    obtain ⟨r, listed, made⟩ := exists_right_of_forall₂ ranges member
    exact exists_handlerOf pool decoded made (rule r listed)
  refine ⟨{ Program.ofListing s.listing [] with handlers := hs }, ?_⟩
  unfold programOf
  simp only [found, bind, Except.bind, pure, Except.pure]

theorem suited_of_checkOperands {k : CodeContext} (pool : checkPool s.context.pool = .ok ())
    (decoded : Listing.decode 0 s.code.bytes = .ok (s.listing, s.starts))
    (found : programOf label s = .ok p) (same : k.pool = s.context.pool)
    (rule : ∀ x ∈ s.listing.toList, k.checkOperands x.2 = .ok ()) :
    Flow.Suited s.context k.maxLocals.toNat p := by
  intro q offset i here
  obtain ⟨hs, rfl, _⟩ := programOf_eq_ok found
  obtain ⟨read, is, all, _, each, _, holds⟩ := Listing.holds_decode decoded
  have code : (Program.ofListing s.listing []).code.toList = _ := Program.code_ofListing holds
  have member : (offset, i) ∈ (read.map (·.1)).zip is := by
    rw [← code]
    exact Array.mem_toList_iff.mpr (Array.mem_of_getElem? here)
  obtain ⟨r, listed, linked⟩ := exists_left_of_forall₂ each (List.of_mem_zip member).2
  obtain ⟨h, stands, _, stored⟩ := exists_left_of_forall₂ holds.stored member
  have shaped := (Listing.wellShaped_of_readAll all r listed).mapM linked
  refine ⟨pool, shaped.checkShape, k, same, rfl, rule (h, i) ?_⟩
  exact List.mem_filterMap.mpr ⟨h, stands, by rw [stored]; rfl⟩

def IsOfFlow (label : String) (e : Rejection) : Prop :=
  ∃ offset i? why, e = .inFlow label offset i? why ∧ why.isOfFlow = true

theorem isOfFlow_faultAt {why : FlowFault} (kind : why.isOfFlow = true) (q : Nat) :
    IsOfFlow label (faultAt label p q why) := by
  unfold faultAt
  split
  · exact ⟨_, _, why, rfl, kind⟩
  · exact ⟨_, _, why, rfl, kind⟩

theorem isOfFlow_of_entryFrame {k : MethodContext} {maxLocals maxStack : UInt16} {isStatic : Bool}
    {why : FlowFault} (enough : k.type.parameterSlots (!isStatic) ≤ maxLocals.toNat)
    (failed : k.entryFrame maxLocals maxStack isStatic = .error why) : why.isOfFlow = true :=
  have guarded := MethodContext.guarded_entry (d := .usable _) (fun _ => trivial)
    MethodContext.receiverType_ne_top fun _ : True => enough
  guarded.isOfFlow_after MethodContext.usable_empty trivial failed

theorem isOfFlow_of_solveFlow {e : Rejection} (program : programOf label s = .ok p)
    (enough : s.context.type.parameterSlots (!s.isStatic) ≤ s.code.maxLocals.toNat)
    (suited : Flow.Suited s.context s.code.maxLocals.toNat p)
    (failed : solveFlow label s = .error e) : IsOfFlow label e := by
  unfold solveFlow at failed
  rw [program] at failed
  cases entered : s.context.entryFrame s.code.maxLocals s.code.maxStack s.isStatic with
  | error why =>
    rw [entered] at failed
    cases failed
    exact isOfFlow_faultAt (isOfFlow_of_entryFrame enough entered) 0
  | ok entry =>
    rw [entered] at failed
    have keeps : Flow.Keeps s.context p fun _ => Frame.Usable s.code.maxLocals.toNat :=
      Flow.keeps_usable (finished_of_programOf program)
    have guarded := Flow.guarded_solve keeps (MethodContext.usable_entryFrame entered)
    cases solved : Flow.solve s.context p entry with
    | ok flow =>
      simp only [solved, bind, Except.bind, Except.mapError] at failed
      cases failed
    | error fault =>
      simp only [solved, bind, Except.bind, Except.mapError] at failed
      cases failed
      have kind := guarded.faults suited.sane fault.2 (by rw [solved]; rfl)
      exact isOfFlow_faultAt kind fault.1

/-- The code of a method that passes has a program whose instructions suit it, and room for the
parameters. -/
theorem exists_suited_of_passes {code : Code} (label : String) (rules : c.checkRules = .ok ())
    (found : c.codeToCheck? position = .ok (some code))
    (accepted : c.checkCode position = .ok (.ok ())) :
    ∃ s p, c.flowSubject? position = .ok (some s) ∧ programOf label s = .ok p ∧
      s.context.type.parameterSlots (!s.isStatic) ≤ s.code.maxLocals.toNat ∧
        Flow.Suited s.context s.code.maxLocals.toNat p := by
  have resolves := resolves_of_checkRules rules
  obtain ⟨b, lifted, checked⟩ := exists_of_checkCode found accepted
  obtain ⟨_, handlers, operands⟩ := bind_eq_ok checked
  rw [forM_eq_ok_iff] at handlers operands
  obtain ⟨l, starts, decoded, lifts⟩ := Body.lifts_of_lift lifted
  obtain ⟨k, isStatic, subject, pool, enough⟩ := exists_flowSubject? resolves found decoded
  have known : checkPool k.pool = .ok () := pool ▸ resolves.pool
  obtain ⟨p, program⟩ : ∃ p, programOf label ⟨k, isStatic, code, l, starts⟩ = .ok p := by
    refine exists_programOf known decoded lifts.ranges fun r listed => ?_
    have rule := handlers r listed
    rwa [← pool] at rule
  refine ⟨_, p, subject, program, enough, ?_⟩
  refine suited_of_checkOperands (k := ⟨c.pool, c.version.major, code.maxLocals⟩) known decoded
    program pool.symm fun x listed => ?_
  rw [← lifts.listing.toList_eq] at listed
  exact mapError_eq_ok_iff.mp (operands x listed)

theorem suited_of_passes (rules : c.checkRules = .ok ())
    (accepted : c.checkCode position = .ok (.ok ())) (subject : c.flowSubject? position = .ok (some s))
    (program : programOf label s = .ok p) :
    Flow.Suited s.context s.code.maxLocals.toNat p := by
  obtain ⟨m, _, _, here, is⟩ := flowSubject?_eq_some_iff.mp subject
  obtain ⟨code, found⟩ : ∃ code, c.codeToCheck? position = .ok (some code) := by
    cases found : c.codeToCheck? position with
    | error why =>
      unfold checkCode at accepted
      rw [found] at accepted
      cases accepted
    | ok code? =>
      obtain ⟨m', here', body, _⟩ := exists_of_codeToCheck? found
      cases here.symm.trans here'
      cases is.code.symm.trans body
      exact ⟨_, rfl⟩
  obtain ⟨s', p', subject', program', _, suited⟩ :=
    exists_suited_of_passes label rules found accepted
  cases subject.symm.trans subject'
  cases program.symm.trans program'
  exact suited

/-- In a class that keeps its rules, a method whose code keeps those for code is accepted by the
last pass, or rejected for a fault that the rules do not rule out. -/
theorem checkFlow_of_passes (rules : c.checkRules = .ok ())
    (accepted : c.checkCode position = .ok (.ok ())) :
    c.checkFlow position = .ok () ∨ ∃ offset i? why,
      c.checkFlow position = .error (.inFlow (c.methodLabel position) offset i? why) ∧
        why.isOfFlow = true := by
  cases found : c.codeToCheck? position with
  | error why =>
    unfold checkCode at accepted
    rw [found] at accepted
    cases accepted
  | ok code? =>
    cases code? with
    | none =>
      obtain ⟨m, here, bodiless, _⟩ := exists_of_codeToCheck? found
      left
      unfold checkFlow
      rw [flowSubject?_of_bodiless here bodiless]
      rfl
    | some code =>
      obtain ⟨s, p, subject, program, enough, suited⟩ :=
        exists_suited_of_passes (c.methodLabel position) rules found accepted
      rw [checkFlow_of_subject subject]
      cases solved : solveFlow (c.methodLabel position) s with
      | ok flow => exact .inl rfl
      | error e =>
        obtain ⟨offset, i?, why, rfl, kind⟩ := isOfFlow_of_solveFlow program enough suited solved
        exact .inr ⟨offset, i?, why, rfl, kind⟩

theorem checkFlow_of_passes_merging : merging.checkRules = .ok () ∧
    merging.checkCode 0 = .ok (.ok ()) ∧
    (merging.checkFlow 0 = .ok () ∨ ∃ offset i? why,
      merging.checkFlow 0 = .error (.inFlow (merging.methodLabel 0) offset i? why) ∧
        why.isOfFlow = true) :=
  ⟨replays_merging.checkRules, replays_merging.checkCode,
    checkFlow_of_passes replays_merging.checkRules replays_merging.checkCode⟩

end ClassFile

end JvmClass
