import JvmClass.Proofs.Code.Layout
import JvmClass.Proofs.Code.Linking
import JvmClass.Proofs.Code.Recoding
import JvmClass.Verify.FlowRules

/-! The program of a listing that was read of a code array has all the instructions that were
read, each with the offset where it was. -/

namespace JvmClass

namespace Listing

variable {l m : Listing} {id : Nat} {read : List (Nat × Instruction Int32)} {starts : Starts}
  {o p : Offsets} {code : List UInt8} {h : Handle}

theorem starts_linkAll (linked : linkAll starts read l o = .ok (m, p)) :
    List.Forall₂ (fun h r => p.starts[h]? = some r.1) (handlesFrom l.id l.fresh read.length) read ∧
      ∀ h : Handle, h.number < l.fresh → p.starts[h]? = o.starts[h]? := by
  induction read generalizing l o with
  | nil =>
    cases linked
    exact ⟨.nil, fun _ _ => rfl⟩
  | cons r read ih =>
    obtain ⟨i, first, linked⟩ := bind_eq_ok linked
    obtain ⟨others, older⟩ := ih linked
    refine ⟨.cons ?_ others, fun h before => ?_⟩
    · rw [older _ (Nat.lt_succ_self l.fresh)]
      exact Std.HashMap.getElem?_insert_self
    · rw [older h (Nat.lt_succ_of_lt before)]
      have different : (⟨l.id, l.fresh⟩ : Handle) ≠ h := by
        rintro rfl
        exact Nat.lt_irrefl _ before
      change (o.starts.insert ⟨l.id, l.fresh⟩ r.1)[h]? = _
      rw [Std.HashMap.getElem?_insert, beq_false_of_ne different]
      rfl

/-- The instructions of a listing with their offsets, in order. -/
structure Holds (l : Listing) (is : List (Nat × Instruction Handle)) : Prop where
  nodup : l.order.toList.Nodup
  stored : List.Forall₂ (fun h p => l.offset? h = some p.1 ∧ l.get? h = some p.2)
    l.order.toList is

theorem holds_decode (decoded : decode id code = .ok (l, starts)) : ∃ read is,
    readAll (.ofBytes code) = .ok read ∧ starts = startsOf id code.length read ∧
      List.Forall₂ (fun r i => linkOne starts r.1 r.2 = .ok i) read is ∧
      l.order.toList = handlesFrom id 0 is.length ∧ l.Holds ((read.map (·.1)).zip is) := by
  obtain ⟨read, all, decoded⟩ := bind_eq_ok decoded
  obtain ⟨⟨m, offsets⟩, linked, decoded⟩ := bind_eq_ok decoded
  cases decoded
  obtain ⟨is, each, placed, _⟩ := linkAll_eq_ok linked
  obtain ⟨located, _⟩ := starts_linkAll linked
  subst placed
  have order : (placeAll is (empty id)).order.toList = handlesFrom id 0 is.length :=
    order_placeAll is (empty id)
  refine ⟨read, is, all, rfl, each, order, ?_, ?_⟩
  · exact ((coherent_empty id).toIndexed.placeAll).nodup
  · change List.Forall₂ _ (placeAll is (empty id)).order.toList _
    rw [order]
    rw [each.length_eq] at located
    have located' : List.Forall₂ (fun h n => offsets.starts[h]? = some n)
        (handlesFrom id 0 is.length) (read.map (·.1)) := List.forall₂_map_right_iff.mpr located
    exact forall₂_zip located' (get?_placeAll is (empty id))

theorem decode_of_linked (all : readAll (.ofBytes code) = .ok read)
    (each : List.Forall₂ (fun r i => linkOne (startsOf id code.length read) r.1 r.2 = .ok i)
      read is) : ∃ l, decode id code = .ok (l, startsOf id code.length read) ∧
      l.order.toList = handlesFrom id 0 is.length ∧ l.Holds ((read.map (·.1)).zip is) := by
  obtain ⟨p, linked, _⟩ := linkAll_of_linkOne (l := empty id) (o := ⟨∅, code.length⟩) each
  have decoded : decode id code =
      .ok ({ placeAll is (empty id) with offsets? := some p }, startsOf id code.length read) := by
    unfold decode
    rw [all]
    change (linkAll (startsOf id code.length read) read (empty id) ⟨∅, code.length⟩ >>= _) = _
    rw [linked]
    rfl
  obtain ⟨read', is', all', _, each', order, holds⟩ := holds_decode decoded
  obtain rfl := Except.ok.inj (all.symm.trans all')
  have same := (mapM_eq_ok_iff.mpr each).symm.trans (mapM_eq_ok_iff.mpr each')
  obtain rfl := Except.ok.inj same
  exact ⟨_, decoded, order, holds⟩

end Listing

namespace Program

variable {l : Listing} {is : List (Nat × Instruction Handle)} {hs : List Handler} {h : Handle}
  {k : Nat}

theorem filterMap_of_forall₂ {α β : Type} {f : α → Option β} {as : List α} {bs : List β}
    (each : List.Forall₂ (fun a b => f a = some b) as bs) : as.filterMap f = bs := by
  induction each with
  | nil => rfl
  | cons first _ ih => rw [List.filterMap_cons_some first, ih]

theorem code_ofListing (holds : l.Holds is) : (ofListing l hs).code.toList = is := by
  change l.toList.filterMap _ = is
  rw [Listing.toList, List.filterMap_filterMap]
  refine filterMap_of_forall₂ (holds.stored.imp fun h p here => ?_)
  rw [here.2]
  change (l.offset? h).map _ = some p
  rw [here.1]
  rfl

theorem positions_of_getElem? (nodup : l.order.toList.Nodup)
    (here : l.order.toList[k]? = some h) : (ofListing l hs).positions[h]? = some k := by
  have distinct : (l.order.toList.zipIdx.map Prod.fst).Pairwise fun a b => (a == b) = false := by
    rw [List.zipIdx_map_fst]
    exact nodup.imp beq_false_of_ne
  exact Std.HashMap.getElem?_ofList_of_mem (k := h) BEq.rfl (List.pairwise_map.mp distinct)
    (List.mem_zipIdx_iff_getElem?.mpr here)

theorem getElem?_of_positions (nodup : l.order.toList.Nodup)
    (found : (ofListing l hs).positions[h]? = some k) : l.order.toList[k]? = some h := by
  by_cases member : h ∈ l.order.toList
  · obtain ⟨j, here⟩ := List.mem_iff_getElem?.mp member
    obtain rfl := Option.some.inj ((positions_of_getElem? nodup here).symm.trans found)
    exact here
  · have absent : (ofListing l hs).positions[h]? = none := by
      refine Std.HashMap.getElem?_ofList_of_contains_eq_false ?_
      rw [List.zipIdx_map_fst]
      simpa using member
    rw [absent] at found
    cases found

end Program

namespace ClassFile

variable {c : ClassFile} {s : FlowSubject} {p : Program} {position : Nat} {label : String}

structure IsSubject (c : ClassFile) (m : Method) (name descriptor : String) (s : FlowSubject) :
    Prop where
  code : m.code? c.pool = .ok (some s.code)
  thisClass : c.name = .ok s.context.thisClass
  named : m.nameIn c.pool = .ok name
  described : m.descriptorIn c.pool = .ok descriptor
  parsed : MethodType.parse descriptor = .ok s.context.type
  decoded : Listing.decode 0 s.code.bytes = .ok (s.listing, s.starts)
  pool : s.context.pool = c.pool
  constructor : s.context.isConstructor = (name == Name.constructorName)
  static : s.isStatic = m.flags.has AccessFlags.staticBit

theorem flowSubject?_eq_some_iff : c.flowSubject? position = .ok (some s) ↔
    ∃ m name descriptor, c.methods[position]? = some m ∧ IsSubject c m name descriptor s := by
  unfold flowSubject?
  constructor
  · intro subject
    cases here : c.methods[position]? with
    | none =>
      rw [here] at subject
      cases subject
    | some m =>
      rw [here] at subject
      obtain ⟨code?, code, subject⟩ := bind_eq_ok subject
      cases code? with
      | none => cases subject
      | some code' =>
        obtain ⟨thisClass, called, subject⟩ := bind_eq_ok subject
        obtain ⟨name, named, subject⟩ := bind_eq_ok subject
        obtain ⟨descriptor, described, subject⟩ := bind_eq_ok subject
        obtain ⟨type, parsed, subject⟩ := bind_eq_ok subject
        obtain ⟨⟨listing, starts⟩, decoded, subject⟩ := bind_eq_ok subject
        cases subject
        rw [mapError_eq_ok_iff] at code called named described parsed decoded
        exact ⟨m, name, descriptor, rfl, code, called, named, described, parsed, decoded, rfl, rfl,
          rfl⟩
  · rintro ⟨m, name, descriptor, here, is⟩
    obtain ⟨⟨pool, thisClass, type, isConstructor⟩, isStatic, code, listing, starts⟩ := s
    obtain ⟨found, called, named, described, parsed, decoded, rfl, rfl, rfl⟩ := is
    simp only [here, found, called, named, described, parsed, decoded, bind, Except.bind,
      Except.mapError, pure, Except.pure]

structure FlowsAs (c : ClassFile) (position : Nat) (s : FlowSubject) (p : Program) (flow : Flow) :
    Prop where
  subject : c.flowSubject? position = .ok (some s)
  program : programOf (c.methodLabel position) s = .ok p
  solved : ∃ entry, s.context.entryFrame s.code.maxLocals s.code.maxStack s.isStatic = .ok entry ∧
    Flow.solve s.context p entry = .ok flow

theorem FlowsAs.unique {p' : Program} {flow flow' : Flow} (flows : c.FlowsAs position s p flow)
    (flows' : c.FlowsAs position s p' flow') : p' = p ∧ flow' = flow := by
  cases flows.program.symm.trans flows'.program
  obtain ⟨entry, entered, solved⟩ := flows.solved
  obtain ⟨entry', entered', solved'⟩ := flows'.solved
  cases entered.symm.trans entered'
  cases solved.symm.trans solved'
  exact ⟨rfl, rfl⟩

theorem solveFlow_eq_ok_iff {flow : Flow} : solveFlow label s = .ok flow ↔
    ∃ p, programOf label s = .ok p ∧
      ∃ entry, s.context.entryFrame s.code.maxLocals s.code.maxStack s.isStatic = .ok entry ∧
        Flow.solve s.context p entry = .ok flow := by
  unfold solveFlow
  simp only [bind_eq_ok_iff, mapError_eq_ok_iff]

theorem checkFlow_of_subject (subject : c.flowSubject? position = .ok (some s)) :
    c.checkFlow position = discard (solveFlow (c.methodLabel position) s) := by
  unfold checkFlow
  rw [subject]
  rfl

theorem checkFlow_eq_ok_iff (subject : c.flowSubject? position = .ok (some s)) :
    c.checkFlow position = .ok () ↔ ∃ p flow, c.FlowsAs position s p flow := by
  rw [checkFlow_of_subject subject]
  constructor
  · intro accepted
    obtain ⟨flow, done, _⟩ := map_eq_ok_iff.mp accepted
    obtain ⟨p, program, solved⟩ := solveFlow_eq_ok_iff.mp done
    exact ⟨p, flow, subject, program, solved⟩
  · rintro ⟨p, flow, flows⟩
    have done := solveFlow_eq_ok_iff.mpr ⟨p, flows.program, flows.solved⟩
    exact map_eq_ok_iff.mpr ⟨flow, done, rfl⟩

theorem decode_of_flowSubject? (subject : c.flowSubject? position = .ok (some s)) :
    Listing.decode 0 s.code.bytes = .ok (s.listing, s.starts) := by
  obtain ⟨_, _, _, _, is⟩ := flowSubject?_eq_some_iff.mp subject
  exact is.decoded

inductive Catches (pool : Pool) : Option UInt16 → VType → Prop where
  | all : Catches pool none (.object Name.throwable)
  | only {i : UInt16} {name : String} {r : RefType} (named : pool.getClassName i = .ok name)
      (read : RefType.ofClassName name = .ok r) : Catches pool (some i) (.object r.className)

theorem caughtType_eq_ok_iff {pool : Pool} {blame : FlowFault → Rejection} {catches : Option UInt16}
    {t : VType} : caughtType pool blame catches = .ok t ↔ Catches pool catches t := by
  constructor
  · intro found
    cases catches with
    | none =>
      cases found
      exact .all
    | some i =>
      obtain ⟨name, named, found⟩ := bind_eq_ok found
      rw [mapError_eq_ok_iff] at named found
      obtain ⟨r, read, rfl⟩ := Descriptor.eq_ok_of_map found
      exact .only named read
  · intro catches
    cases catches with
    | all => rfl
    | only named read =>
      unfold caughtType VType.ofClassName
      simp only [named, read, bind, Except.bind, Except.mapError, Except.map]

/-- The handler that an entry of the exception table stands for, in a program. -/
structure StandsFor (s : FlowSubject) (p : Program) (e : ExceptionEntry) (h : Handler) : Prop where
  start : h.start = e.start.toNat
  stop : h.stop = e.stop.toNat
  enters : ∃ t, s.starts.at? e.handler.toNat = some t ∧ p.positions[t]? = some h.position
  catches : Catches s.context.pool e.catches h.caught

theorem handlerOf_eq_ok_iff {e : ExceptionEntry} {h : Handler} :
    handlerOf label s p e = .ok h ↔ StandsFor s p e h := by
  unfold handlerOf
  constructor
  · intro found
    cases here : (s.starts.at? e.handler.toNat).bind (p.positions[·]?) with
    | none =>
      rw [here] at found
      cases found
    | some position =>
      rw [here] at found
      obtain ⟨caught, type, found⟩ := bind_eq_ok found
      cases found
      exact ⟨rfl, rfl, Option.bind_eq_some_iff.mp here, caughtType_eq_ok_iff.mp type⟩
  · obtain ⟨start, stop, position, caught⟩ := h
    rintro ⟨rfl, rfl, ⟨t, starts, stands⟩, catches⟩
    have type : caughtType s.context.pool (faultAt label p position) e.catches = .ok caught :=
      caughtType_eq_ok_iff.mpr catches
    simp only [starts, stands, type, Option.bind_some, bind, Except.bind, pure, Except.pure]

theorem programOf_eq_ok (found : programOf label s = .ok p) :
    ∃ hs, p = { Program.ofListing s.listing [] with handlers := hs } ∧
      List.Forall₂ (fun e h => handlerOf label s (Program.ofListing s.listing []) e = .ok h)
        s.code.handlers hs := by
  obtain ⟨hs, each, found⟩ := bind_eq_ok found
  cases found
  exact ⟨hs, rfl, mapM_eq_ok_iff.mp each⟩

theorem exists_of_mem_handlers (found : programOf label s = .ok p) {h : Handler}
    (member : h ∈ p.handlers) :
    ∃ e ∈ s.code.handlers, StandsFor s (Program.ofListing s.listing []) e h := by
  obtain ⟨hs, rfl, each⟩ := programOf_eq_ok found
  obtain ⟨e, listed, made⟩ := exists_left_of_forall₂ each member
  exact ⟨e, listed, handlerOf_eq_ok_iff.mp made⟩

/-- What holds of every class that is named well holds of all that handlers catch. -/
theorem holds_caught {P : VType → Prop} (found : programOf label s = .ok p)
    (all : P (.object Name.throwable))
    (only : ∀ name r, RefType.ofClassName name = .ok r → P (.object r.className)) :
    ∀ h ∈ p.handlers, P h.caught := by
  intro h member
  obtain ⟨e, _, _, _, _, catches⟩ := exists_of_mem_handlers found member
  obtain ⟨start, stop, position, caught⟩ := h
  generalize e.catches = class? at catches
  cases catches with
  | all => exact all
  | only _ read => exact only _ _ read

theorem position_lt_of_mem_handlers
    (decoded : Listing.decode 0 s.code.bytes = .ok (s.listing, s.starts))
    (found : programOf label s = .ok p) {h : Handler} (member : h ∈ p.handlers) :
    h.position < p.code.size := by
  obtain ⟨e, _, _, _, ⟨t, _, there⟩, _⟩ := exists_of_mem_handlers found member
  obtain ⟨hs, rfl, _⟩ := programOf_eq_ok found
  obtain ⟨read, is, _, _, _, order, holds⟩ := Listing.holds_decode decoded
  have stands := Program.getElem?_of_positions holds.nodup there
  have inside := (List.getElem?_eq_some_iff.mp stands).1
  have code : (Program.ofListing s.listing []).code.toList = _ := Program.code_ofListing holds
  rw [holds.stored.length_eq, ← code] at inside
  exact inside

end ClassFile

end JvmClass
