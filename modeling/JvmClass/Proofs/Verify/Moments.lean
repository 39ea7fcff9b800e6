import JvmClass.Proofs.Verify.Solutions

/-! An analysis at every moment from its start to its end, with all that it has done so far.  A run
that ends with a fault has its moments too, up to the one at which something fails.  What flows into
a position may have a property of the position; then everything has it that is recorded on the way,
and everything that instructions are executed on. -/

namespace JvmClass

namespace Flow

inductive Event where
  | taken (position : Nat)
  | recorded (position : Nat) (f : Frame)
  | executed (position : Nat) (f g : Frame)
  deriving DecidableEq

inductive Stage where
  | between
  /-- The frame before an instruction, and handlers that it may still flow into. -/
  | before (position offset : Nat) (i : Instruction Handle) (f : Frame) (hs : List Handler)
  /-- The frame after an instruction, and positions that it still has to flow into. -/
  | after (position : Nat) (g : Frame) (rest : List (Option Nat))

def news (position : Nat) (s t : Flow) : List Event :=
  if t.frame? position = s.frame? position then []
  else ((t.frame? position).map (Event.recorded position)).toList

/-- The moments of an analysis, with what has been done, the last first. -/
inductive Moment (c : MethodContext) (p : Program) (entry : Frame) :
    List Event → Stage → Flow → Prop where
  | start {s : Flow} (entered : (empty p.code.size).flowInto 0 entry = .ok s) :
      Moment c p entry (news 0 (empty p.code.size) s) .between s
  | take {log : List Event} {frames : Array (Option Frame)} {queued : Array Bool} {q offset : Nat}
      {left : List Nat} {i : Instruction Handle} {f : Frame}
      (earlier : Moment c p entry log .between ⟨frames, queued, q :: left⟩)
      (here : p.code[q]? = some (offset, i)) (found : frames[q]?.join = some f) :
      Moment c p entry (.taken q :: log) (.before q offset i f p.handlers)
        ⟨frames, queued.setIfInBounds q false, left⟩
  | pass {log : List Event} {frames : Array (Option Frame)} {queued : Array Bool} {q : Nat}
      {left : List Nat} (earlier : Moment c p entry log .between ⟨frames, queued, q :: left⟩)
      (nothing : p.code[q]? = none ∨ frames[q]?.join = none) :
      Moment c p entry (.taken q :: log) .between ⟨frames, queued.setIfInBounds q false, left⟩
  | skip {log : List Event} {s : Flow} {q offset : Nat} {i : Instruction Handle} {f : Frame}
      {h : Handler} {hs : List Handler}
      (earlier : Moment c p entry log (.before q offset i f (h :: hs)) s)
      (outside : ¬ (h.start ≤ offset ∧ offset < h.stop)) :
      Moment c p entry log (.before q offset i f hs) s
  | catch {log : List Event} {s t : Flow} {q offset : Nat} {i : Instruction Handle} {f g : Frame}
      {h : Handler} {hs : List Handler}
      (earlier : Moment c p entry log (.before q offset i f (h :: hs)) s)
      (inside : h.start ≤ offset ∧ offset < h.stop) (caught : f.withCaught h.caught = .ok g)
      (into : s.flowInto h.position g = .ok t) :
      Moment c p entry (news h.position s t ++ log) (.before q offset i f hs) t
  | execute {log : List Event} {s : Flow} {q offset : Nat} {i : Instruction Handle} {f g : Frame}
      (earlier : Moment c p entry log (.before q offset i f []) s)
      (done : Frame.after (c.effect offset i) f = .ok g) :
      Moment c p entry (.executed q f g :: log) (.after q g (p.successors q i)) s
  | lead {log : List Event} {s t : Flow} {q r : Nat} {g : Frame} {rest : List (Option Nat)}
      (earlier : Moment c p entry log (.after q g (some r :: rest)) s) (inside : r < p.code.size)
      (into : s.flowInto r g = .ok t) :
      Moment c p entry (news r s t ++ log) (.after q g rest) t
  | leave {log : List Event} {s : Flow} {q : Nat} {g : Frame}
      (earlier : Moment c p entry log (.after q g []) s) : Moment c p entry log .between s

inductive Ends (c : MethodContext) (p : Program) :
    Stage → Flow → Except (Nat × FlowFault) Flow → Prop where
  | finished (frames : Array (Option Frame)) (queued : Array Bool) :
      Ends c p .between ⟨frames, queued, []⟩ (.ok ⟨frames, queued, []⟩)
  | uncaught {s : Flow} {q offset : Nat} {i : Instruction Handle} {f : Frame} {h : Handler}
      {hs : List Handler} {e : FlowFault} (inside : h.start ≤ offset ∧ offset < h.stop)
      (failed : (f.withCaught h.caught >>= s.flowInto h.position) = .error e) :
      Ends c p (.before q offset i f (h :: hs)) s (.error (q, e))
  | unsuited {s : Flow} {q offset : Nat} {i : Instruction Handle} {f : Frame} {e : FlowFault}
      (failed : Frame.after (c.effect offset i) f = .error e) :
      Ends c p (.before q offset i f []) s (.error (q, e))
  | fallsOff {s : Flow} {q : Nat} {g : Frame} {next : Option Nat} {rest : List (Option Nat)}
      (outside : ∀ r, next = some r → ¬ r < p.code.size) :
      Ends c p (.after q g (next :: rest)) s (.error (q, .fallsOffEnd))
  | unmerged {s : Flow} {q r : Nat} {g : Frame} {rest : List (Option Nat)} {e : FlowFault}
      (inside : r < p.code.size) (failed : s.flowInto r g = .error e) :
      Ends c p (.after q g (some r :: rest)) s (.error (q, e))

variable {c : MethodContext} {p : Program} {entry f g : Frame} {log : List Event} {stage : Stage}
  {s t : Flow} {q offset : Nat} {i : Instruction Handle}

def Fails (c : MethodContext) (p : Program) (entry : Frame) (q : Nat) (e : FlowFault) : Prop :=
  ∃ log stage s, Moment c p entry log stage s ∧ Ends c p stage s (.error (q, e))

theorem moment_handlers {hs : List Handler} (moment : Moment c p entry log (.before q offset i f hs) s) :
    (∃ log' t, s.flowIntoHandlers offset f hs = .ok t ∧
      Moment c p entry log' (.before q offset i f []) t) ∨
    ∃ e, s.flowIntoHandlers offset f hs = .error e ∧ Fails c p entry q e := by
  induction hs generalizing s log with
  | nil => exact .inl ⟨log, s, rfl, moment⟩
  | cons h hs ih =>
    unfold flowIntoHandlers
    by_cases inside : h.start ≤ offset ∧ offset < h.stop
    · rw [if_pos inside]
      have fails {e : FlowFault} (failed : (f.withCaught h.caught >>= s.flowInto h.position) = .error e) :
          Fails c p entry q e := ⟨log, _, s, moment, .uncaught inside failed⟩
      cases caught : f.withCaught h.caught with
      | error e => exact .inr ⟨e, rfl, fails (by rw [caught]; rfl)⟩
      | ok g =>
        cases into : s.flowInto h.position g with
        | error e =>
          exact .inr ⟨e, by simp only [bind, Except.bind, into], fails (by rw [caught]; exact into)⟩
        | ok t =>
          simp only [bind, Except.bind, into]
          exact ih (moment.catch inside caught into)
    · rw [if_neg inside]
      exact ih (moment.skip inside)

theorem moment_successors {rest : List (Option Nat)}
    (moment : Moment c p entry log (.after q g rest) s) :
    (∃ log' t, s.flowOn p.code.size g rest = .ok t ∧ Moment c p entry log' .between t) ∨
    ∃ e, s.flowOn p.code.size g rest = .error e ∧ Fails c p entry q e := by
  induction rest generalizing s log with
  | nil => exact .inl ⟨log, s, rfl, moment.leave⟩
  | cons next rest ih =>
    cases next with
    | none => exact .inr ⟨_, rfl, log, _, s, moment, .fallsOff nofun⟩
    | some r =>
      unfold flowOn
      by_cases inside : r < p.code.size
      · rw [if_pos inside]
        cases into : s.flowInto r g with
        | error e => exact .inr ⟨e, rfl, log, _, s, moment, .unmerged inside into⟩
        | ok t => exact ih (moment.lead inside into)
      · rw [if_neg inside]
        refine .inr ⟨_, rfl, log, _, s, moment, .fallsOff fun r' same => ?_⟩
        cases same
        exact inside

theorem moment_visit {frames : Array (Option Frame)} {queued : Array Bool} {left : List Nat}
    (moment : Moment c p entry log .between ⟨frames, queued, q :: left⟩) :
    (∃ log' t, visit c p q ⟨frames, queued.setIfInBounds q false, left⟩ = .ok t ∧
      Moment c p entry log' .between t) ∨
    ∃ e, visit c p q ⟨frames, queued.setIfInBounds q false, left⟩ = .error e ∧
      Fails c p entry q e := by
  unfold visit frame?
  cases here : p.code[q]? with
  | none => exact .inl ⟨_, _, rfl, moment.pass (.inl here)⟩
  | some instruction =>
    obtain ⟨offset, i⟩ := instruction
    cases found : frames[q]?.join with
    | none => exact .inl ⟨_, _, rfl, moment.pass (.inr found)⟩
    | some f =>
      obtain ⟨_, t, handled, moment⟩ | ⟨e, failed, fails⟩ := moment_handlers (moment.take here found)
      · simp only [handled, bind, Except.bind]
        cases done : Frame.after (c.effect offset i) f with
        | error e => exact .inr ⟨e, rfl, _, _, t, moment, .unsuited done⟩
        | ok g => exact moment_successors (moment.execute done)
      · exact .inr ⟨e, by simp only [failed, bind, Except.bind], fails⟩

theorem moment_run (moment : Moment c p entry log .between s) :
    ∃ log stage t, Moment c p entry log stage t ∧ Ends c p stage t (run c p s) := by
  induction s using run.induct c p generalizing log with
  | case1 frames queued =>
    rw [run]
    exact ⟨log, _, _, moment, .finished frames queued⟩
  | case2 frames queued q left e failed =>
    rw [run_cons, failed]
    obtain ⟨_, _, done, _⟩ | ⟨e', failed', fails⟩ := moment_visit moment
    · cases failed.symm.trans done
    · cases failed.symm.trans failed'
      exact fails
  | case3 frames queued q left u done ih =>
    rw [run_cons, done]
    obtain ⟨log', t, done', moment⟩ | ⟨e, failed, _⟩ := moment_visit moment
    · cases done.symm.trans done'
      exact ih moment
    · cases done.symm.trans failed

theorem exists_flowInto_empty (n : Nat) (f : Frame) : ∃ s, (empty n).flowInto 0 f = .ok s := by
  unfold flowInto empty
  dsimp only
  rw [Array.getElem?_replicate]
  by_cases some : 0 < n
  · rw [if_pos some]
    exact ⟨_, rfl⟩
  · rw [if_neg some]
    exact ⟨_, rfl⟩

theorem exists_end (c : MethodContext) (p : Program) (entry : Frame) :
    ∃ log stage s, Moment c p entry log stage s ∧ Ends c p stage s (solve c p entry) := by
  obtain ⟨s, entered⟩ := exists_flowInto_empty p.code.size entry
  unfold solve
  rw [entered]
  exact moment_run (.start entered)

/-- A frame that comes to a position changes nothing, or it is the first one there, or the one that
is recorded takes it in. -/
inductive Arrives (r : Nat) (g : Frame) (s : Flow) : Flow → Prop where
  | absorbed : Arrives r g s s
  | first (inside : r < s.frames.size) (nothing : s.frame? r = none) : Arrives r g s (s.record r g)
  | merged {old m : Frame} (inside : r < s.frames.size) (found : s.frame? r = some old)
      (merges : old.merge g = .ok m) (changed : m ≠ old) : Arrives r g s (s.record r m)

theorem arrives_of_flowInto {r : Nat} (into : s.flowInto r g = .ok t) : Arrives r g s t := by
  unfold flowInto at into
  cases found : s.frames[r]? with
  | none =>
    rw [found] at into
    cases into
    exact .absorbed
  | some old? =>
    have inside := (Array.getElem?_eq_some_iff.mp found).1
    have recorded : s.frame? r = old? := by rw [frame?, found, Option.join_some]
    rw [found] at into
    cases old? with
    | none =>
      cases into
      exact .first inside recorded
    | some old =>
      dsimp only at into
      cases merges : old.merge g with
      | error e =>
        rw [merges] at into
        cases into
      | ok m =>
        rw [merges] at into
        dsimp only at into
        by_cases same : m = old
        · rw [if_pos same] at into
          cases into
          exact .absorbed
        · rw [if_neg same] at into
          cases into
          exact .merged inside recorded merges same

@[simp] theorem news_self (r : Nat) (s : Flow) : news r s s = [] := if_pos rfl

theorem news_record {r : Nat} {F : Frame} (inside : r < s.frames.size)
    (changed : s.frame? r ≠ some F) : news r s (s.record r F) = [.recorded r F] := by
  have recorded : (s.record r F).frame? r = some F := by
    rw [frame?_record s F inside, if_pos rfl]
  rw [news, recorded, if_neg (Ne.symm changed)]
  rfl

theorem Arrives.size_eq {r : Nat} (arrives : Arrives r g s t) : t.frames.size = s.frames.size := by
  cases arrives with
  | absorbed => rfl
  | first | merged => rw [frames_record, Array.size_setIfInBounds]

theorem Arrives.frame?_eq {r q : Nat} (arrives : Arrives r g s t) (other : r ≠ q) :
    t.frame? q = s.frame? q := by
  cases arrives with
  | absorbed => rfl
  | first inside => rw [frame?_record s _ inside, if_neg other]
  | merged inside => rw [frame?_record s _ inside, if_neg other]

theorem Moment.size_eq (moment : Moment c p entry log stage s) : s.frames.size = p.code.size := by
  induction moment with
  | start entered => exact (arrives_of_flowInto entered).size_eq.trans Array.size_replicate
  | take _ _ _ ih | pass _ _ ih | skip _ _ ih | execute _ _ ih | leave _ ih => exact ih
  | «catch» _ _ _ into ih => exact (arrives_of_flowInto into).size_eq.trans ih
  | lead _ _ into ih => exact (arrives_of_flowInto into).size_eq.trans ih

section Holding

variable {I J : Nat → Frame → Prop}

theorem Keeps.and (keeps : Keeps c p I) (keeps' : Keeps c p J) :
    Keeps c p fun q f => I q f ∧ J q f where
  merged _ _ _ _ both both' merged :=
    ⟨keeps.merged both.1 both'.1 merged, keeps'.merged both.2 both'.2 merged⟩
  caught _ _ _ _ _ _ here both listed starts stops done :=
    ⟨keeps.caught here both.1 listed starts stops done,
      keeps'.caught here both.2 listed starts stops done⟩
  next _ _ _ _ _ _ here both done leads :=
    ⟨keeps.next here both.1 done leads, keeps'.next here both.2 done leads⟩

def Stage.Holds (p : Program) (I : Nat → Frame → Prop) : Stage → Prop
  | .between => True
  | .before q offset i f hs => p.code[q]? = some (offset, i) ∧ I q f ∧ ∀ h ∈ hs, h ∈ p.handlers
  | .after _ g rest => ∀ r, some r ∈ rest → I r g

def Event.Holds (c : MethodContext) (p : Program) (I : Nat → Frame → Prop) : Event → Prop
  | .taken _ => True
  | .recorded q f => I q f
  | .executed q f g => ∃ offset i, p.code[q]? = some (offset, i) ∧ I q f ∧
      Frame.after (c.effect offset i) f = .ok g

structure Throughout (c : MethodContext) (p : Program) (I : Nat → Frame → Prop) (log : List Event)
    (stage : Stage) (s : Flow) : Prop where
  has : s.Has I
  stage : stage.Holds p I
  log : ∀ e ∈ log, e.Holds c p I

theorem Arrives.has {r : Nat} (keeps : Keeps c p I) (has : s.Has I) (here : I r g)
    (arrives : Arrives r g s t) : t.Has I ∧ ∀ e ∈ news r s t, e.Holds c p I := by
  cases arrives with
  | absorbed => simp [has]
  | first inside nothing =>
    rw [news_record inside (by simp [nothing])]
    exact ⟨has_record has here inside, by simpa [Event.Holds] using here⟩
  | @merged old m inside found merges changed =>
    rw [news_record inside (by simpa [found] using Ne.symm changed)]
    have above := keeps.merged (has r old found) here merges
    exact ⟨has_record has above inside, by simpa [Event.Holds] using above⟩

/-- What flows may bring along a property of the position where it arrives; then everything has it
at every moment. -/
theorem Moment.throughout (keeps : Keeps c p I) (start : I 0 entry)
    (moment : Moment c p entry log stage s) : Throughout c p I log stage s := by
  induction moment with
  | start entered =>
    obtain ⟨has, news⟩ := (arrives_of_flowInto entered).has keeps (has_empty _) start
    exact ⟨has, trivial, news⟩
  | @take _ _ _ q _ _ _ f _ here found ih =>
    exact ⟨ih.has, ⟨here, ih.has q f found, fun _ => id⟩,
      List.forall_mem_cons.mpr ⟨trivial, ih.log⟩⟩
  | pass _ _ ih => exact ⟨ih.has, trivial, List.forall_mem_cons.mpr ⟨trivial, ih.log⟩⟩
  | skip _ _ ih =>
    obtain ⟨here, before, listed⟩ := ih.stage
    exact ⟨ih.has, ⟨here, before, (List.forall_mem_cons.mp listed).2⟩, ih.log⟩
  | «catch» _ inside caught into ih =>
    obtain ⟨here, before, listed⟩ := ih.stage
    obtain ⟨first, others⟩ := List.forall_mem_cons.mp listed
    have starts := keeps.caught here before first inside.1 inside.2 caught
    obtain ⟨has, news⟩ := (arrives_of_flowInto into).has keeps ih.has starts
    exact ⟨has, ⟨here, before, others⟩, List.forall_mem_append.mpr ⟨news, ih.log⟩⟩
  | execute _ done ih =>
    obtain ⟨here, before, _⟩ := ih.stage
    exact ⟨ih.has, fun r leads => keeps.next here before done leads,
      List.forall_mem_cons.mpr ⟨⟨_, _, here, before, done⟩, ih.log⟩⟩
  | lead _ _ into ih =>
    have here := ih.stage _ List.mem_cons_self
    obtain ⟨has, news⟩ := (arrives_of_flowInto into).has keeps ih.has here
    exact ⟨has, fun r member => ih.stage r (List.mem_cons_of_mem _ member),
      List.forall_mem_append.mpr ⟨news, ih.log⟩⟩
  | leave _ ih => exact ⟨ih.has, trivial, ih.log⟩

end Holding

end Flow

structure ClassFile.Starts (c : ClassFile) (position : Nat) (s : FlowSubject) (p : Program)
    (entry : Frame) : Prop where
  subject : c.flowSubject? position = .ok (some s)
  program : programOf (c.methodLabel position) s = .ok p
  entered : s.context.entryFrame s.code.maxLocals s.code.maxStack s.isStatic = .ok entry

theorem ClassFile.exists_starts {c : ClassFile} {position : Nat} {s : FlowSubject}
    (subject : c.flowSubject? position = .ok (some s)) (accepted : c.checkFlow position = .ok ()) :
    ∃ p entry, c.Starts position s p entry := by
  obtain ⟨p, entry, _, program, entered, _⟩ := exists_analysis subject accepted
  exact ⟨p, entry, subject, program, entered⟩

end JvmClass
