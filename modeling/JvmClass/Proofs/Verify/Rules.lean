import JvmClass.Proofs.Verify.Exchanges

/-! What an instruction does to a frame, as one rule for each kind of instruction: which values it
takes off the stack, which ones it puts there, and what else changes.  An instruction succeeds on a
frame just when one of its rules applies there, so whatever is to be known about all instructions is
a case analysis of the rules. -/

namespace JvmClass

open Width (width)

namespace Frame

theorem trades_pushReturn (r : Option FieldType) : Trades (pushReturn r) fun _ d =>
    d = ⟨[], .none, (r.map VType.ofFieldType).toList⟩ := by
  cases r with
  | none => exact trades_nothing
  | some t => exact trades_push _

variable {α β : Type} {step step' : Step Unit} {R : Array VType → Trade → Prop} {us : List VType}

theorem Trades.pushes (trades : Trades step R) (bare : ∀ ls d, R ls d → d.pushed = [])
    (pushes : Trades step' fun _ d => d = ⟨[], .none, us⟩) :
    Trades (step >>= fun _ => step') fun ls d => d.pushed = us ∧ R ls { d with pushed := [] } where
  iff f g := by
    simp only [then_eq_ok_iff, trades.iff f, pushes.iff _ g, exists_eq_left, made_nil]
    constructor
    · rintro ⟨_, ⟨⟨ts, change, vs⟩, related, h, rfl, rfl, _⟩, rfl, room⟩
      obtain rfl : vs = [] := bare _ _ related
      rw [pile_nil] at room ⊢
      exact ⟨⟨ts, change, us⟩, ⟨rfl, related⟩, h, rfl, rfl, room⟩
    · rintro ⟨⟨ts, change, _⟩, ⟨rfl, related⟩, h, rfl, rfl, room⟩
      have bare : Trade.Made ⟨ts, change, []⟩ (pile ts h) (change.apply h) :=
        ⟨h, rfl, (pile_nil _).symm, fun some => absurd rfl some⟩
      exact ⟨change.apply h, ⟨⟨ts, change, []⟩, related, bare⟩, rfl, room⟩
  sharp ls d d' related related' :=
    trades.sharp ls { d with pushed := [] } { d' with pushed := [] } related.2 related'.2

theorem finds_pure (a : α) : Finds (pure a) fun b => b = a := by
  intro f b g
  exact return_eq_ok_iff

theorem finds_throw (e : FlowFault) : Finds (throw e : Step α) fun _ => False := by
  intro f a g
  simp [throw_ne_ok]

theorem Finds.bind {step : Step α} {next : α → Step β} {C : α → Prop} {D : α → β → Prop}
    (finds : Finds step C) (more : ∀ a, Finds (next a) (D a)) :
    Finds (step >>= next) fun b => ∃ a, C a ∧ D a b := by
  intro f b g
  simp only [seq_eq_ok_iff, finds f, more _ _ _ _]
  grind

theorem Finds.congr {step : Step α} {C D : α → Prop} (finds : Finds step C)
    (same : ∀ a, C a ↔ D a) : Finds step D := by
  intro f a g
  rw [finds f a g, same]

end Frame

namespace MethodContext

open JvmClass.Frame

variable {c : MethodContext}

theorem finds_found {α : Type} (x : Except PoolFault α) :
    Finds (found x) fun a => x = .ok a := by
  intro f a g
  simp [found, liftExcept_eq_ok_iff, mapError_eq_ok_iff]

theorem finds_namedClass (name : String) :
    Finds (namedClass name) fun r => RefType.ofClassName name = .ok r := by
  intro f r g
  simp [namedClass, liftExcept_eq_ok_iff, mapError_eq_ok_iff]

def Names (c : MethodContext) (i : UInt16) (r : RefType) : Prop :=
  ∃ name, c.pool.getClassName i = .ok name ∧ RefType.ofClassName name = .ok r

theorem finds_classType (i : UInt16) :
    Finds (c.classType i) fun t => ∃ r, c.Names i r ∧ t = .object r.className := by
  refine ((finds_found _).bind fun name => (finds_namedClass name).bind fun r =>
    finds_pure _).congr fun t => ?_
  simp only [Names]
  grind

theorem finds_fieldType (text : String) : Finds (fieldType text) fun t =>
    ∃ f, FieldType.parse text = .ok f ∧ t = .ofFieldType f := by
  unfold fieldType
  cases FieldType.parse text with
  | ok f => exact (finds_pure _).congr (by simp)
  | error e => exact (finds_throw _).congr (by simp)

theorem finds_methodType (text : String) :
    Finds (methodType text) fun type => MethodType.parse text = .ok type :=
  fun _ _ _ => methodType_eq_ok_iff

inductive Loaded (c : MethodContext) : Constant → VType → Prop where
  | integer (v : Int32) : Loaded c (.integer v) .int
  | float (v : UInt32) : Loaded c (.float v) .float
  | long (v : Int64) : Loaded c (.long v) .long
  | double (v : UInt64) : Loaded c (.double v) .double
  | string (i : UInt16) : Loaded c (.string i) (.object Name.stringObject)
  | classInfo (i : UInt16) : Loaded c (.classInfo i) (.object Name.classObject)
  | methodHandle (kind : HandleKind) (i : UInt16) :
      Loaded c (.methodHandle kind i) (.object Name.methodHandle)
  | methodType (i : UInt16) : Loaded c (.methodType i) (.object Name.methodType)
  | dynamic {i pair : UInt16} {name descriptor : String} {t : FieldType}
      (named : c.pool.getNameAndType pair = .ok (name, descriptor))
      (parsed : FieldType.parse descriptor = .ok t) : Loaded c (.dynamic i pair) (.ofFieldType t)

theorem finds_loadedType (k : Constant) : Finds (c.loadedType k) (c.Loaded k) := by
  have single {k : Constant} {t : VType} (loaded : c.Loaded k t) (only : ∀ u, c.Loaded k u → u = t) :
      Finds (pure t) (c.Loaded k) :=
    (finds_pure t).congr fun u => ⟨fun same => same ▸ loaded, only u⟩
  cases k with
  | integer v => exact single (.integer v) fun _ loaded => by cases loaded; rfl
  | float v => exact single (.float v) fun _ loaded => by cases loaded; rfl
  | long v => exact single (.long v) fun _ loaded => by cases loaded; rfl
  | double v => exact single (.double v) fun _ loaded => by cases loaded; rfl
  | string i => exact single (.string i) fun _ loaded => by cases loaded; rfl
  | classInfo i => exact single (.classInfo i) fun _ loaded => by cases loaded; rfl
  | methodHandle kind i => exact single (.methodHandle kind i) fun _ loaded => by cases loaded; rfl
  | methodType i => exact single (.methodType i) fun _ loaded => by cases loaded; rfl
  | dynamic i pair =>
    have finds := (finds_found (c.pool.getNameAndType pair)).bind fun names =>
      finds_fieldType names.2
    refine finds.congr fun t => ?_
    constructor
    · rintro ⟨⟨name, descriptor⟩, named, t, parsed, rfl⟩
      exact .dynamic named parsed
    · intro loaded
      cases loaded with
      | dynamic named parsed => exact ⟨_, named, _, parsed, rfl⟩
  | _ => exact (finds_throw _).congr fun t => iff_of_false id nofun

theorem trades_loadConstant (op : Opcode) (i : UInt16) : Trades (c.loadConstant op i) fun _ d =>
    ∃ k t, d = ⟨[], .none, [t]⟩ ∧ c.pool.get i = .ok k ∧ c.Loaded k t ∧
      (op = .ldcTwo ↔ width t = 2) := by
  refine ((finds_found _).trades fun k => (finds_loadedType k).trades fun t =>
    trades_ite (fun _ => trades_push t) fun _ => trades_throw _).congr fun ls d => ?_
  simp
  grind

/-- A value whose field of a class can be written, though it may be the unfinished receiver where
the field belongs to the class itself. -/
def Owns (c : MethodContext) (owner : String) (t : VType) : Prop :=
  t = .uninitializedThis ∧ owner = c.thisClass ∨ t.Initialized

theorem drops_popOwner (owner : String) :
    Drops (c.popOwner owner) fun ts => ∃ t, ts = [t] ∧ c.Owns owner t := by
  have checked (t : VType) (f g : Frame) : (if t = .uninitializedThis ∧ owner = c.thisClass then
      pure () else if t.isUninitialized then throw FlowFault.uninitializedObject
      else if !t.isReference then throw (FlowFault.incompatible (.object Name.object) t)
      else pure () : Step Unit) f = .ok () g ↔ c.Owns owner t ∧ f = g := by
    unfold Owns VType.Initialized
    by_cases own : t = .uninitializedThis ∧ owner = c.thisClass
    · simp [own, return_eq_ok_iff]
    · cases t <;> simp_all [return_eq_ok_iff, VType.isUninitialized, VType.isReference, throw_ne_ok]
  refine ⟨fun f g => ?_, ?_⟩
  · unfold popOwner
    simp only [seq_eq_ok_iff, pops_pop f, true_and, checked]
    grind
  · rintro _ _ ⟨t, rfl, _⟩ ⟨u, rfl, _⟩ front
    exact front.eq_of_length rfl

def IsAccess (op : Opcode) : Prop :=
  op = .getstatic ∨ op = .putstatic ∨ op = .getfield ∨ op = .putfield

inductive FieldTrade (c : MethodContext) (owner : String) (t : VType) : Opcode → Trade → Prop where
  | getstatic : FieldTrade c owner t .getstatic ⟨[], .none, [t]⟩
  | putstatic {value : VType} (fits : value.isAssignable t = true) :
      FieldTrade c owner t .putstatic ⟨[value], .none, []⟩
  | getfield {object : VType} (initialized : object.Initialized) :
      FieldTrade c owner t .getfield ⟨[object], .none, [t]⟩
  | putfield {value object : VType} (fits : value.isAssignable t = true)
      (owns : c.Owns owner object) : FieldTrade c owner t .putfield ⟨[value, object], .none, []⟩

theorem trades_accessField (op : Opcode) (i : UInt16) (accesses : IsAccess op) :
    Trades (c.accessField op i) fun _ d => ∃ m t, c.pool.getMemberRef i = .ok m ∧
      FieldType.parse m.descriptor = .ok t ∧ c.FieldTrade m.owner (.ofFieldType t) op d := by
  refine ((finds_found (c.pool.getMemberRef i)).trades fun m =>
    (finds_fieldType m.descriptor).trades (Q := fun t _ => c.FieldTrade m.owner t op)
      fun t => ?_).congr ?_
  · obtain rfl | rfl | rfl | rfl := accesses
    · refine (trades_push t).congr fun _ d => ⟨fun same => same ▸ .getstatic, ?_⟩
      rintro (_ | _)
      rfl
    · refine (pops_popExpecting t).drops.trades_only.congr fun _ d => ?_
      constructor
      · rintro ⟨_, rfl, _, rfl, fits⟩
        exact .putstatic fits
      · rintro (_ | fits)
        exact ⟨_, rfl, _, rfl, fits⟩
    · refine (pops_popReference.discard_trades (trades_push t)).congr ?_
      rintro _ ⟨ts, change, us⟩
      constructor
      · rintro ⟨_, _, rfl, initialized, made⟩
        cases made
        exact .getfield initialized
      · rintro (_ | _ | initialized)
        exact ⟨_, [], rfl, initialized, rfl⟩
    · refine ((pops_popExpecting t).discard_trades (drops_popOwner m.owner).trades_only).congr ?_
      rintro _ ⟨ts, change, us⟩
      constructor
      · rintro ⟨_, _, rfl, fits, _, made, _, rfl, owns⟩
        cases made
        exact .putfield fits owns
      · rintro (_ | _ | _ | ⟨fits, owns⟩)
        exact ⟨_, _, rfl, fits, _, rfl, _, rfl, owns⟩
  · intro ls d
    grind

theorem trades_construct (m : MemberRef) : Trades (c.construct m.owner) fun _ d =>
    ∃ t n, d = ⟨[t], .retype t n, []⟩ ∧ c.Finishes m t n := by
  refine (pops_pop.trades (Q := fun t _ d => ∃ n, d = ⟨[], .retype t n, []⟩ ∧ c.Finishes m t n)
    fun t => ?_).congr ?_
  · cases t with
    | uninitializedThis =>
      refine (trades_retype .uninitializedThis c.thisClass).congr fun _ d => ?_
      constructor
      · rintro rfl
        exact ⟨_, rfl, .receiver⟩
      · rintro ⟨_, rfl, _ | _⟩
        rfl
    | uninitialized o =>
      refine ((finds_namedClass m.owner).trades fun r =>
        trades_retype (.uninitialized o) r.className).congr fun _ d => ?_
      constructor
      · rintro ⟨r, read, rfl⟩
        exact ⟨_, rfl, .made o read⟩
      · rintro ⟨_, rfl, _ | read⟩
        exact ⟨_, ‹_›, rfl⟩
    | _ =>
      refine (trades_throw _).congr fun _ d => iff_of_false id ?_
      rintro ⟨_, _, _ | _⟩
  · rintro _ ⟨ts, change, us⟩
    constructor
    · rintro ⟨t, _, rfl, _, n, made, finishes⟩
      cases made
      exact ⟨t, n, rfl, finishes⟩
    · rintro ⟨t, n, made, finishes⟩
      cases made
      exact ⟨t, [], rfl, trivial, n, rfl, finishes⟩

def returned (type : MethodType) : List VType := (type.returns.map VType.ofFieldType).toList

/-- What a call does, be it of a constructor, on an object, or of a class. -/
inductive CallTrade (c : MethodContext) (op : Opcode) (m : MemberRef) (type : MethodType) :
    Trade → Prop where
  | construct {ts : List VType} {t : VType} {n : String}
      (constructor : op = .invokespecial ∧ m.name = Name.constructorName)
      (fits : Supplies type.parameters ts) (finishes : c.Finishes m t n) :
      CallTrade c op m type ⟨ts ++ [t], .retype t n, returned type⟩
  | virtual {ts : List VType} {t : VType}
      (other : ¬ (op = .invokespecial ∧ m.name = Name.constructorName)) (dynamic : op ≠ .invokestatic)
      (fits : Supplies type.parameters ts) (initialized : t.Initialized) :
      CallTrade c op m type ⟨ts ++ [t], .none, returned type⟩
  | static {ts : List VType} (static : op = .invokestatic) (fits : Supplies type.parameters ts) :
      CallTrade c op m type ⟨ts, .none, returned type⟩

theorem trades_call (op : Opcode) (m : MemberRef) (type : MethodType) : Trades (do
    popArguments type.parameters
    if op = .invokespecial ∧ m.name = Name.constructorName then c.construct m.owner
    else if op ≠ .invokestatic then discard popReference
    pushReturn type.returns) fun _ d => c.CallTrade op m type d := by
  have popped := drops_popArguments type.parameters
  have returns := trades_pushReturn type.returns
  by_cases constructor : op = .invokespecial ∧ m.name = Name.constructorName
  · simp only [if_pos constructor]
    refine (popped.trades ((trades_construct m).pushes ?_ returns)).congr ?_
    · rintro _ _ ⟨_, _, rfl, _⟩
      rfl
    · rintro _ ⟨_, change, us⟩
      constructor
      · rintro ⟨ts, _, rfl, fits, rfl, t, n, made, finishes⟩
        cases made
        exact .construct constructor fits finishes
      · rintro (⟨_, fits, finishes⟩ | ⟨other, _, _, _⟩ | ⟨static, _⟩)
        · exact ⟨_, _, rfl, fits, rfl, _, _, rfl, finishes⟩
        · exact absurd constructor other
        · cases static.symm.trans constructor.1
  · simp only [if_neg constructor]
    by_cases dynamic : op ≠ .invokestatic
    · simp only [if_pos dynamic]
      refine (popped.trades (pops_popReference.discard_trades returns)).congr ?_
      rintro _ ⟨_, change, us⟩
      constructor
      · rintro ⟨ts, _, rfl, fits, t, _, rfl, initialized, made⟩
        cases made
        exact .virtual constructor dynamic fits initialized
      · rintro (⟨constructor', _, _⟩ | ⟨_, _, fits, initialized⟩ | ⟨static, _⟩)
        · exact absurd constructor' constructor
        · exact ⟨_, _, rfl, fits, _, [], rfl, initialized, rfl⟩
        · exact absurd static dynamic
    · simp only [if_neg dynamic]
      refine (popped.trades returns).congr ?_
      rintro _ ⟨_, change, us⟩
      constructor
      · rintro ⟨ts, us, rfl, fits, made⟩
        cases made
        rw [List.append_nil]
        exact .static (not_not.mp dynamic) fits
      · rintro (⟨constructor', _, _⟩ | ⟨_, dynamic', _, _⟩ | ⟨_, fits⟩)
        · exact absurd constructor' constructor
        · exact absurd dynamic' dynamic
        · exact ⟨_, [], (List.append_nil _).symm, fits, rfl⟩

theorem trades_invoke (op : Opcode) (i : UInt16) : Trades (c.invoke op i) fun _ d =>
    ∃ m type, c.pool.getMemberRef i = .ok m ∧ MethodType.parse m.descriptor = .ok type ∧
      c.CallTrade op m type d := by
  refine ((finds_found (c.pool.getMemberRef i)).trades fun m =>
    (finds_methodType m.descriptor).trades fun type => trades_call op m type).congr fun ls d => ?_
  grind

def Dynamic (c : MethodContext) (i : UInt16) (type : MethodType) : Prop :=
  ∃ bootstrap pair name descriptor, c.pool.get i = .ok (.invokeDynamic bootstrap pair) ∧
    c.pool.getNameAndType pair = .ok (name, descriptor) ∧ MethodType.parse descriptor = .ok type

theorem trades_invokeDynamic (i : UInt16) : Trades (c.invokeDynamic i) fun _ d =>
    ∃ type ts, d = ⟨ts, .none, returned type⟩ ∧ c.Dynamic i type ∧
      Supplies type.parameters ts := by
  have called (type : MethodType) : Trades (do
      popArguments type.parameters
      pushReturn type.returns) fun _ d =>
        ∃ ts, d = ⟨ts, .none, returned type⟩ ∧ Supplies type.parameters ts := by
    refine ((drops_popArguments type.parameters).trades (trades_pushReturn type.returns)).congr ?_
    rintro _ ⟨_, change, us⟩
    constructor
    · rintro ⟨ts, us, rfl, fits, made⟩
      cases made
      exact ⟨_, by rw [List.append_nil]; rfl, fits⟩
    · rintro ⟨_, made, fits⟩
      cases made
      exact ⟨_, [], (List.append_nil _).symm, fits, rfl⟩
  refine ((finds_found (c.pool.get i)).trades (Q := fun k _ d => ∃ bootstrap pair name descriptor
    type ts, k = .invokeDynamic bootstrap pair ∧ c.pool.getNameAndType pair = .ok (name, descriptor) ∧
      MethodType.parse descriptor = .ok type ∧ d = ⟨ts, .none, returned type⟩ ∧
        Supplies type.parameters ts) fun k => ?_).congr fun _ d => ?_
  · cases k with
    | invokeDynamic bootstrap pair =>
      have trades := (finds_found (c.pool.getNameAndType pair)).trades fun names =>
        (finds_methodType names.2).trades called
      refine trades.congr fun _ d => ?_
      constructor
      · rintro ⟨⟨name, descriptor⟩, named, type, parsed, ts, made, fits⟩
        exact ⟨_, _, name, descriptor, type, ts, rfl, named, parsed, made, fits⟩
      · rintro ⟨_, _, name, descriptor, type, ts, same, named, parsed, made, fits⟩
        cases same
        exact ⟨_, named, type, parsed, ts, made, fits⟩
    | _ =>
      refine (trades_throw _).congr fun _ d => iff_of_false id ?_
      rintro ⟨_, _, _, _, _, _, same, _⟩
      cases same
  · constructor
    · rintro ⟨_, found, bootstrap, pair, name, descriptor, type, ts, rfl, named, parsed, made, fits⟩
      exact ⟨type, ts, made, ⟨bootstrap, pair, name, descriptor, found, named, parsed⟩, fits⟩
    · rintro ⟨type, ts, made, ⟨bootstrap, pair, name, descriptor, found, named, parsed⟩, fits⟩
      exact ⟨_, found, bootstrap, pair, name, descriptor, type, ts, rfl, named, parsed, made, fits⟩

theorem trades_newObjectArray (i : UInt16) : Trades (c.newObjectArray i) fun _ d =>
    ∃ count r, d = ⟨[count], .none, [.object (RefType.arrayOf (.ref r)).className]⟩ ∧
      count.isAssignable .int = true ∧ c.Names i r := by
  refine ((pops_popExpecting .int).discard_trades ((finds_found (c.pool.getClassName i)).trades
    fun name => (finds_namedClass name).trades fun r => trades_push _)).congr ?_
  rintro _ ⟨ts, change, us⟩
  simp [Names]
  grind

theorem trades_returnValue (k : ValueKind) : Trades (c.returnValue k) fun _ d =>
    ∃ value t, d = ⟨[value], .none, []⟩ ∧ c.type.returns = some t ∧
      returns k (.ofFieldType t) = true ∧ value.isAssignable (.ofFieldType t) = true ∧
        ((VType.ofFieldType t).isReference = true → value.Initialized) := by
  have checked (t u : VType) : Trades (if !u.isAssignable t then throw (.incompatible t u)
      else pure ()) fun _ d => d = ⟨[], .none, []⟩ ∧ u.isAssignable t = true := by
    cases u.isAssignable t with
    | false => exact (trades_throw _).congr (by simp)
    | true => exact trades_nothing.congr (by simp)
  unfold returnValue
  cases result : c.type.returns with
  | none => exact (trades_throw _).congr (by simp)
  | some t =>
    refine (trades_ite (fun _ => trades_throw _) fun _ => trades_ite
      (fun _ => pops_popReference.trades (checked (.ofFieldType t))) fun _ =>
        (pops_popExpecting (.ofFieldType t)).drops.trades_only).congr ?_
    rintro _ ⟨ts, change, us⟩
    simp
    grind

theorem trades_returnVoid : Trades c.returnVoid fun ls d => d = ⟨[], .none, []⟩ ∧
    c.type.returns.isSome = false ∧ (c.isConstructor && ls.contains .uninitializedThis) = false := by
  refine Frame.trades_only (P := fun ls => c.type.returns.isSome = false ∧
    (c.isConstructor && ls.contains .uninitializedThis) = false) fun f g => ?_
  simp [returnVoid_eq_ok_iff, made_nil, Change.apply, hasUninitializedThis]
  grind

theorem trades_arraylength : Trades (c.plain .arraylength) fun _ d =>
    ∃ array, d = ⟨[array], .none, [.int]⟩ ∧ array.Initialized ∧
      array.component?.isSome = true := by
  have measured (array : VType) : Trades (do
      if array.component?.isNone then throw .notArray
      push .int) fun _ d => d = ⟨[], .none, [.int]⟩ ∧ array.component?.isSome = true := by
    cases array.component? with
    | none => exact (trades_throw _).congr (by simp)
    | some t => exact (trades_push .int).congr (by simp)
  refine (pops_popReference.trades measured).congr ?_
  rintro _ ⟨ts, change, us⟩
  simp
  grind

end MethodContext

def Instruction.call? {τ : Type} : Instruction τ → Option (Opcode × UInt16)
  | .constant op i =>
    if op = .invokevirtual ∨ op = .invokespecial ∨ op = .invokestatic then some (op, i) else none
  | .interfaceCall i _ => some (.invokeinterface, i)
  | _ => none

namespace MethodContext

open JvmClass.Frame

variable {τ : Type} {c : MethodContext} {offset : Nat} {i : Instruction τ} {op : Opcode} {f g : Frame}

/-- An instruction at an offset makes this trade with frames that have these local variables. -/
inductive Rule (c : MethodContext) (offset : Nat) (ls : Array VType) : Instruction τ → Trade → Prop
    where
  | access {i : Instruction τ} {a : LocalAccess} {slot : UInt16} {d : Trade}
      (named : i.opcode.localAccess? = some a) (found : i.slot? = some slot)
      (accesses : Accesses a slot ls d) : Rule c offset ls i d
  | fixed {i : Instruction τ} {pops pushes : List ValueKind} {ts : List VType}
      (effect : i.opcode.fixedEffect? = some (pops, pushes))
      (fits : List.Forall₂ VType.Fits ts pops.reverse) :
      Rule c offset ls i ⟨ts, .none, (pushes.map .ofKind).reverse⟩
  | moves {op : Opcode} {d : Trade} (moves : Moves op d) : Rule c offset ls (.plain op) d
  | null : Rule c offset ls (.plain .aconstNull) ⟨[], .none, [.null]⟩
  | voidReturn (nothing : c.type.returns.isSome = false)
      (finished : (c.isConstructor && ls.contains .uninitializedThis) = false) :
      Rule c offset ls (.plain .voidReturn) ⟨[], .none, []⟩
  | athrow {t : VType} (initialized : t.Initialized) :
      Rule c offset ls (.plain .athrow) ⟨[t], .none, []⟩
  | arraylength {array : VType} (initialized : array.Initialized)
      (components : array.component?.isSome = true) :
      Rule c offset ls (.plain .arraylength) ⟨[array], .none, [.int]⟩
  | loadElement {op : Opcode} {k : ArrayKind} {index array t : VType}
      (loads : op.arrayLoad? = some k) (counts : index.isAssignable .int = true)
      (initialized : array.Initialized) (element : k.load? array = some t) :
      Rule c offset ls (.plain op) ⟨[index, array], .none, [t]⟩
  | storeElement {op : Opcode} {k : ArrayKind} {value index array : VType}
      (stores : op.arrayStore? = some k) (fits : Stores k value)
      (counts : index.isAssignable .int = true) (initialized : array.Initialized)
      (element : (k.load? array).isSome = true) :
      Rule c offset ls (.plain op) ⟨[value, index, array], .none, []⟩
  | returnValue {op : Opcode} {k : ValueKind} {value : VType} {t : FieldType}
      (kind : op.returnKind? = some k) (result : c.type.returns = some t)
      (suits : returns k (.ofFieldType t) = true) (fits : value.isAssignable (.ofFieldType t) = true)
      (initialized : (VType.ofFieldType t).isReference = true → value.Initialized) :
      Rule c offset ls (.plain op) ⟨[value], .none, []⟩
  | increment {slot : UInt16} {delta : Int16} {t : VType} (found : Loads ls slot .int t) :
      Rule c offset ls (.increment slot delta) ⟨[], .none, []⟩
  | loadConstant {op : Opcode} {index : UInt16} {k : Constant} {t : VType}
      (loads : op = .ldc ∨ op = .ldcWide ∨ op = .ldcTwo) (found : c.pool.get index = .ok k)
      (loaded : c.Loaded k t) (wide : op = .ldcTwo ↔ width t = 2) :
      Rule c offset ls (.constant op index) ⟨[], .none, [t]⟩
  | field {op : Opcode} {index : UInt16} {m : MemberRef} {t : FieldType} {d : Trade}
      (accesses : IsAccess op) (found : c.pool.getMemberRef index = .ok m)
      (parsed : FieldType.parse m.descriptor = .ok t)
      (trade : c.FieldTrade m.owner (.ofFieldType t) op d) :
      Rule c offset ls (.constant op index) d
  | call {i : Instruction τ} {op : Opcode} {index : UInt16} {m : MemberRef} {type : MethodType}
      {d : Trade} (calls : i.call? = some (op, index)) (found : c.pool.getMemberRef index = .ok m)
      (parsed : MethodType.parse m.descriptor = .ok type) (trade : c.CallTrade op m type d) :
      Rule c offset ls i d
  | dynamicCall {index : UInt16} {type : MethodType} {ts : List VType}
      (linked : c.Dynamic index type) (fits : Supplies type.parameters ts) :
      Rule c offset ls (.dynamicCall index) ⟨ts, .none, returned type⟩
  | new {index : UInt16} {r : RefType} (names : c.Names index r) :
      Rule c offset ls (.constant .new index) ⟨[], .none, [.uninitialized offset]⟩
  | anewarray {index : UInt16} {r : RefType} {count : VType} (names : c.Names index r)
      (counts : count.isAssignable .int = true) : Rule c offset ls (.constant .anewarray index)
        ⟨[count], .none, [.object (RefType.arrayOf (.ref r)).className]⟩
  | checkcast {index : UInt16} {r : RefType} {t : VType} (names : c.Names index r)
      (initialized : t.Initialized) :
      Rule c offset ls (.constant .checkcast index) ⟨[t], .none, [.object r.className]⟩
  | newArray {element : BaseType} {count : VType} (counts : count.isAssignable .int = true) :
      Rule c offset ls (.newArray element)
        ⟨[count], .none, [.object (FieldType.base element).array.render]⟩
  | multiArray {index : UInt16} {dimensions : UInt8} {r : RefType} {counts : List VType}
      (names : c.Names index r)
      (fits : List.Forall₂ VType.Fits counts (List.replicate dimensions.toNat .int)) :
      Rule c offset ls (.multiArray index dimensions) ⟨counts, .none, [.object r.className]⟩

def Ruled (c : MethodContext) (offset : Nat) (i : Instruction τ) (step : Step Unit) : Prop :=
  ∃ R, Trades step R ∧ ∀ ls d, R ls d → c.Rule offset ls i d

theorem ruled_throw (e : FlowFault) : c.Ruled offset i (throw e) :=
  ⟨_, trades_throw e, fun _ _ => False.elim⟩

theorem ruled_plain : c.Ruled offset (.plain op : Instruction τ) (c.plain op) := by
  unfold plain
  split
  case h_1 => exact ⟨_, trades_push .null, fun _ _ same => same ▸ .null⟩
  case h_2 => exact ⟨_, trades_pop, fun _ _ => .moves⟩
  case h_3 => exact ⟨_, trades_popTwo, fun _ _ => .moves⟩
  case h_4 => exact ⟨_, trades_dup, fun _ _ => .moves⟩
  case h_5 => exact ⟨_, trades_dupX1, fun _ _ => .moves⟩
  case h_6 => exact ⟨_, trades_dupX2, fun _ _ => .moves⟩
  case h_7 => exact ⟨_, trades_dupTwo, fun _ _ => .moves⟩
  case h_8 => exact ⟨_, trades_dupTwoX1, fun _ _ => .moves⟩
  case h_9 => exact ⟨_, trades_dupTwoX2, fun _ _ => .moves⟩
  case h_10 => exact ⟨_, trades_swap, fun _ _ => .moves⟩
  case h_11 =>
    refine ⟨_, trades_returnVoid, ?_⟩
    rintro _ _ ⟨rfl, nothing, finished⟩
    exact .voidReturn nothing finished
  case h_12 =>
    refine ⟨_, pops_popReference.drops.trades_only, ?_⟩
    rintro _ _ ⟨_, rfl, _, rfl, initialized⟩
    exact .athrow initialized
  case h_13 =>
    refine ⟨_, trades_arraylength (c := c), ?_⟩
    rintro _ _ ⟨_, rfl, initialized, components⟩
    exact .arraylength initialized components
  case h_14 =>
    cases loads : op.arrayLoad? with
    | some k =>
      refine ⟨_, trades_loadElement k, ?_⟩
      rintro _ _ ⟨_, _, _, rfl, counts, initialized, element⟩
      exact .loadElement loads counts initialized element
    | none =>
      cases stores : op.arrayStore? with
      | some k =>
        refine ⟨_, trades_storeElement k, ?_⟩
        rintro _ _ ⟨_, _, _, rfl, fits, counts, initialized, element⟩
        exact .storeElement stores fits counts initialized element
      | none =>
        cases kind : op.returnKind? with
        | some k =>
          refine ⟨_, trades_returnValue k, ?_⟩
          rintro _ _ ⟨_, _, rfl, result, suits, fits, initialized⟩
          exact .returnValue kind result suits fits initialized
        | none => exact ruled_throw _

theorem ruled_constant {index : UInt16} :
    c.Ruled offset (.constant op index : Instruction τ) (c.constant offset op index) := by
  have loads {op : Opcode} (loads : op = .ldc ∨ op = .ldcWide ∨ op = .ldcTwo) :
      c.Ruled offset (.constant op index : Instruction τ) (c.loadConstant op index) := by
    refine ⟨_, trades_loadConstant op index, ?_⟩
    rintro _ _ ⟨_, _, rfl, found, loaded, wide⟩
    exact .loadConstant loads found loaded wide
  have accesses {op : Opcode} (accesses : IsAccess op) :
      c.Ruled offset (.constant op index : Instruction τ) (c.accessField op index) := by
    refine ⟨_, trades_accessField op index accesses, ?_⟩
    rintro _ _ ⟨_, _, found, parsed, trade⟩
    exact .field accesses found parsed trade
  have calls {op : Opcode} (calls : (Instruction.constant op index : Instruction τ).call? =
      some (op, index)) : c.Ruled offset (.constant op index : Instruction τ) (c.invoke op index) := by
    refine ⟨_, trades_invoke op index, ?_⟩
    rintro _ _ ⟨_, _, found, parsed, trade⟩
    exact .call calls found parsed trade
  unfold constant
  split
  case h_1 => exact loads (.inl rfl)
  case h_2 => exact loads (.inr (.inl rfl))
  case h_3 => exact loads (.inr (.inr rfl))
  case h_4 => exact accesses (.inl rfl)
  case h_5 => exact accesses (.inr (.inl rfl))
  case h_6 => exact accesses (.inr (.inr (.inl rfl)))
  case h_7 => exact accesses (.inr (.inr (.inr rfl)))
  case h_8 | h_9 | h_10 => exact calls rfl
  case h_11 =>
    refine ⟨_, (finds_classType index).discard_trades (trades_push _), ?_⟩
    rintro _ _ ⟨⟨_, r, names, _⟩, rfl⟩
    exact .new names
  case h_12 =>
    refine ⟨_, trades_newObjectArray index, ?_⟩
    rintro _ _ ⟨_, _, rfl, counts, names⟩
    exact .anewarray names counts
  case h_13 =>
    refine ⟨_, pops_popReference.discard_trades ((finds_classType index).trades trades_push), ?_⟩
    rintro _ ⟨_, change, us⟩ ⟨_, _, rfl, initialized, _, ⟨r, names, rfl⟩, made⟩
    cases made
    exact .checkcast names initialized
  case h_14 => exact ruled_throw _

theorem ruled_special : c.Ruled offset i (c.special offset i) := by
  unfold special
  split
  case h_1 => exact ruled_plain
  case h_2 =>
    refine ⟨_, trades_load _ .int fun _ => trades_nothing, ?_⟩
    rintro _ _ ⟨_, found, rfl⟩
    exact .increment found
  case h_3 => exact ruled_constant
  case h_4 =>
    refine ⟨_, trades_invoke _ _, ?_⟩
    rintro _ _ ⟨_, _, found, parsed, trade⟩
    exact .call rfl found parsed trade
  case h_5 =>
    refine ⟨_, trades_invokeDynamic _, ?_⟩
    rintro _ _ ⟨_, _, rfl, linked, fits⟩
    exact .dynamicCall linked fits
  case h_6 =>
    refine ⟨_, (pops_popExpecting .int).discard_trades (trades_push _), ?_⟩
    rintro _ ⟨_, change, us⟩ ⟨_, _, rfl, counts, made⟩
    cases made
    exact .newArray counts
  case h_7 =>
    refine ⟨_, (drops_popKinds _).trades ((finds_classType _).trades trades_push), ?_⟩
    rintro _ ⟨_, change, us⟩ ⟨_, _, rfl, fits, _, ⟨r, names, rfl⟩, made⟩
    cases made
    rw [List.reverse_replicate] at fits
    rw [List.append_nil]
    exact .multiArray names fits
  all_goals exact ruled_throw _

theorem ruled_effect : c.Ruled offset i (c.effect offset i) := by
  unfold effect
  cases named : i.opcode.localAccess? with
  | some a =>
    cases found : i.slot? with
    | none => exact ruled_throw _
    | some slot => exact ⟨_, trades_access a slot, fun _ _ => .access named found⟩
  | none =>
    cases fixed : i.opcode.fixedEffect? with
    | none => exact ruled_special
    | some both =>
      obtain ⟨pops, pushes⟩ := both
      refine ⟨_, (drops_popKinds pops).trades (trades_pushAll _), ?_⟩
      rintro _ ⟨_, change, us⟩ ⟨ts, _, rfl, fits, made⟩
      cases made
      rw [List.append_nil]
      exact .fixed fixed fits

end MethodContext

namespace Opcode

theorem separate (op : Opcode) :
    (op.localAccess?.isSome = true → op.fixedEffect? = none) ∧
    ((op.arrayLoad?.isSome = true ∨ op.arrayStore?.isSome = true ∨ op.returnKind?.isSome = true) →
      op.isSimulated = false ∧ op.localAccess? = none ∧ op.fixedEffect? = none) ∧
    (op.arrayStore?.isSome = true → op.arrayLoad? = none) ∧
    (op.returnKind?.isSome = true → op.arrayLoad? = none ∧ op.arrayStore? = none) := by
  revert op
  decide +kernel

theorem localAccess?_of_fixed {op : Opcode} {both : List ValueKind × List ValueKind}
    (fixed : op.fixedEffect? = some both) : op.localAccess? = none := by
  by_contra named
  have unlisted := op.separate.1 (Option.isSome_iff_ne_none.mpr named)
  cases unlisted.symm.trans fixed

def irregular : List Opcode :=
  [aconstNull, ldc, ldcWide, ldcTwo, pop, popTwo, dup, dupX1, dupX2, dupTwo, dupTwoX1, dupTwoX2, swap,
    iinc, getstatic, putstatic, getfield, putfield, invokevirtual, invokespecial, invokestatic,
    invokeinterface, invokedynamic, new, newarray, anewarray, multianewarray, arraylength, athrow,
    checkcast]

theorem untabled_of_irregular : ∀ op ∈ irregular, op.localAccess? = none ∧ op.fixedEffect? = none := by
  decide +kernel

end Opcode

namespace MethodContext

open JvmClass.Frame

variable {τ : Type} {c : MethodContext} {offset : Nat} {i : Instruction τ} {op : Opcode} {f g : Frame}
  {d : Trade}

theorem effect_special (op : Opcode) (same : i.opcode = op)
    (special : op.localAccess? = none ∧ op.fixedEffect? = none) :
    c.effect offset i = c.special offset i := by
  unfold effect
  rw [same, special.1, special.2]

theorem effect_irregular (op : Opcode) (same : i.opcode = op) (irregular : op ∈ Opcode.irregular) :
    c.effect offset i = c.special offset i :=
  effect_special op same (Opcode.untabled_of_irregular op irregular)

theorem effect_tabled (tabled : op.arrayLoad?.isSome = true ∨ op.arrayStore?.isSome = true ∨
    op.returnKind?.isSome = true) : c.effect offset (.plain op : Instruction τ) =
      match op.arrayLoad?, op.arrayStore?, op.returnKind? with
      | some k, _, _ => loadElement k
      | none, some k, _ => storeElement k
      | none, none, some k => c.returnValue k
      | none, none, none => throw .invalidType := by
  obtain ⟨_, separate, _⟩ := op.separate
  obtain ⟨other, unlisted⟩ := separate tabled
  rw [effect_special op rfl unlisted]
  change c.plain op = _
  unfold plain
  split
  case h_14 => rfl
  all_goals cases other

theorem effect_of_returnKind? {k : ValueKind} (kind : op.returnKind? = some k) :
    c.effect offset (.plain op : Instruction τ) = c.returnValue k := by
  have returned : op.returnKind?.isSome = true := by rw [kind]; rfl
  obtain ⟨unloaded, unstored⟩ := op.separate.2.2.2 returned
  rw [effect_tabled (.inr (.inr returned)), unloaded, unstored, kind]

theorem trades_moves {form : Form} (listed : form ∈ forms op) :
    Trades (c.effect offset (.plain op : Instruction τ)) fun _ => Moves op := by
  have irregular : op ∈ Opcode.irregular := by
    unfold forms at listed
    split at listed <;> first | decide | cases listed
  rw [effect_irregular op rfl irregular]
  unfold forms at listed
  split at listed
  case h_1 => exact trades_pop
  case h_2 => exact trades_popTwo
  case h_3 => exact trades_dup
  case h_4 => exact trades_dupX1
  case h_5 => exact trades_dupX2
  case h_6 => exact trades_dupTwo
  case h_7 => exact trades_dupTwoX1
  case h_8 => exact trades_dupTwoX2
  case h_9 => exact trades_swap
  case h_10 => cases listed

theorem effect_call {index : UInt16} (calls : i.call? = some (op, index)) :
    c.effect offset i = c.invoke op index := by
  cases i with
  | constant op' index' =>
    simp only [Instruction.call?, Option.ite_none_right_eq_some] at calls
    obtain ⟨listed, same⟩ := calls
    cases same
    have irregular : op ∈ Opcode.irregular := by
      obtain rfl | rfl | rfl := listed <;> decide
    rw [effect_irregular op rfl irregular]
    obtain rfl | rfl | rfl := listed <;> rfl
  | interfaceCall index' count =>
    cases calls
    exact effect_irregular .invokeinterface rfl (by decide)
  | _ => cases calls

theorem done_of_trades {step : Step Unit} {R : Array VType → Trade → Prop} (trades : Trades step R)
    (related : R f.locals d) (made : d.Made f g) : step f = .ok () g :=
  (trades.iff f g).mpr ⟨d, related, made⟩

theorem effect_of_rule (rule : c.Rule offset f.locals i d) (made : d.Made f g) :
    c.effect offset i f = .ok () g := by
  cases rule with
  | access named found accesses =>
    unfold effect
    rw [named, found]
    exact done_of_trades (trades_access _ _) accesses made
  | fixed fixed fits =>
    unfold effect
    rw [Opcode.localAccess?_of_fixed fixed, fixed]
    exact done_of_trades ((drops_popKinds _).trades (trades_pushAll _))
      ⟨_, [], (List.append_nil _).symm, fits, rfl⟩ made
  | moves moves =>
    have ⟨_, _, listed, _⟩ := moves
    exact done_of_trades (trades_moves listed) moves made
  | null =>
    rw [effect_irregular .aconstNull rfl (by decide)]
    exact done_of_trades (trades_push .null) rfl made
  | voidReturn nothing finished =>
    rw [effect_voidReturn]
    exact done_of_trades trades_returnVoid ⟨rfl, nothing, finished⟩ made
  | athrow initialized =>
    rw [effect_irregular .athrow rfl (by decide)]
    exact done_of_trades pops_popReference.drops.trades_only ⟨_, rfl, _, rfl, initialized⟩ made
  | arraylength initialized components =>
    rw [effect_irregular .arraylength rfl (by decide)]
    exact done_of_trades (trades_arraylength (c := c)) ⟨_, rfl, initialized, components⟩ made
  | loadElement loads counts initialized element =>
    rw [effect_tabled (.inl (by rw [loads]; rfl)), loads]
    exact done_of_trades (trades_loadElement _) ⟨_, _, _, rfl, counts, initialized, element⟩ made
  | @storeElement op _ _ _ _ stores fits counts initialized element =>
    have stored : op.arrayStore?.isSome = true := by rw [stores]; rfl
    rw [effect_tabled (.inr (.inl stored)), op.separate.2.2.1 stored, stores]
    exact done_of_trades (trades_storeElement _) ⟨_, _, _, rfl, fits, counts, initialized, element⟩
      made
  | returnValue kind result suits fits initialized =>
    rw [effect_of_returnKind? kind]
    exact done_of_trades (trades_returnValue _) ⟨_, _, rfl, result, suits, fits, initialized⟩ made
  | increment found =>
    rw [effect_irregular .iinc rfl (by decide)]
    exact done_of_trades (trades_load _ .int fun _ => trades_nothing) ⟨_, found, rfl⟩ made
  | @loadConstant op index _ _ loads found loaded wide =>
    have step : c.effect offset (.constant op index : Instruction τ) = c.loadConstant op index := by
      have irregular : op ∈ Opcode.irregular := by
        obtain rfl | rfl | rfl := loads <;> decide
      rw [effect_irregular op rfl irregular]
      obtain rfl | rfl | rfl := loads <;> rfl
    rw [step]
    exact done_of_trades (trades_loadConstant op index) ⟨_, _, rfl, found, loaded, wide⟩ made
  | @field op index _ _ _ accesses found parsed trade =>
    have step : c.effect offset (.constant op index : Instruction τ) = c.accessField op index := by
      have irregular : op ∈ Opcode.irregular := by
        obtain rfl | rfl | rfl | rfl := accesses <;> decide
      rw [effect_irregular op rfl irregular]
      obtain rfl | rfl | rfl | rfl := accesses <;> rfl
    rw [step]
    exact done_of_trades (trades_accessField op index accesses) ⟨_, _, found, parsed, trade⟩ made
  | call calls found parsed trade =>
    rw [effect_call calls]
    exact done_of_trades (trades_invoke _ _) ⟨_, _, found, parsed, trade⟩ made
  | dynamicCall linked fits =>
    rw [effect_irregular .invokedynamic rfl (by decide)]
    exact done_of_trades (trades_invokeDynamic _) ⟨_, _, rfl, linked, fits⟩ made
  | new names =>
    rw [effect_irregular .new rfl (by decide)]
    exact done_of_trades ((finds_classType _).discard_trades (trades_push _))
      ⟨⟨_, _, names, rfl⟩, rfl⟩ made
  | anewarray names counts =>
    rw [effect_irregular .anewarray rfl (by decide)]
    exact done_of_trades (trades_newObjectArray _) ⟨_, _, rfl, counts, names⟩ made
  | checkcast names initialized =>
    rw [effect_irregular .checkcast rfl (by decide)]
    exact done_of_trades (pops_popReference.discard_trades ((finds_classType _).trades trades_push))
      ⟨_, [], rfl, initialized, _, ⟨_, names, rfl⟩, rfl⟩ made
  | newArray counts =>
    rw [effect_irregular .newarray rfl (by decide)]
    exact done_of_trades ((pops_popExpecting .int).discard_trades (trades_push _))
      ⟨_, [], rfl, counts, rfl⟩ made
  | multiArray names fits =>
    rw [effect_irregular .multianewarray rfl (by decide)]
    refine done_of_trades ((drops_popKinds _).trades ((finds_classType _).trades trades_push))
      ⟨_, [], (List.append_nil _).symm, ?_, _, ⟨_, names, rfl⟩, rfl⟩ made
    rwa [List.reverse_replicate]

/-- An instruction succeeds on a frame just when one of its rules makes a trade there, and then it does
what the trade says. -/
theorem effect_eq_ok_iff : after (c.effect offset i) f = .ok g ↔
    ∃ d, c.Rule offset f.locals i d ∧ d.Made f g := by
  rw [after_eq_ok_iff]
  constructor
  · intro done
    obtain ⟨R, trades, ruled⟩ : c.Ruled offset i (c.effect offset i) := ruled_effect
    obtain ⟨d, related, made⟩ := (trades.iff f g).mp done
    exact ⟨d, ruled _ d related, made⟩
  · rintro ⟨d, rule, made⟩
    exact effect_of_rule rule made

end MethodContext

end JvmClass
