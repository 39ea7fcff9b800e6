import JvmClass.Proofs.Code.Acceptance
import JvmClass.Proofs.Code.Tightness

/-! Lifting a code attribute and lowering the body.  Entries of which lifting makes the same are the
same, for a range ends where the instruction behind its last one starts, and so what is lowered of
an entry is what it was lifted of.  The code comes back as it was if it is tight; lines and local
variables that were in several attributes come back in one. -/

namespace JvmClass

namespace Listing

variable {l : Listing} {s : Starts} {h : Handle} {start stop x y : Nat}

namespace Starts

/-- The instruction that starts at `x` ends at `y`: this is the first stop behind it. -/
structure Ends (s : Starts) (x y : Nat) : Prop where
  stop : s.IsStop y
  after : x < y
  least : ∀ z, s.IsStart z → x < z → y ≤ z

variable (inside : ∀ x, s.IsStart x → x < s.length)
include inside

theorem Ends.le (ends : s.Ends x y) (stops : s.IsStop stop) (after : x < stop) : y ≤ stop := by
  obtain rfl | starts := stops
  · obtain rfl | starts := ends.stop
    · exact Nat.le_refl _
    · exact Nat.le_of_lt (inside y starts)
  · exact ends.least stop starts after

theorem Ends.unique (first : s.Ends x y) (second : s.Ends x stop) : y = stop :=
  Nat.le_antisymm (first.le inside second.stop second.after)
    (second.le inside first.stop first.after)

end Starts

namespace Reads

variable (reads : l.Reads s)
include reads

theorem start_inj (first : s.at? x = some h) (second : s.at? y = some h) : x = y := by
  obtain ⟨i, here⟩ := exists_entry first
  obtain ⟨j, there⟩ := exists_entry second
  cases (reads.position?_eq here).symm.trans (reads.position?_eq there)
  cases here.symm.trans there
  rfl

theorem ends_of_lastIn? (found : s.lastIn? start stop = some h) (stops : s.IsStop stop) :
    ∃ x, s.at? x = some h ∧ s.Ends x stop := by
  unfold Starts.lastIn? at found
  split at found
  · cases found
  rename_i bound
  obtain ⟨⟨x, k⟩, last, same⟩ := Option.map_eq_some_iff.mp found
  obtain ⟨last, _⟩ := Option.filter_eq_some_iff.mp last
  obtain ⟨i, entry, low, next⟩ := Search.exists_of_lastUpTo? reads.increasing.ascending last
  dsimp only at same low next
  subst same
  refine ⟨x, Starts.at?_eq_some reads.increasing entry, stops, by omega, fun z starts after => ?_⟩
  obtain ⟨_, found⟩ := starts
  obtain ⟨j, there⟩ := exists_entry found
  obtain before | rfl | later := Nat.lt_trichotomy j i
  · have := reads.increasing.lt before there entry
    dsimp only at this
    omega
  · cases entry.symm.trans there
    omega
  · have bound := (Array.getElem?_eq_some_iff.mp there).1
    obtain ⟨e, follows⟩ : ∃ e, s.table[i + 1]? = some e :=
      ⟨_, Array.getElem?_eq_getElem (by omega)⟩
    have high := next _ follows
    obtain rfl | later := Nat.eq_or_lt_of_le (Nat.succ_le_of_lt later)
    · cases follows.symm.trans there
      omega
    · have := reads.increasing.lt later follows there
      dsimp only at this
      omega

end Reads

end Listing

namespace Body

open Listing (Starts)

variable {l : Listing} {s : Starts} {h : Handle} {start start' stop stop' x y : Nat}

section Reads

variable (reads : l.Reads s) (inside : ∀ x, s.IsStart x → x < s.length)
include reads

theorem startAt_inj {x y : UInt16} (first : startAt s x.toNat = .ok h)
    (second : startAt s y.toNat = .ok h) : x = y := by
  rw [startAt_eq_ok_iff] at first second
  exact UInt16.toNat_inj.mp (reads.start_inj first second)

theorem lineOf_inj {n n' : LineNumber} {y : LineEntry} (first : lineOf s n = .ok y)
    (second : lineOf s n' = .ok y) : n = n' := by
  obtain ⟨x, line⟩ := n
  obtain ⟨x', line'⟩ := n'
  obtain ⟨h, start, first⟩ := bind_eq_ok first
  obtain ⟨h', start', second⟩ := bind_eq_ok second
  cases first
  cases second
  obtain rfl : x = x' := startAt_inj reads start start'
  rfl

include inside

theorem lastBefore_inj (first : lastBefore s start stop = .ok h)
    (second : lastBefore s start' stop' = .ok h) : stop = stop' := by
  obtain ⟨stops, _, last⟩ := lastBefore_eq_ok_iff.mp first
  obtain ⟨stops', _, last'⟩ := lastBefore_eq_ok_iff.mp second
  obtain ⟨x, found, ends⟩ := reads.ends_of_lastIn? last stops
  obtain ⟨x', found', ends'⟩ := reads.ends_of_lastIn? last' stops'
  obtain rfl := reads.start_inj found found'
  exact ends.unique inside ends'

theorem rangeOf_inj {e e' : ExceptionEntry} {r : ExceptionRange} (first : rangeOf s e = .ok r)
    (second : rangeOf s e' = .ok r) : e = e' := by
  obtain ⟨x, y, z, catches⟩ := e
  obtain ⟨x', y', z', catches'⟩ := e'
  obtain ⟨_, start, first⟩ := bind_eq_ok first
  obtain ⟨_, last, first⟩ := bind_eq_ok first
  obtain ⟨_, handler, first⟩ := bind_eq_ok first
  obtain ⟨_, start', second⟩ := bind_eq_ok second
  obtain ⟨_, last', second⟩ := bind_eq_ok second
  obtain ⟨_, handler', second⟩ := bind_eq_ok second
  cases first
  cases second
  obtain rfl : x = x' := startAt_inj reads start start'
  obtain rfl : y = y' := UInt16.toNat_inj.mp (lastBefore_inj reads inside last last')
  obtain rfl : z = z' := startAt_inj reads handler handler'
  rfl

theorem endOf_inj {v v' : LocalVariable} {last? : Option Handle} (start : v.start = v'.start)
    (first : endOf s v = .ok last?) (second : endOf s v' = .ok last?) : v.length = v'.length := by
  obtain ⟨empty, rfl⟩ | ⟨_, k, rfl, last⟩ := endOf_eq_ok_iff.mp first
  · obtain ⟨empty', _⟩ | ⟨_, _, same, _⟩ := endOf_eq_ok_iff.mp second
    · rw [empty, empty']
    · cases same
  · obtain ⟨_, same⟩ | ⟨_, _, same, last'⟩ := endOf_eq_ok_iff.mp second
    · cases same
    · cases same
      have stops := lastBefore_inj reads inside last last'
      rw [start] at stops
      exact UInt16.toNat_inj.mp (Nat.add_left_cancel stops)

theorem scopeOf_inj {v v' : LocalVariable} {x : VariableScope} (first : scopeOf s v = .ok x)
    (second : scopeOf s v' = .ok x) : v = v' := by
  rw [scopeOf_eq] at first second
  obtain ⟨last?, last, first⟩ := bind_eq_ok first
  obtain ⟨h, start, first⟩ := bind_eq_ok first
  obtain ⟨last?', last', second⟩ := bind_eq_ok second
  obtain ⟨h', start', second⟩ := bind_eq_ok second
  obtain ⟨x, length, name, descriptor, slot⟩ := v
  obtain ⟨x', length', name', descriptor', slot'⟩ := v'
  cases first
  cases second
  obtain rfl : x = x' := startAt_inj reads start start'
  obtain rfl : length = length' := endOf_inj reads inside (Eq.refl x) last last'
  rfl

end Reads

variable {b : Body} {p p' q : Pool} {code out : Code} {m : Listing} {id : Nat}
  {chain : List (Nat × Instruction Int32)}

def byStart (ns : List LineNumber) : LineNumberTable :=
  ⟨(ns.mergeSort fun n n' => n.start ≤ n'.start).toArray⟩

/-- The attribute `out` is `code` but for its own attributes: the lines and the local variables are
gathered into one attribute each, and come before those that are carried along. -/
structure Gathers (p : Pool) (code : Code) (q : Pool) (out : Code) : Prop where
  maxStack : out.maxStack = code.maxStack
  maxLocals : out.maxLocals = code.maxLocals
  bytes : out.bytes = code.bytes
  handlers : out.handlers = code.handlers
  attributes : ∃ lines scopes, out.attributes = lines ++ scopes ++ keptIn p code.attributes ∧
    Holds (linesIn p code.attributes).isEmpty (.ok (byStart (linesIn p code.attributes))) q lines ∧
    Holds (variablesIn p code.attributes).isEmpty
      (.ok (LocalVariableTable.mk (variablesIn p code.attributes))) q scopes

theorem Holds.of_eq {α : Type} [AttributeKind α] {isEmpty isEmpty' : Bool}
    {table table' : Except Error α} {held : List Attribute} (holds : Holds isEmpty table q held)
    (same : isEmpty' = isEmpty) (made : ∀ t, table = .ok t → table' = .ok t) :
    Holds isEmpty' table' q held where
  absent none := holds.absent (same ▸ none)
  present full := by
    obtain ⟨t, a, here, only, title, value⟩ := holds.present (same ▸ full)
    exact ⟨t, a, made t here, only, title, value⟩

/-- Code that is written as it was read is read as it was, under the same handles. -/
structure Returns (b : Body) (m l : Listing) (s : Starts) (rename : Handle → Handle) : Prop where
  traces : b.listing.Traces m l s rename
  reads : l.Reads s
  inside : ∀ x, s.IsStart x → x < s.length
  listing : l.Reindexed b.listing
  fixed : ∀ h, l.contains h → rename h = h

theorem returns_of_encode {bytes : List UInt8} (decoded : Listing.decode id bytes = .ok (l, s))
    (same : l.Reindexed b.listing) (encoded : Listing.encode b.listing = .ok bytes m) :
    ∃ rename, b.Returns m l s rename := by
  have reads := Listing.reads_of_decode decoded
  have order : b.listing.order = l.order := by
    obtain ⟨_, same⟩ := same
    rw [same]
  have nodup : b.listing.order.toList.Nodup := order ▸ reads.coherent.nodup
  obtain ⟨c, s', again, traces⟩ := Listing.traces_of_encode nodup encoded id
  cases decoded.symm.trans again
  refine ⟨_, traces, reads, fun x => Listing.lt_length_of_decode decoded, same, fun h known => ?_⟩
  have stays : l.order.toList = l.order.toList.map (b.listing.renamed id) := order ▸ traces.order
  have listed := (reads.coherent.stored h).mpr known
  exact (List.map_inj_left.mp ((List.map_id _).trans stays) h listed).symm

namespace Returns

variable {rename : Handle → Handle} (returns : b.Returns m l s rename)
include returns

theorem inOrder {start last : Handle} (checked : checkRange l start last = .ok ()) :
    b.listing.InOrder start last :=
  returns.listing.inOrder (Listing.checkRange_eq_ok_iff.mp checked)

theorem entry_eq {e e' : ExceptionEntry} {r : ExceptionRange} (made : rangeOf s e = .ok r)
    (lowered : lowerHandler m r = .ok e') : e = e' := by
  have fits := fits_rangeOf returns.reads made
  have again :=
    (rangeOf_of_lowerHandler returns.traces (returns.inOrder fits.ordered) lowered).1
  have fixed : r.map rename = r := by
    have known (h : Handle) (listed : h ∈ r.handles) := returns.fixed h (fits.known h listed)
    obtain ⟨start, last, handler, catches⟩ := r
    simp only [ExceptionRange.handles, List.forall_mem_cons] at known
    simp [ExceptionRange.map, known]
  rw [fixed] at again
  exact rangeOf_inj returns.reads returns.inside made again

theorem variable_eq {v v' : LocalVariable} {x : VariableScope} (made : scopeOf s v = .ok x)
    (lowered : lowerVariable m x = .ok v') : v = v' := by
  have fits := fits_scopeOf returns.reads made
  obtain ⟨start, last?, name, descriptor, slot⟩ := x
  have ordered : ∀ last ∈ last?, b.listing.InOrder start last := by
    rintro last ends
    obtain rfl : last? = some last := ends
    exact returns.inOrder fits.ordered
  have again := (scopeOf_of_lowerVariable returns.traces ordered lowered).1
  have known (h : Handle) (listed) := returns.fixed h (fits.known h listed)
  have fixed : last?.map rename = last? := by
    cases last? with
    | none => rfl
    | some last => rw [Option.map_some, known last (by simp [Entry.handles, VariableScope.handles])]
  rw [VariableScope.map, fixed, known start (by simp [Entry.handles, VariableScope.handles])] at again
  exact scopeOf_inj returns.reads returns.inside made again

theorem line_eq {n n' : LineNumber} {y : LineEntry} (made : lineOf s n = .ok y)
    (lowered : lowerLine m y = .ok n') : n = n' := by
  have fits := fits_lineOf returns.reads made
  have again := (lineOf_of_lowerLine returns.traces lowered).1
  rw [LineEntry.map, returns.fixed y.start (fits.known _ (List.mem_singleton_self _))] at again
  exact lineOf_inj returns.reads made again

variable (lifts : Lifts p code l s b)
include lifts

theorem lines_eq {t : LineNumberTable} (lowered : lowerLines { b with listing := m } = .ok t) :
    t = byStart (linesIn p code.attributes) := by
  obtain ⟨entries, found, lowered⟩ := bind_eq_ok lowered
  cases lowered
  rw [eq_of_forall₂ lifts.lines (mapM_eq_ok_iff.mp found) fun n y n' => returns.line_eq]
  rfl

theorem variables_eq {t : LocalVariableTable} (lowered : lowerScopes m b = .ok t) :
    t = ⟨variablesIn p code.attributes⟩ := by
  rw [eq_of_forall₂ lifts.scopes (lowerScopes_eq_ok lowered) fun v x v' => returns.variable_eq]

theorem gathers (lowers : b.Lowers p' out q m) (bytes : out.bytes = code.bytes) :
    Gathers p code q out := by
  obtain ⟨lines, scopes, attributes, holds, holds'⟩ := lowers.attributes
  have handlers := eq_of_forall₂ lifts.ranges lowers.handlers fun e r e' => returns.entry_eq
  refine ⟨lowers.maxStack.trans lifts.maxStack, lowers.maxLocals.trans lifts.maxLocals, bytes,
    handlers.symm, lines, scopes, ?_, ?_, ?_⟩
  · rw [attributes, lifts.attributes]
  · refine holds.of_eq ?_ fun t made => ?_
    · rw [isEmpty_eq_of_forall₂ lifts.lines, Numbered.isEmpty_values]
    · rw [returns.lines_eq lifts made]
  · refine holds'.of_eq ?_ fun t made => ?_
    · rw [isEmpty_eq_of_forall₂ lifts.scopes, Numbered.isEmpty_values]
    · rw [returns.variables_eq lifts made]

end Returns

/-- A code attribute that is lifted and lowered comes back, if its code is short enough and tight:
the lines come in one attribute, by offset, and the local variables in another one. -/
theorem gathers_of_lift (short : code.bytes.length ≤ maxCodeLength)
    (chained : Instruction.Chain code.bytes 0 chain)
    (tight : ∀ x ∈ chain, x.2.Tight code.bytes x.1) (lifted : lift id p code = .ok b)
    (built : p'.Built) (lowered : lower b p' = .ok out q) : Gathers p code q out := by
  obtain ⟨l, s, decoded, lifts⟩ := lifts_of_lift lifted
  obtain ⟨m, lowers⟩ := lowers_of_lower (Pool.lawful_of_built built) lowered
  have bytes : out.bytes = code.bytes := by
    obtain ⟨read, is, linked⟩ := Listing.linked_of_decode decoded
    obtain rfl := Listing.chain_unique chained linked.chained
    obtain ⟨m', encoded⟩ := (linked.encode_iff_tight short).mpr tight
    obtain ⟨k, encoded⟩ := lifts.listing.encode encoded
    exact (EStateM.Result.ok.inj (lowers.encoded.symm.trans encoded)).1
  have encoded := lowers.encoded
  rw [bytes] at encoded
  obtain ⟨rename, returns⟩ := returns_of_encode decoded lifts.listing encoded
  exact returns.gathers lifts lowers bytes

/-- A loop with two tables of lines out of order, and two variables, one in scope up to the end of the code
and one nowhere. -/
def loopCode : Code where
  maxStack := 1
  maxLocals := 2
  bytes := [0x10, 1, 0xa7, 0xff, 0xfe]
  handlers := [⟨0, 5, 0, none⟩]
  attributes := [
    ⟨2, [0, 2, 0, 2, 0, 7, 0, 0, 0, 8]⟩,
    ⟨1, [1, 2, 3]⟩,
    ⟨4, []⟩,
    ⟨3, [0, 2, 0, 0, 0, 5, 0, 1, 0, 1, 0, 0, 0, 2, 0, 0, 0, 1, 0, 1, 0, 1]⟩,
    ⟨2, [0, 1, 0, 2, 0, 9]⟩]

def loopNames : Pool := .ofConstants
  [.utf8 "Custom", .utf8 "LineNumberTable", .utf8 "LocalVariableTable", .utf8 "StackMapTable"]

def loopChain : List (Nat × Instruction Int32) := [(0, .bipush 1), (2, .branch .goto (-2))]

theorem chain_loopCode : Instruction.Chain loopCode.bytes 0 loopChain := by
  have push : Instruction.decodeAt loopCode.bytes 0 = .ok (.bipush 1, 2) := by decide +kernel
  have jump : Instruction.decodeAt loopCode.bytes 2 = .ok (.branch .goto (-2), 3) := by
    decide +kernel
  exact .step push (.step jump .stop)

theorem tight_loopCode : ∀ x ∈ loopChain, x.2.Tight loopCode.bytes x.1 := by
  intro x member
  obtain rfl | rfl := List.mem_pair.mp member
  · exact ⟨by decide, nofun⟩
  · exact ⟨by decide, nofun⟩

theorem built_loopNames : loopNames.Built :=
  Pool.built_ofConstants (by decide) (by decide +kernel) (by decide)

theorem exists_lift_loopCode : ∃ b, lift 0 loopNames loopCode = .ok b := by
  obtain ⟨l, s, decoded⟩ := (Listing.exists_decode_iff 0).mpr ⟨_, chain_loopCode, by decide⟩
  have maps := Listing.maps_of_decode decoded chain_loopCode
  have starts (x : Nat) (listed : x ∈ [0, 2]) : s.IsStart x := maps.isStart_iff.mpr listed
  have stop : s.IsStop 5 := .inl (Listing.length_of_decode decoded).symm
  have lines {a : Attribute} {t : LineNumberTable}
      (named : a.title loopNames = .ok (AttributeKind.title LineNumberTable))
      (value : a.value LineNumberTable = .ok t)
      (placed : ∀ n ∈ t.entries.toList, n.start.toNat ∈ [0, 2]) : Readable loopNames s a :=
    .of_lines named value fun n listed => starts _ (placed n listed)
  refine exists_lift_iff_readable.mpr ⟨l, s, decoded, ?_, ?_⟩
  · rw [loopCode, List.forall_mem_singleton]
    exact ⟨starts 0 (by decide), stop, by decide, starts 0 (by decide)⟩
  · simp only [loopCode, List.forall_mem_cons]
    refine ⟨?_, ?_, ?_, ?_, ?_, List.forall_mem_nil _⟩
    · exact lines (t := ⟨#[⟨2, 7⟩, ⟨0, 8⟩]⟩) (by decide +kernel) (by decide +kernel) (by decide)
    · have named : Attribute.title ⟨1, [1, 2, 3]⟩ loopNames = .ok "Custom" := by decide +kernel
      exact .of_ne named (by decide) (by decide)
    · have named : Attribute.title ⟨4, []⟩ loopNames = .ok stackMapTitle := by decide +kernel
      exact .of_ne named (by decide) (by decide)
    · refine .of_scopes (t := ⟨[⟨0, 5, 1, 1, 0⟩, ⟨2, 0, 1, 1, 1⟩]⟩) (by decide +kernel)
        (by decide +kernel) ?_
      simp only [List.forall_mem_cons]
      exact ⟨⟨starts 0 (by decide), .inr stop⟩, ⟨starts 2 (by decide), .inl rfl⟩,
        List.forall_mem_nil _⟩
    · exact lines (t := ⟨#[⟨2, 9⟩]⟩) (by decide +kernel) (by decide +kernel) (by decide)

/-- The lines are in order afterwards; the two lines of the second instruction stay in order. -/
theorem gathers_of_lift_loopCode : loopCode.bytes.length ≤ maxCodeLength ∧ loopNames.Built ∧
    Instruction.Chain loopCode.bytes 0 loopChain ∧
    (∀ x ∈ loopChain, x.2.Tight loopCode.bytes x.1) ∧
    ∃ b out, lift 0 loopNames loopCode = .ok b ∧ lower b loopNames = .ok out loopNames ∧
      Gathers loopNames loopCode loopNames out := by
  obtain ⟨b, lifted⟩ := exists_lift_loopCode
  obtain ⟨l, s, decoded, lifts⟩ := lifts_of_lift lifted
  obtain ⟨read, is, linked⟩ := Listing.linked_of_decode decoded
  obtain rfl := Listing.chain_unique chain_loopCode linked.chained
  obtain ⟨m, encoded⟩ := (linked.encode_iff_tight (by decide)).mpr tight_loopCode
  obtain ⟨k, encoded⟩ := lifts.listing.encode encoded
  have lawful := Pool.lawful_of_built built_loopNames
  have index (c : Constant) : loopNames.index[c]? = _ := lawful.index
  obtain ⟨out, lowered⟩ : ∃ out, lower b loopNames = .ok out loopNames := by
    refine (coherent_lift lifted).exists_lower encoded ?_ ?_
      ⟨2, Pool.add_of_index (by decide) ?_⟩ ⟨3, Pool.add_of_index (by decide) ?_⟩
    · rw [← lifts.lines.length_eq]
      decide +kernel
    · rw [← lifts.scopes.length_eq]
      decide +kernel
    · rw [index, loopNames, Pool.constants_ofConstants]
      decide +kernel
    · rw [index, loopNames, Pool.constants_ofConstants]
      decide +kernel
  exact ⟨by decide, built_loopNames, chain_loopCode, tight_loopCode, b, out, lifted, lowered,
    gathers_of_lift (by decide) chain_loopCode tight_loopCode lifted built_loopNames lowered⟩

end Body

end JvmClass
