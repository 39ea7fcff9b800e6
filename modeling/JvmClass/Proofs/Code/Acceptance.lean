import JvmClass.Proofs.Code.Chains
import JvmClass.Proofs.Code.Halting
import JvmClass.Proofs.Code.Relifting

/-! Which code attributes are lifted.  The code has to be one that can be read, the entries of the
exception table have to be in their places, and an attribute needs a name; of attributes the lines
and the local variables only are looked at, which have to be in their places too. -/

namespace JvmClass

namespace Listing

open Instruction (Chain)

variable {l : Listing} {s : Starts} {chain : List (Nat × Instruction Int32)} {x id : Nat}
  {code : List UInt8}

theorem Maps.isStart_iff (maps : l.Maps s chain) : s.IsStart x ↔ x ∈ chain.map (·.1) := by
  have some_mem : some x ∈ l.order.toList.map l.offset? ↔ x ∈ chain.map (·.1) := by
    rw [maps.offsets, List.mem_map, List.mem_map]
    simp only [Option.some.injEq]
  rw [← some_mem, List.mem_map]
  constructor
  · rintro ⟨h, found⟩
    have start := (maps.found x h).mp found
    exact ⟨h, maps.mem_order start, start⟩
  · rintro ⟨h, _, start⟩
    exact ⟨h, (maps.found x h).mpr start⟩

theorem length_of_decode (decoded : decode id code = .ok (l, s)) : s.length = code.length := by
  obtain ⟨read, is, offsets, _, rfl, _⟩ := decode_eq_ok decoded
  rfl

theorem lt_length_of_decode (decoded : decode id code = .ok (l, s)) (start : s.IsStart x) :
    x < s.length := by
  obtain ⟨read, is, offsets, all, rfl, _⟩ := decode_eq_ok decoded
  obtain ⟨increasing, inside⟩ := offsets_readAll all
  obtain ⟨h, found⟩ := start
  obtain ⟨_, i, here⟩ := (at?_startsOf_iff increasing).mp found
  have := (inside _ (List.mem_of_getElem? here)).2
  rwa [Input.ofBytes, Nat.zero_add] at this

end Listing

namespace Body

open Listing (Starts)

variable {b : Body} {l : Listing} {s : Starts} {p : Pool} {code : Code} {id : Nat}
  {a : Attribute}

def InScope (s : Starts) (v : LocalVariable) : Prop :=
  s.IsStart v.start.toNat ∧ (v.length = 0 ∨ s.IsStop (v.start.toNat + v.length.toNat))

/-- The attribute has a name, and if that tells of lines or of variables, it holds such ones that
are in their places. -/
structure Readable (p : Pool) (s : Starts) (a : Attribute) : Prop where
  titled : ∃ title, a.title p = .ok title
  lines : a.title p = .ok (AttributeKind.title LineNumberTable) →
    ∃ t, a.value LineNumberTable = .ok t ∧ ∀ n ∈ t.entries.toList, s.IsStart n.start.toNat
  scopes : a.title p = .ok (AttributeKind.title LocalVariableTable) →
    ∃ t, a.value LocalVariableTable = .ok t ∧ ∀ v ∈ t.entries, InScope s v

theorem Readable.of_lines {t : LineNumberTable}
    (named : a.title p = .ok (AttributeKind.title LineNumberTable))
    (value : a.value LineNumberTable = .ok t)
    (placed : ∀ n ∈ t.entries.toList, s.IsStart n.start.toNat) : Readable p s a where
  titled := ⟨_, named⟩
  lines _ := ⟨t, value, placed⟩
  scopes other := absurd (Except.ok.inj (named.symm.trans other)) (by decide)

theorem Readable.of_scopes {t : LocalVariableTable}
    (named : a.title p = .ok (AttributeKind.title LocalVariableTable))
    (value : a.value LocalVariableTable = .ok t) (placed : ∀ v ∈ t.entries, InScope s v) :
    Readable p s a where
  titled := ⟨_, named⟩
  lines other := absurd (Except.ok.inj (named.symm.trans other)) (by decide)
  scopes _ := ⟨t, value, placed⟩

theorem Readable.of_ne {title : String} (named : a.title p = .ok title)
    (noLines : title ≠ AttributeKind.title LineNumberTable)
    (noScopes : title ≠ AttributeKind.title LocalVariableTable) : Readable p s a where
  titled := ⟨title, named⟩
  lines other := absurd (Except.ok.inj (named.symm.trans other)) noLines
  scopes other := absurd (Except.ok.inj (named.symm.trans other)) noScopes

section Reads

variable (reads : l.Reads s) (coherent : b.Coherent) (same : l.Reindexed b.listing)
include reads coherent same

theorem exists_liftLines_iff {t : LineNumberTable} :
    (∃ c, t.entries.toList.foldlM (liftLine s) b = .ok c) ↔
      ∀ n ∈ t.entries.toList, s.IsStart n.start.toNat := by
  rw [(tables_liftLine s).exists_run_iff _ coherent same fun n y => fits_lineOf reads]
  simp only [exists_lineOf_iff]

theorem exists_liftVariables_iff {t : LocalVariableTable} :
    (∃ c, t.entries.foldlM (liftVariable s) b = .ok c) ↔ ∀ v ∈ t.entries, InScope s v := by
  rw [(tables_liftVariable s).exists_run_iff _ coherent same fun v x => fits_scopeOf reads]
  simp only [exists_scopeOf_iff reads, InScope]

theorem exists_liftAttribute_iff : (∃ c, liftAttribute p s b a = .ok c) ↔ Readable p s a := by
  constructor
  · rintro ⟨c, done⟩
    obtain ⟨title, named, rest⟩ := bind_eq_ok done
    rw [mapError_eq_ok_iff] at named
    refine ⟨⟨title, named⟩, fun lines => ?_, fun scopes => ?_⟩
    · cases named.symm.trans lines
      rw [if_pos rfl] at rest
      obtain ⟨t, value, _⟩ := bind_eq_ok rest
      rw [mapError_eq_ok_iff] at value
      rw [liftAttribute_lines lines value] at done
      exact ⟨t, value, (exists_liftLines_iff reads coherent same).mp ⟨c, done⟩⟩
    · cases named.symm.trans scopes
      rw [if_neg (by decide), if_pos rfl] at rest
      obtain ⟨t, value, _⟩ := bind_eq_ok rest
      rw [mapError_eq_ok_iff] at value
      rw [liftAttribute_scopes scopes value] at done
      exact ⟨t, value, (exists_liftVariables_iff reads coherent same).mp ⟨c, done⟩⟩
  · rintro ⟨⟨title, named⟩, lines, scopes⟩
    by_cases isLines : title = AttributeKind.title LineNumberTable
    · subst isLines
      obtain ⟨t, value, placed⟩ := lines named
      rw [liftAttribute_lines named value]
      exact (exists_liftLines_iff reads coherent same).mpr placed
    by_cases isScopes : title = AttributeKind.title LocalVariableTable
    · subst isScopes
      obtain ⟨t, value, placed⟩ := scopes named
      rw [liftAttribute_scopes named value]
      exact (exists_liftVariables_iff reads coherent same).mpr placed
    by_cases isMap : title = stackMapTitle
    · refine ⟨b, ?_⟩
      unfold liftAttribute
      rw [named]
      exact (if_neg isLines).trans ((if_neg isScopes).trans (if_pos isMap))
    · exact ⟨_, IsKept.liftAttribute ⟨title, named, isLines, isScopes, isMap⟩⟩

theorem exists_liftAttributes_iff {as : List Attribute} :
    (∃ c, as.foldlM (liftAttribute p s) b = .ok c) ↔ ∀ a ∈ as, Readable p s a := by
  induction as generalizing b with
  | nil => exact iff_of_true ⟨b, rfl⟩ (List.forall_mem_nil _)
  | cons a as ih =>
    rw [List.foldlM_cons, List.forall_mem_cons, ← exists_liftAttribute_iff reads coherent same]
    constructor
    · rintro ⟨c, done⟩
      obtain ⟨d, first, done⟩ := bind_eq_ok done
      obtain ⟨_, _, gains⟩ := gains_liftAttribute coherent first
      exact ⟨⟨d, first⟩, (ih gains.coherent (same.trans gains.listing)).mp ⟨c, done⟩⟩
    · rintro ⟨⟨d, first⟩, others⟩
      obtain ⟨_, _, gains⟩ := gains_liftAttribute coherent first
      obtain ⟨c, done⟩ := (ih gains.coherent (same.trans gains.listing)).mpr others
      rw [first]
      exact ⟨c, done⟩

end Reads

theorem exists_lift_iff_readable : (∃ b, lift id p code = .ok b) ↔
    ∃ l s, Listing.decode id code.bytes = .ok (l, s) ∧ (∀ e ∈ code.handlers, Placed s e) ∧
      ∀ a ∈ code.attributes, Readable p s a := by
  constructor
  · rintro ⟨b, lifted⟩
    obtain ⟨⟨l, s⟩, decoded, lifted⟩ := bind_eq_ok lifted
    obtain ⟨c, handlers, lifted⟩ := bind_eq_ok lifted
    rw [mapError_eq_ok_iff] at decoded
    have reads := Listing.reads_of_decode decoded
    obtain ⟨rs, made, gains⟩ := (tables_liftHandler s).gains
      (coherent_opened code.maxStack code.maxLocals decoded) handlers
    refine ⟨l, s, decoded, fun e listed => ?_,
      (exists_liftAttributes_iff reads gains.coherent gains.listing).mp ⟨b, lifted⟩⟩
    obtain ⟨r, _, made⟩ := exists_right_of_forall₂ made listed
    exact (exists_rangeOf_iff reads).mp ⟨r, made⟩
  · rintro ⟨l, s, decoded, placed, readable⟩
    have reads := Listing.reads_of_decode decoded
    have coherent := coherent_opened code.maxStack code.maxLocals decoded
    obtain ⟨c, handlers⟩ := ((tables_liftHandler s).exists_run_iff code.handlers coherent (.refl l)
      fun e r => fits_rangeOf reads).mpr fun e listed =>
        (exists_rangeOf_iff reads).mpr (placed e listed)
    obtain ⟨rs, _, gains⟩ := (tables_liftHandler s).gains coherent handlers
    obtain ⟨b, attributes⟩ :=
      (exists_liftAttributes_iff (p := p) reads gains.coherent gains.listing).mpr readable
    refine ⟨b, ?_⟩
    unfold lift
    rw [decoded]
    change (code.handlers.foldlM (liftHandler s)
      (opened id code.maxStack code.maxLocals l) >>= _) = _
    rw [handlers]
    exact attributes

end Body

end JvmClass
