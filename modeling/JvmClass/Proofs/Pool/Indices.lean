import JvmClass.Proofs.Pool.Rereading
import JvmClass.Total
import Mathlib.Data.Nat.Find

/-! The indices of a pool.  Every constant starts where the widths of those before it end, and the
count is where the next one would start.  A constant that is added has the first index of one that
is written alike, or else the count, and if it has no written form or no room, nothing changes. -/

namespace JvmClass.Pool

open Width (width)

variable {p : Pool} {c : Constant} {cs : List Constant} {i : UInt16} {n k : Nat}

def startOf (cs : List Constant) (k : Nat) : Nat := 1 + total width (cs.take k)

theorem Lawful.next_eq (lawful : p.Lawful) :
    p.entries.next = startOf p.constants p.constants.length := by
  conv => lhs; rw [lawful.entries]
  exact Slotted.slotOf_length.symm

/-- How the constants of a pool are numbered. -/
structure Numbered (p : Pool) : Prop where
  size : p.size = p.constants.length
  count : p.count.toNat = startOf p.constants p.constants.length
  bounds : 1 ≤ p.count.toNat ∧ p.count.toNat ≤ 65535
  get : ∀ i d, p.get i = .ok d ↔ ∃ k, p.constants[k]? = some d ∧ i.toNat = startOf p.constants k

theorem Lawful.numbered (lawful : p.Lawful) : p.Numbered where
  size := by simp [Pool.size, Slotted.size, constants, Slotted.toList]
  count := (toNat_count lawful.next).trans lawful.next_eq
  bounds := by
    rw [toNat_count lawful.next]
    exact ⟨lawful.next_eq ▸ Nat.le_add_right 1 _, Nat.le_of_lt_succ lawful.next⟩
  get i d := lawful.get_eq_ok_iff.trans mem_slotted_iff_slotOf

theorem Lawful.toNat_startOf (lawful : p.Lawful) (here : p.constants[k]? = some c) :
    (startOf p.constants k).toUInt16.toNat = startOf p.constants k := by
  exact UInt16.toNat_ofNat_of_lt' (Nat.lt_trans (lawful.slotOf_lt here) lawful.next)

theorem Lawful.getElem?_toList (lawful : p.Lawful) :
    p.toList[k]? = p.constants[k]?.map fun c => ((startOf p.constants k).toUInt16, c) := by
  have entry : p.entries.entries[k]? = _ := lawful.entries ▸ Slotted.getElem?_ofList
  rw [toList, List.getElem?_map, Array.getElem?_toList, entry, Option.map_map]
  rfl

theorem Lawful.mem_toList_iff (lawful : p.Lawful) : (i, c) ∈ p.toList ↔ p.get i = .ok c := by
  simp only [List.mem_iff_getElem?, lawful.getElem?_toList, lawful.numbered.get,
    Option.map_eq_some_iff, Prod.mk.injEq]
  refine exists_congr fun k => ⟨?_, ?_⟩
  · rintro ⟨_, here, rfl, rfl⟩
    exact ⟨here, lawful.toNat_startOf here⟩
  · rintro ⟨here, start⟩
    exact ⟨c, here, start ▸ UInt16.ofNat_toNat, rfl⟩

theorem Lawful.index_eq_some (lawful : p.Lawful) (here : p.constants[k]? = some c)
    (first : ∀ j < k, p.constants[j]? ≠ some c) :
    p.index[c]? = some (startOf p.constants k).toUInt16 := by
  have there : (slotted 1 p.constants)[k]? = some (startOf p.constants k, c) := by
    rw [getElem?_slotted, here]
    rfl
  obtain ⟨inside, at'⟩ := List.getElem?_eq_some_iff.mp there
  have found : (slotted 1 p.constants).find? (·.2 == c) = some (startOf p.constants k, c) := by
    refine List.find?_eq_some_iff_getElem.mpr ⟨beq_self_eq_true c, k, inside, at', fun j before => ?_⟩
    have other := List.getElem?_eq_getElem (Nat.lt_trans before inside)
    rw [getElem?_slotted] at other
    obtain ⟨d, listed, same⟩ := Option.map_eq_some_iff.mp other
    have different : d ≠ c := fun equal => first j before (equal ▸ listed)
    simp [← same, different]
  rw [lawful.index, found]
  rfl

theorem Lawful.index_eq_none (lawful : p.Lawful) (new : c ∉ p.constants) : p.index[c]? = none := by
  rw [lawful.index, Option.map_eq_none_iff, List.find?_eq_none]
  rintro ⟨n, d⟩ member same
  exact new (eq_of_beq same ▸ (mem_slotted_iff 1).mp ⟨n, member⟩)

/-- What comes of adding a constant to a pool.  Constants are compared as they are written. -/
inductive Added (p : Pool) (c : Constant) : EStateM.Result Error Pool UInt16 → Prop where
  /-- The smallest index of those that are alike is used again. -/
  | reused {i : UInt16} {d : Constant} (here : p.get i = .ok d) (alike : d.encode = c.encode)
      (smallest : ∀ j e, p.get j = .ok e → e.encode = c.encode → i ≤ j) : Added p c (.ok i p)
  | appended {bytes : List UInt8} {q : Pool} (new : ∀ j e, p.get j = .ok e → e.encode ≠ c.encode)
      (written : c.encode.toExcept = .ok bytes) (room : p.count.toNat + width c ≤ 65535)
      (entries : q.toList = p.toList ++ [(p.count, c)])
      (count : q.count.toNat = p.count.toNat + width c) : Added p c (.ok p.count q)
  | unwritten {e : Error} (failed : c.encode.toExcept = .error e) : Added p c (.error e p)
  | full {bytes : List UInt8} (new : ∀ j e, p.get j = .ok e → e.encode ≠ c.encode)
      (written : c.encode.toExcept = .ok bytes) (none : 65535 < p.count.toNat + width c) :
      Added p c (.error (.poolFull c p.count.toNat) p)

theorem exists_first (listed : c ∈ cs) :
    ∃ k : Nat, cs[k]? = some c ∧ ∀ j < k, cs[j]? ≠ some c := by
  have some := List.mem_iff_getElem?.mp listed
  exact ⟨Nat.find some, Nat.find_spec some, fun j before => Nat.find_min some before⟩

theorem startOf_mono {j k : Nat} (before : j ≤ k) : startOf cs j ≤ startOf cs k :=
  Slotted.slotOf_mono before

theorem Lawful.le_of_get (lawful : p.Lawful) (here : p.constants[k]? = some c)
    (first : ∀ j < k, p.constants[j]? ≠ some c) (found : p.get i = .ok c) :
    (startOf p.constants k).toUInt16 ≤ i := by
  obtain ⟨j, there, start⟩ := (lawful.numbered.get i c).mp found
  have later : k ≤ j := Nat.le_of_not_lt fun before => first j before there
  rw [UInt16.le_iff_toNat_le, lawful.toNat_startOf here, start]
  exact startOf_mono later

theorem toList_extended (p : Pool) (c : Constant) :
    (p.extended c).toList = p.toList ++ [(p.count, c)] := by
  simp [toList, extended, Slotted.put, count]

theorem added_add (built : p.Built) (c : Constant) : Added p c (add c p) := by
  have lawful := lawful_of_built built
  have numbered := lawful.numbered
  have equal {j : UInt16} {e : Constant} (found : p.get j = .ok e) (alike : e.encode = c.encode) :
      e = c := by
    obtain ⟨_, there, _⟩ := (numbered.get j e).mp found
    exact Constant.eq_of_encode_eq (written_of_built built e (List.mem_of_getElem? there)) alike
  have puts := Constant.toExcept_encode c
  unfold add
  cases short : c.checkLength with
  | error e =>
    rw [short] at puts
    exact .unwritten puts
  | ok _ =>
    rw [short] at puts
    by_cases listed : c ∈ p.constants
    · obtain ⟨k, here, first⟩ := exists_first listed
      simp only [lawful.index_eq_some here first]
      refine .reused ((numbered.get _ c).mpr ⟨k, here, lawful.toNat_startOf here⟩) rfl ?_
      intro j e found alike
      exact lawful.le_of_get here first (equal found alike ▸ found)
    · have new : ∀ j e, p.get j = .ok e → e.encode ≠ c.encode := by
        intro j e found alike
        obtain ⟨_, there, _⟩ := (numbered.get j e).mp found
        exact listed (equal found alike ▸ List.mem_of_getElem? there)
      simp only [lawful.index_eq_none listed, lawful.push_eq]
      have count := toNat_count lawful.next
      by_cases room : p.entries.next + width c < 65536
      · rw [if_pos room]
        refine .appended new puts (by omega) (toList_extended p c) ?_
        rw [count]
        exact toNat_count room
      · rw [if_neg room, ← count]
        exact .full new puts (by omega)

/-- In every pool that was built, constants are numbered by their widths, adding one gives the first
index of those that are alike or the next one, and nothing is ever moved. -/
theorem indices_of_built (built : p.Built) : p.Numbered ∧ (∀ c, Added p c (add c p)) ∧
    ∀ (a : Addition) i d, p.get i = .ok d → (a.run p).get i = .ok d :=
  have lawful := lawful_of_built built
  ⟨lawful.numbered, added_add built, fun a _ _ found => (follows_run a lawful).get lawful found⟩

theorem indices_of_built_doubled : doubled.Built ∧ doubled.Numbered ∧
    (∀ c, Added doubled c (add c doubled)) ∧
      ∀ (a : Addition) i d, doubled.get i = .ok d → (a.run doubled).get i = .ok d :=
  ⟨built_doubled, indices_of_built built_doubled⟩

end JvmClass.Pool
