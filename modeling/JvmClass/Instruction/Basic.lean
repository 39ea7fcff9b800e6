import JvmClass.Descriptor
import JvmClass.Error

/-!
Instructions, grouped by their operands.  What a branch points at is a parameter: an offset
relative to the instruction in a code array, and a handle in a listing.  Local variables and
increments are widened only when their operands need it, and a constant index above 255 makes
`ldc` the wide form of itself.
-/

namespace JvmClass

/-- The operands of a lookup switch; keys need not be sorted. -/
structure Select (τ : Type) where
  default : τ
  pairs : List (Int32 × τ)
  deriving DecidableEq, Repr

inductive Instruction (τ : Type) where
  | plain (op : Opcode)
  | bipush (value : Int8)
  | sipush (value : Int16)
  | constant (op : Opcode) (index : UInt16)
  | localVariable (op : Opcode) (slot : UInt16)
  | increment (slot : UInt16) (delta : Int16)
  | interfaceCall (method : UInt16) (count : UInt8)
  | dynamicCall (index : UInt16)
  | newArray (element : BaseType)
  | multiArray (type : UInt16) (dimensions : UInt8)
  | branch (op : Opcode) (target : τ)
  | tableSwitch (default : τ) (low : Int32) (targets : List τ)
  | lookupSwitch (select : Select τ)
  deriving DecidableEq, Repr

namespace Select

variable {τ : Type}

def ofLists (keys : List Int32) (targets : List τ) (default : τ) : Except Error (Select τ) :=
  if keys.length = targets.length then .ok ⟨default, keys.zip targets⟩
  else .error (.unevenSelect keys.length targets.length)

def targets (s : Select τ) : List τ := s.default :: s.pairs.map (·.2)

end Select

/-- Bytes between the opcode of a switch and its operands, which start at a multiple of four. -/
def switchPadding (offset : Nat) : Nat := (4 - (offset + 1) % 4) % 4

theorem aligned_switchPadding (offset : Nat) : (offset + 1 + switchPadding offset) % 4 = 0 := by
  unfold switchPadding
  omega

theorem switchPadding_lt (offset : Nat) : switchPadding offset < 4 := Nat.mod_lt _ (by decide)

def fitsByte (n : Int) : Bool := -128 ≤ n && n ≤ 127

def fitsShort (n : Int) : Bool := -32768 ≤ n && n ≤ 32767

namespace Instruction

variable {τ σ : Type}

def opcode : Instruction τ → Opcode
  | plain op | constant op _ | localVariable op _ | branch op _ => op
  | bipush _ => .bipush
  | sipush _ => .sipush
  | increment _ _ => .iinc
  | interfaceCall _ _ => .invokeinterface
  | dynamicCall _ => .invokedynamic
  | newArray _ => .newarray
  | multiArray _ _ => .multianewarray
  | tableSwitch _ _ _ => .tableswitch
  | lookupSwitch _ => .lookupswitch

/-- The local variable that is read or written, be it an operand or part of the opcode. -/
def slot? : Instruction τ → Option UInt16
  | localVariable _ i | increment i _ => some i
  | plain op => op.localAccess?.bind (·.named?)
  | _ => none

def isWideBranch (op : Opcode) : Bool := op.shape? == some .wideBranch

def widthAt (offset : Nat) : Instruction τ → Nat
  | plain _ => 1
  | bipush _ | newArray _ => 2
  | sipush _ => 3
  | constant op i => if op = .ldc ∧ i ≤ 255 then 2 else 3
  | localVariable _ i => if i ≤ 255 then 2 else 4
  | increment i d => if i ≤ 255 ∧ fitsByte d.toInt then 3 else 6
  | interfaceCall _ _ | dynamicCall _ => 5
  | multiArray _ _ => 4
  | branch op _ => if isWideBranch op then 5 else 3
  | tableSwitch _ _ ts => 1 + switchPadding offset + 12 + 4 * ts.length
  | lookupSwitch s => 1 + switchPadding offset + 8 + 8 * s.pairs.length

def targets : Instruction τ → List τ
  | branch _ t => [t]
  | tableSwitch d _ ts => d :: ts
  | lookupSwitch s => s.targets
  | _ => []

def map (f : τ → σ) : Instruction τ → Instruction σ
  | plain op => plain op
  | bipush v => bipush v
  | sipush v => sipush v
  | constant op i => constant op i
  | localVariable op i => localVariable op i
  | increment i d => increment i d
  | interfaceCall m n => interfaceCall m n
  | dynamicCall i => dynamicCall i
  | newArray t => newArray t
  | multiArray c n => multiArray c n
  | branch op t => branch op (f t)
  | tableSwitch d low ts => tableSwitch (f d) low (ts.map f)
  | lookupSwitch s => lookupSwitch ⟨f s.default, s.pairs.map fun (k, t) => (k, f t)⟩

/-- As `map`, where finding a target may fail.  The targets of a lookup switch are looked at
before its default. -/
def mapM {ε : Type} (f : τ → Except ε σ) : Instruction τ → Except ε (Instruction σ)
  | plain op => .ok (plain op)
  | bipush v => .ok (bipush v)
  | sipush v => .ok (sipush v)
  | constant op i => .ok (constant op i)
  | localVariable op i => .ok (localVariable op i)
  | increment i d => .ok (increment i d)
  | interfaceCall m n => .ok (interfaceCall m n)
  | dynamicCall i => .ok (dynamicCall i)
  | newArray t => .ok (newArray t)
  | multiArray c n => .ok (multiArray c n)
  | branch op t => branch op <$> f t
  | tableSwitch d low ts => do
    let d ← f d
    return tableSwitch d low (← ts.mapM f)
  | lookupSwitch s => do
    let pairs ← s.pairs.mapM fun (k, t) => (k, ·) <$> f t
    return lookupSwitch ⟨← f s.default, pairs⟩

def describeCases (target : τ → String) (pairs : List (Int × τ)) (default : τ) : String :=
  "\x7b" ++ String.join (pairs.map fun (k, t) => s!" {k}: " ++ target t ++ ",") ++
    " default: " ++ target default ++ " \x7d"

def describe (target : τ → String) (i : Instruction τ) : String :=
  let operands : String := match i with
    | plain _ => ""
    | bipush v => s!" {v.toInt}"
    | sipush v => s!" {v.toInt}"
    | constant _ c | dynamicCall c => s!" #{c}"
    | localVariable _ v => s!" {v}"
    | increment v d => s!" {v} {d.toInt}"
    | interfaceCall m n => s!" #{m} {n}"
    | newArray t => " " ++ t.word
    | multiArray c n => s!" #{c} {n}"
    | branch _ t => " " ++ target t
    | tableSwitch d low ts =>
      " " ++ describeCases target (ts.zipIdx.map fun (t, k) => (low.toInt + k, t)) d
    | lookupSwitch s =>
      " " ++ describeCases target (s.pairs.map fun (k, t) => (k.toInt, t)) s.default
  i.opcode.mnemonic ++ operands

@[simp] theorem targets_map (f : τ → σ) (i : Instruction τ) :
    (i.map f).targets = i.targets.map f := by
  cases i <;> simp [map, targets, Select.targets]

@[simp] theorem widthAt_map (f : τ → σ) (offset : Nat) (i : Instruction τ) :
    (i.map f).widthAt offset = i.widthAt offset := by
  cases i <;> simp [map, widthAt]

theorem widthAt_pos (offset : Nat) (i : Instruction τ) : 0 < i.widthAt offset := by
  cases i <;> simp only [widthAt] <;> (try split) <;> omega

end Instruction

end JvmClass
