import JvmClass.Code.Handle
import JvmClass.Constant.Basic
import JvmClass.Opcode.Table
import JvmClass.Text.ModifiedUtf8

/-!
What can go wrong with a class file outside the verifier, and how it is put into words.
-/

namespace JvmClass

inductive Malformed where
  | endOfInput
  | leftover (size consumed : Nat)
  | shortRun (wanted got : Nat)
  | zeroPoolCount
  | poolSpill (index count : Nat)
  | unknownTag (tag : UInt8)
  | unknownHandleKind (code : UInt8)
  | text (cause : Text.ModifiedUtf8.Fault)
  | badMagic (bytes : List UInt8)
  | version (major minor newest : UInt16)
  | inAttribute (name : String) (cause : Malformed)
  | unassignedOpcode (op : Opcode)
  | unassignedOpcodeAt (op : Opcode) (offset : Nat)
  | operandShape (op : Opcode) (shape : OperandShape)
  | branchDistance (op : Opcode) (distance : Int32)
  | noHighKey (low : Int32) (targets : Nat)
  | interfaceCallByte (offset : Nat)
  | dynamicCallBytes (offset : Nat)
  | arrayCode (offset : Nat) (code : UInt8)
  | switchKeys (offset : Nat) (low high : Int32)
  | switchSize (offset count remaining : Nat)
  | negativePairs (offset : Nat) (count : Int32)
  | wideOperand (offset : Nat) (op : Opcode)
  | emptyRange (start stop : Nat)
  | backwardRange (start stop : Handle)
  deriving DecidableEq, Repr

def oldestMajorVersion : UInt16 := 45

def maxCodeLength : Nat := 65535

def Malformed.message : Malformed → String
  | endOfInput => "unexpected end of input"
  | leftover size consumed => s!"expected {size} bytes but only {consumed} were consumed"
  | shortRun wanted got => s!"expected {wanted} bytes but the input ends after {got}"
  | zeroPoolCount => "constant_pool_count is 0"
  | poolSpill i n => s!"constant at index {i} spills past constant_pool_count {n}"
  | unknownTag t => s!"unknown constant tag {t}"
  | unknownHandleKind c => s!"unknown method handle kind {c}"
  | text cause => cause.message
  | badMagic bs =>
    "bad magic number [" ++ ", ".intercalate (bs.map Text.hexByteUpper) ++ "] (expected CAFEBABE)"
  | version major minor newest =>
    s!"unsupported class file version {major}.{minor} " ++
      s!"(expected major version {oldestMajorVersion} to {newest})"
  | inAttribute name cause => s!"{name} attribute: {cause.message}"
  | unassignedOpcode op => s!"invalid opcode {Text.markedHexByte op.code}"
  | unassignedOpcodeAt op o => s!"invalid opcode {Text.markedHexByte op.code} at offset {o}"
  | operandShape op shape => s!"{op.mnemonic} does not take operands of shape {shape.label}"
  | branchDistance op d => s!"{op.mnemonic} offset {d.toInt} does not fit in 16 bits"
  | noHighKey low n => s!"tableswitch from {low.toInt} with {n} targets has no valid high key"
  | interfaceCallByte o => s!"invokeinterface at offset {o} has a non-zero fourth operand byte"
  | dynamicCallBytes o => s!"invokedynamic at offset {o} has non-zero padding bytes"
  | arrayCode o c => s!"newarray at offset {o} has invalid type code {c}"
  | switchKeys o low high =>
    s!"tableswitch at offset {o} has low {low.toInt} > high {high.toInt}"
  | switchSize o n remaining =>
    s!"switch at offset {o} has {n} entries, but only {remaining} bytes remain"
  | negativePairs o n => s!"lookupswitch at offset {o} has negative pair count {n.toInt}"
  | wideOperand o op => s!"wide at offset {o} cannot modify {op.mnemonic}"
  | emptyRange start stop => s!"empty code range from {start} to {stop}"
  | backwardRange start stop => s!"range {start.label}..={stop.label} ends before it starts"

inductive PoolFault where
  /-- Nothing starts at the index. -/
  | outOfRange (index : UInt16)
  | unexpected (index : UInt16) (expected : String) (found : Constant)
  deriving DecidableEq, Repr

def PoolFault.message : PoolFault → String
  | outOfRange i => s!"constant pool index {i} is out of range"
  | unexpected i expected found => s!"constant #{i} should be {expected} but is {found.describe}"

inductive Error where
  | malformed (why : Malformed)
  /-- A count does not fit into the field that is to hold it. -/
  | tooLarge (what : String) (value max : Nat)
  | poolFull (constant : Constant) (next : Nat)
  | pool (why : PoolFault)
  | stillTargeted (h : Handle) (targeters : List Targeter)
  | unknownHandle (h : Handle)
  /-- An offset is not the start of an instruction. -/
  | missingTarget (source : Nat) (target : Int)
  | unevenSelect (keys targets : Nat)
  | branchTooFar (branch : Handle) (distance : Int)
  | codeTooLong (length : Nat)
  deriving DecidableEq, Repr

def Error.message : Error → String
  | malformed why => s!"malformed class file: {why.message}"
  | tooLarge what value max => s!"{what} of {value} exceeds the maximum of {max}"
  | poolFull c next => s!"constant pool is full (next index {next}, adding {c.describe})"
  | pool why => why.message
  | stillTargeted h ts =>
    s!"{h.label} is still targeted by [" ++ ", ".intercalate (ts.map Targeter.label) ++ "]"
  | unknownHandle h => s!"{h.label} is not in this instruction list"
  | missingTarget source target =>
    s!"offset {target} (referenced from {source}) is not the start of an instruction"
  | unevenSelect keys targets => s!"select has {keys} keys but {targets} targets"
  | branchTooFar h d => s!"branch {h.label} jumps {d} bytes, which does not fit in 16 bits"
  | codeTooLong n => s!"method code is {n} bytes long"

end JvmClass
