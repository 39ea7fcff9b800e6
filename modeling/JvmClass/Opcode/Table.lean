import JvmClass.Opcode.Basic

/-!
The table of assigned opcodes, in the order of their codes: code 0 is the first row and the codes
after the last row are unassigned.
-/

namespace JvmClass.Opcode

structure Entry where
  mnemonic : String
  shape : OperandShape
  facets : List Facet
  effect : StackEffect
  deriving DecidableEq, Repr

def table : Array Entry := #[
  ⟨"nop", .none, [], .fixed [] []⟩,
  ⟨"aconst_null", .none, [.producer], .special⟩,
  ⟨"iconst_m1", .none, [.producer], .fixed [] [.int]⟩,
  ⟨"iconst_0", .none, [.producer], .fixed [] [.int]⟩,
  ⟨"iconst_1", .none, [.producer], .fixed [] [.int]⟩,
  ⟨"iconst_2", .none, [.producer], .fixed [] [.int]⟩,
  ⟨"iconst_3", .none, [.producer], .fixed [] [.int]⟩,
  ⟨"iconst_4", .none, [.producer], .fixed [] [.int]⟩,
  ⟨"iconst_5", .none, [.producer], .fixed [] [.int]⟩,
  ⟨"lconst_0", .none, [.producer], .fixed [] [.long]⟩,
  ⟨"lconst_1", .none, [.producer], .fixed [] [.long]⟩,
  ⟨"fconst_0", .none, [.producer], .fixed [] [.float]⟩,
  ⟨"fconst_1", .none, [.producer], .fixed [] [.float]⟩,
  ⟨"fconst_2", .none, [.producer], .fixed [] [.float]⟩,
  ⟨"dconst_0", .none, [.producer], .fixed [] [.double]⟩,
  ⟨"dconst_1", .none, [.producer], .fixed [] [.double]⟩,
  ⟨"bipush", .byte, [.producer], .fixed [] [.int]⟩,
  ⟨"sipush", .short, [.producer], .fixed [] [.int]⟩,
  ⟨"ldc", .shortConstant, [.throwing, .constant, .producer], .special⟩,
  ⟨"ldc_w", .constant, [.throwing, .constant, .producer], .special⟩,
  ⟨"ldc2_w", .constant, [.constant, .producer], .special⟩,
  ⟨"iload", .local, [.localVariable, .producer], .special⟩,
  ⟨"lload", .local, [.localVariable, .producer], .special⟩,
  ⟨"fload", .local, [.localVariable, .producer], .special⟩,
  ⟨"dload", .local, [.localVariable, .producer], .special⟩,
  ⟨"aload", .local, [.localVariable, .producer], .special⟩,
  ⟨"iload_0", .none, [.localVariable, .producer], .special⟩,
  ⟨"iload_1", .none, [.localVariable, .producer], .special⟩,
  ⟨"iload_2", .none, [.localVariable, .producer], .special⟩,
  ⟨"iload_3", .none, [.localVariable, .producer], .special⟩,
  ⟨"lload_0", .none, [.localVariable, .producer], .special⟩,
  ⟨"lload_1", .none, [.localVariable, .producer], .special⟩,
  ⟨"lload_2", .none, [.localVariable, .producer], .special⟩,
  ⟨"lload_3", .none, [.localVariable, .producer], .special⟩,
  ⟨"fload_0", .none, [.localVariable, .producer], .special⟩,
  ⟨"fload_1", .none, [.localVariable, .producer], .special⟩,
  ⟨"fload_2", .none, [.localVariable, .producer], .special⟩,
  ⟨"fload_3", .none, [.localVariable, .producer], .special⟩,
  ⟨"dload_0", .none, [.localVariable, .producer], .special⟩,
  ⟨"dload_1", .none, [.localVariable, .producer], .special⟩,
  ⟨"dload_2", .none, [.localVariable, .producer], .special⟩,
  ⟨"dload_3", .none, [.localVariable, .producer], .special⟩,
  ⟨"aload_0", .none, [.localVariable, .producer], .special⟩,
  ⟨"aload_1", .none, [.localVariable, .producer], .special⟩,
  ⟨"aload_2", .none, [.localVariable, .producer], .special⟩,
  ⟨"aload_3", .none, [.localVariable, .producer], .special⟩,
  ⟨"iaload", .none, [.throwing, .producer, .consumer], .special⟩,
  ⟨"laload", .none, [.throwing, .producer, .consumer], .special⟩,
  ⟨"faload", .none, [.throwing, .producer, .consumer], .special⟩,
  ⟨"daload", .none, [.throwing, .producer, .consumer], .special⟩,
  ⟨"aaload", .none, [.throwing, .producer, .consumer], .special⟩,
  ⟨"baload", .none, [.throwing, .producer, .consumer], .special⟩,
  ⟨"caload", .none, [.throwing, .producer, .consumer], .special⟩,
  ⟨"saload", .none, [.throwing, .producer, .consumer], .special⟩,
  ⟨"istore", .local, [.localVariable, .consumer], .special⟩,
  ⟨"lstore", .local, [.localVariable, .consumer], .special⟩,
  ⟨"fstore", .local, [.localVariable, .consumer], .special⟩,
  ⟨"dstore", .local, [.localVariable, .consumer], .special⟩,
  ⟨"astore", .local, [.localVariable, .consumer], .special⟩,
  ⟨"istore_0", .none, [.localVariable, .consumer], .special⟩,
  ⟨"istore_1", .none, [.localVariable, .consumer], .special⟩,
  ⟨"istore_2", .none, [.localVariable, .consumer], .special⟩,
  ⟨"istore_3", .none, [.localVariable, .consumer], .special⟩,
  ⟨"lstore_0", .none, [.localVariable, .consumer], .special⟩,
  ⟨"lstore_1", .none, [.localVariable, .consumer], .special⟩,
  ⟨"lstore_2", .none, [.localVariable, .consumer], .special⟩,
  ⟨"lstore_3", .none, [.localVariable, .consumer], .special⟩,
  ⟨"fstore_0", .none, [.localVariable, .consumer], .special⟩,
  ⟨"fstore_1", .none, [.localVariable, .consumer], .special⟩,
  ⟨"fstore_2", .none, [.localVariable, .consumer], .special⟩,
  ⟨"fstore_3", .none, [.localVariable, .consumer], .special⟩,
  ⟨"dstore_0", .none, [.localVariable, .consumer], .special⟩,
  ⟨"dstore_1", .none, [.localVariable, .consumer], .special⟩,
  ⟨"dstore_2", .none, [.localVariable, .consumer], .special⟩,
  ⟨"dstore_3", .none, [.localVariable, .consumer], .special⟩,
  ⟨"astore_0", .none, [.localVariable, .consumer], .special⟩,
  ⟨"astore_1", .none, [.localVariable, .consumer], .special⟩,
  ⟨"astore_2", .none, [.localVariable, .consumer], .special⟩,
  ⟨"astore_3", .none, [.localVariable, .consumer], .special⟩,
  ⟨"iastore", .none, [.throwing, .consumer], .special⟩,
  ⟨"lastore", .none, [.throwing, .consumer], .special⟩,
  ⟨"fastore", .none, [.throwing, .consumer], .special⟩,
  ⟨"dastore", .none, [.throwing, .consumer], .special⟩,
  ⟨"aastore", .none, [.throwing, .consumer], .special⟩,
  ⟨"bastore", .none, [.throwing, .consumer], .special⟩,
  ⟨"castore", .none, [.throwing, .consumer], .special⟩,
  ⟨"sastore", .none, [.throwing, .consumer], .special⟩,
  ⟨"pop", .none, [.consumer], .special⟩,
  ⟨"pop2", .none, [.consumer], .special⟩,
  ⟨"dup", .none, [.producer, .consumer], .special⟩,
  ⟨"dup_x1", .none, [.producer, .consumer], .special⟩,
  ⟨"dup_x2", .none, [.producer, .consumer], .special⟩,
  ⟨"dup2", .none, [.producer, .consumer], .special⟩,
  ⟨"dup2_x1", .none, [.producer, .consumer], .special⟩,
  ⟨"dup2_x2", .none, [.producer, .consumer], .special⟩,
  ⟨"swap", .none, [.producer, .consumer], .special⟩,
  ⟨"iadd", .none, [.producer, .consumer], .fixed [.int, .int] [.int]⟩,
  ⟨"ladd", .none, [.producer, .consumer], .fixed [.long, .long] [.long]⟩,
  ⟨"fadd", .none, [.producer, .consumer], .fixed [.float, .float] [.float]⟩,
  ⟨"dadd", .none, [.producer, .consumer], .fixed [.double, .double] [.double]⟩,
  ⟨"isub", .none, [.producer, .consumer], .fixed [.int, .int] [.int]⟩,
  ⟨"lsub", .none, [.producer, .consumer], .fixed [.long, .long] [.long]⟩,
  ⟨"fsub", .none, [.producer, .consumer], .fixed [.float, .float] [.float]⟩,
  ⟨"dsub", .none, [.producer, .consumer], .fixed [.double, .double] [.double]⟩,
  ⟨"imul", .none, [.producer, .consumer], .fixed [.int, .int] [.int]⟩,
  ⟨"lmul", .none, [.producer, .consumer], .fixed [.long, .long] [.long]⟩,
  ⟨"fmul", .none, [.producer, .consumer], .fixed [.float, .float] [.float]⟩,
  ⟨"dmul", .none, [.producer, .consumer], .fixed [.double, .double] [.double]⟩,
  ⟨"idiv", .none, [.throwing, .producer, .consumer], .fixed [.int, .int] [.int]⟩,
  ⟨"ldiv", .none, [.throwing, .producer, .consumer], .fixed [.long, .long] [.long]⟩,
  ⟨"fdiv", .none, [.producer, .consumer], .fixed [.float, .float] [.float]⟩,
  ⟨"ddiv", .none, [.producer, .consumer], .fixed [.double, .double] [.double]⟩,
  ⟨"irem", .none, [.throwing, .producer, .consumer], .fixed [.int, .int] [.int]⟩,
  ⟨"lrem", .none, [.throwing, .producer, .consumer], .fixed [.long, .long] [.long]⟩,
  ⟨"frem", .none, [.producer, .consumer], .fixed [.float, .float] [.float]⟩,
  ⟨"drem", .none, [.producer, .consumer], .fixed [.double, .double] [.double]⟩,
  ⟨"ineg", .none, [.producer, .consumer], .fixed [.int] [.int]⟩,
  ⟨"lneg", .none, [.producer, .consumer], .fixed [.long] [.long]⟩,
  ⟨"fneg", .none, [.producer, .consumer], .fixed [.float] [.float]⟩,
  ⟨"dneg", .none, [.producer, .consumer], .fixed [.double] [.double]⟩,
  ⟨"ishl", .none, [.producer, .consumer], .fixed [.int, .int] [.int]⟩,
  ⟨"lshl", .none, [.producer, .consumer], .fixed [.long, .int] [.long]⟩,
  ⟨"ishr", .none, [.producer, .consumer], .fixed [.int, .int] [.int]⟩,
  ⟨"lshr", .none, [.producer, .consumer], .fixed [.long, .int] [.long]⟩,
  ⟨"iushr", .none, [.producer, .consumer], .fixed [.int, .int] [.int]⟩,
  ⟨"lushr", .none, [.producer, .consumer], .fixed [.long, .int] [.long]⟩,
  ⟨"iand", .none, [.producer, .consumer], .fixed [.int, .int] [.int]⟩,
  ⟨"land", .none, [.producer, .consumer], .fixed [.long, .long] [.long]⟩,
  ⟨"ior", .none, [.producer, .consumer], .fixed [.int, .int] [.int]⟩,
  ⟨"lor", .none, [.producer, .consumer], .fixed [.long, .long] [.long]⟩,
  ⟨"ixor", .none, [.producer, .consumer], .fixed [.int, .int] [.int]⟩,
  ⟨"lxor", .none, [.producer, .consumer], .fixed [.long, .long] [.long]⟩,
  ⟨"iinc", .increment, [.localVariable], .special⟩,
  ⟨"i2l", .none, [.producer, .consumer], .fixed [.int] [.long]⟩,
  ⟨"i2f", .none, [.producer, .consumer], .fixed [.int] [.float]⟩,
  ⟨"i2d", .none, [.producer, .consumer], .fixed [.int] [.double]⟩,
  ⟨"l2i", .none, [.producer, .consumer], .fixed [.long] [.int]⟩,
  ⟨"l2f", .none, [.producer, .consumer], .fixed [.long] [.float]⟩,
  ⟨"l2d", .none, [.producer, .consumer], .fixed [.long] [.double]⟩,
  ⟨"f2i", .none, [.producer, .consumer], .fixed [.float] [.int]⟩,
  ⟨"f2l", .none, [.producer, .consumer], .fixed [.float] [.long]⟩,
  ⟨"f2d", .none, [.producer, .consumer], .fixed [.float] [.double]⟩,
  ⟨"d2i", .none, [.producer, .consumer], .fixed [.double] [.int]⟩,
  ⟨"d2l", .none, [.producer, .consumer], .fixed [.double] [.long]⟩,
  ⟨"d2f", .none, [.producer, .consumer], .fixed [.double] [.float]⟩,
  ⟨"i2b", .none, [.producer, .consumer], .fixed [.int] [.int]⟩,
  ⟨"i2c", .none, [.producer, .consumer], .fixed [.int] [.int]⟩,
  ⟨"i2s", .none, [.producer, .consumer], .fixed [.int] [.int]⟩,
  ⟨"lcmp", .none, [.producer, .consumer], .fixed [.long, .long] [.int]⟩,
  ⟨"fcmpl", .none, [.producer, .consumer], .fixed [.float, .float] [.int]⟩,
  ⟨"fcmpg", .none, [.producer, .consumer], .fixed [.float, .float] [.int]⟩,
  ⟨"dcmpl", .none, [.producer, .consumer], .fixed [.double, .double] [.int]⟩,
  ⟨"dcmpg", .none, [.producer, .consumer], .fixed [.double, .double] [.int]⟩,
  ⟨"ifeq", .branch, [.branch, .conditional, .consumer], .fixed [.int] []⟩,
  ⟨"ifne", .branch, [.branch, .conditional, .consumer], .fixed [.int] []⟩,
  ⟨"iflt", .branch, [.branch, .conditional, .consumer], .fixed [.int] []⟩,
  ⟨"ifge", .branch, [.branch, .conditional, .consumer], .fixed [.int] []⟩,
  ⟨"ifgt", .branch, [.branch, .conditional, .consumer], .fixed [.int] []⟩,
  ⟨"ifle", .branch, [.branch, .conditional, .consumer], .fixed [.int] []⟩,
  ⟨"if_icmpeq", .branch, [.branch, .conditional, .consumer], .fixed [.int, .int] []⟩,
  ⟨"if_icmpne", .branch, [.branch, .conditional, .consumer], .fixed [.int, .int] []⟩,
  ⟨"if_icmplt", .branch, [.branch, .conditional, .consumer], .fixed [.int, .int] []⟩,
  ⟨"if_icmpge", .branch, [.branch, .conditional, .consumer], .fixed [.int, .int] []⟩,
  ⟨"if_icmpgt", .branch, [.branch, .conditional, .consumer], .fixed [.int, .int] []⟩,
  ⟨"if_icmple", .branch, [.branch, .conditional, .consumer], .fixed [.int, .int] []⟩,
  ⟨"if_acmpeq", .branch, [.branch, .conditional, .consumer], .fixed [.reference, .reference] []⟩,
  ⟨"if_acmpne", .branch, [.branch, .conditional, .consumer], .fixed [.reference, .reference] []⟩,
  ⟨"goto", .branch, [.branch], .fixed [] []⟩,
  ⟨"jsr", .branch, [.branch, .producer, .subroutine], .special⟩,
  ⟨"ret", .local, [.branch, .localVariable, .subroutine], .special⟩,
  ⟨"tableswitch", .tableSwitch, [.branch, .select, .consumer, .variableLength], .fixed [.int] []⟩,
  ⟨"lookupswitch", .lookupSwitch, [.branch, .select, .consumer, .variableLength], .fixed [.int] []⟩,
  ⟨"ireturn", .none, [.returning, .throwing, .consumer], .special⟩,
  ⟨"lreturn", .none, [.returning, .throwing, .consumer], .special⟩,
  ⟨"freturn", .none, [.returning, .throwing, .consumer], .special⟩,
  ⟨"dreturn", .none, [.returning, .throwing, .consumer], .special⟩,
  ⟨"areturn", .none, [.returning, .throwing, .consumer], .special⟩,
  ⟨"return", .none, [.returning, .throwing], .special⟩,
  ⟨"getstatic", .constant, [.throwing, .constant, .fieldAccess, .producer], .special⟩,
  ⟨"putstatic", .constant, [.throwing, .constant, .fieldAccess, .consumer], .special⟩,
  ⟨"getfield", .constant, [.throwing, .constant, .fieldAccess, .producer, .consumer], .special⟩,
  ⟨"putfield", .constant, [.throwing, .constant, .fieldAccess, .consumer], .special⟩,
  ⟨"invokevirtual", .constant, [.throwing, .constant, .invoke, .producer, .consumer], .special⟩,
  ⟨"invokespecial", .constant, [.throwing, .constant, .invoke, .producer, .consumer], .special⟩,
  ⟨"invokestatic", .constant, [.throwing, .constant, .invoke, .producer, .consumer], .special⟩,
  ⟨"invokeinterface", .interfaceCall, [.throwing, .constant, .invoke, .producer, .consumer],
    .special⟩,
  ⟨"invokedynamic", .dynamicCall, [.throwing, .constant, .invoke, .producer, .consumer], .special⟩,
  ⟨"new", .constant, [.throwing, .constant, .allocation, .producer], .special⟩,
  ⟨"newarray", .newArray, [.throwing, .allocation, .producer, .consumer], .special⟩,
  ⟨"anewarray", .constant, [.throwing, .constant, .allocation, .producer, .consumer], .special⟩,
  ⟨"arraylength", .none, [.throwing, .producer, .consumer], .special⟩,
  ⟨"athrow", .none, [.throwing, .consumer], .special⟩,
  ⟨"checkcast", .constant, [.throwing, .constant, .producer, .consumer], .special⟩,
  ⟨"instanceof", .constant, [.throwing, .constant, .producer, .consumer],
    .fixed [.reference] [.int]⟩,
  ⟨"monitorenter", .none, [.throwing, .consumer], .fixed [.reference] []⟩,
  ⟨"monitorexit", .none, [.throwing, .consumer], .fixed [.reference] []⟩,
  ⟨"wide", .wide, [.variableLength], .special⟩,
  ⟨"multianewarray", .multiArray, [.throwing, .constant, .allocation, .producer, .consumer],
    .special⟩,
  ⟨"ifnull", .branch, [.branch, .conditional, .consumer], .fixed [.reference] []⟩,
  ⟨"ifnonnull", .branch, [.branch, .conditional, .consumer], .fixed [.reference] []⟩,
  ⟨"goto_w", .wideBranch, [.branch], .fixed [] []⟩,
  ⟨"jsr_w", .wideBranch, [.branch, .producer, .subroutine], .special⟩]

def entry? (op : Opcode) : Option Entry := table[op.code.toNat]?

def isAssigned (op : Opcode) : Bool := op.entry?.isSome

def mnemonic (op : Opcode) : String := op.entry?.elim "<invalid>" (·.mnemonic)

def shape? (op : Opcode) : Option OperandShape := op.entry?.map (·.shape)

def facets (op : Opcode) : List Facet := op.entry?.elim [] (·.facets)

def hasFacet (op : Opcode) (f : Facet) : Bool := op.facets.contains f

def fixedEffect? (op : Opcode) : Option (List ValueKind × List ValueKind) :=
  match op.entry? with
  | some ⟨_, _, _, .fixed pops pushes⟩ => some (pops, pushes)
  | _ => none

/-- The five kinds of loads and stores follow each other, each with one opcode that takes the
variable as an operand; the forms that name the variable are in groups of four. -/
def localAccess? (op : Opcode) : Option LocalAccess :=
  let code := op.code.toNat
  let explicit (base : Nat) (isStore : Bool) : Option LocalAccess :=
    ValueKind.all[code - base]?.map (⟨·, isStore, none⟩)
  let implicit (base : Nat) (isStore : Bool) : Option LocalAccess :=
    ValueKind.all[(code - base) / 4]?.map (⟨·, isStore, some ((code - base) % 4).toUInt16⟩)
  if code < 0x15 then none
  else if code ≤ 0x19 then explicit 0x15 false
  else if code ≤ 0x2d then implicit 0x1a false
  else if code < 0x36 then none
  else if code ≤ 0x3a then explicit 0x36 true
  else if code ≤ 0x4e then implicit 0x3b true
  else none

def isWidenable (op : Opcode) : Bool :=
  let c := op.code
  (0x15 ≤ c && c ≤ 0x19) || (0x36 ≤ c && c ≤ 0x3a) || c == 0x84 || c == 0xa9

@[match_pattern] def aconstNull : Opcode := ⟨0x01⟩
@[match_pattern] def bipush : Opcode := ⟨0x10⟩
@[match_pattern] def sipush : Opcode := ⟨0x11⟩
@[match_pattern] def ldc : Opcode := ⟨0x12⟩
@[match_pattern] def ldcWide : Opcode := ⟨0x13⟩
@[match_pattern] def ldcTwo : Opcode := ⟨0x14⟩
@[match_pattern] def iaload : Opcode := ⟨0x2e⟩
@[match_pattern] def laload : Opcode := ⟨0x2f⟩
@[match_pattern] def faload : Opcode := ⟨0x30⟩
@[match_pattern] def daload : Opcode := ⟨0x31⟩
@[match_pattern] def aaload : Opcode := ⟨0x32⟩
@[match_pattern] def baload : Opcode := ⟨0x33⟩
@[match_pattern] def caload : Opcode := ⟨0x34⟩
@[match_pattern] def saload : Opcode := ⟨0x35⟩
@[match_pattern] def iastore : Opcode := ⟨0x4f⟩
@[match_pattern] def lastore : Opcode := ⟨0x50⟩
@[match_pattern] def fastore : Opcode := ⟨0x51⟩
@[match_pattern] def dastore : Opcode := ⟨0x52⟩
@[match_pattern] def aastore : Opcode := ⟨0x53⟩
@[match_pattern] def bastore : Opcode := ⟨0x54⟩
@[match_pattern] def castore : Opcode := ⟨0x55⟩
@[match_pattern] def sastore : Opcode := ⟨0x56⟩
@[match_pattern] def pop : Opcode := ⟨0x57⟩
@[match_pattern] def popTwo : Opcode := ⟨0x58⟩
@[match_pattern] def dup : Opcode := ⟨0x59⟩
@[match_pattern] def dupX1 : Opcode := ⟨0x5a⟩
@[match_pattern] def dupX2 : Opcode := ⟨0x5b⟩
@[match_pattern] def dupTwo : Opcode := ⟨0x5c⟩
@[match_pattern] def dupTwoX1 : Opcode := ⟨0x5d⟩
@[match_pattern] def dupTwoX2 : Opcode := ⟨0x5e⟩
@[match_pattern] def swap : Opcode := ⟨0x5f⟩
@[match_pattern] def iinc : Opcode := ⟨0x84⟩
@[match_pattern] def goto : Opcode := ⟨0xa7⟩
@[match_pattern] def jsr : Opcode := ⟨0xa8⟩
@[match_pattern] def ret : Opcode := ⟨0xa9⟩
@[match_pattern] def tableswitch : Opcode := ⟨0xaa⟩
@[match_pattern] def lookupswitch : Opcode := ⟨0xab⟩
@[match_pattern] def ireturn : Opcode := ⟨0xac⟩
@[match_pattern] def lreturn : Opcode := ⟨0xad⟩
@[match_pattern] def freturn : Opcode := ⟨0xae⟩
@[match_pattern] def dreturn : Opcode := ⟨0xaf⟩
@[match_pattern] def areturn : Opcode := ⟨0xb0⟩
@[match_pattern] def voidReturn : Opcode := ⟨0xb1⟩
@[match_pattern] def getstatic : Opcode := ⟨0xb2⟩
@[match_pattern] def putstatic : Opcode := ⟨0xb3⟩
@[match_pattern] def getfield : Opcode := ⟨0xb4⟩
@[match_pattern] def putfield : Opcode := ⟨0xb5⟩
@[match_pattern] def invokevirtual : Opcode := ⟨0xb6⟩
@[match_pattern] def invokespecial : Opcode := ⟨0xb7⟩
@[match_pattern] def invokestatic : Opcode := ⟨0xb8⟩
@[match_pattern] def invokeinterface : Opcode := ⟨0xb9⟩
@[match_pattern] def invokedynamic : Opcode := ⟨0xba⟩
@[match_pattern] def new : Opcode := ⟨0xbb⟩
@[match_pattern] def newarray : Opcode := ⟨0xbc⟩
@[match_pattern] def anewarray : Opcode := ⟨0xbd⟩
@[match_pattern] def arraylength : Opcode := ⟨0xbe⟩
@[match_pattern] def athrow : Opcode := ⟨0xbf⟩
@[match_pattern] def checkcast : Opcode := ⟨0xc0⟩
@[match_pattern] def instanceof : Opcode := ⟨0xc1⟩
@[match_pattern] def wide : Opcode := ⟨0xc4⟩
@[match_pattern] def multianewarray : Opcode := ⟨0xc5⟩
@[match_pattern] def gotoWide : Opcode := ⟨0xc8⟩
@[match_pattern] def jsrWide : Opcode := ⟨0xc9⟩

end JvmClass.Opcode
