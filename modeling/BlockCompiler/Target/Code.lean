/-
  BlockCompiler.Target.Code — modules of the target language, which is LLVM assembly with
  typed pointers.

  A module defines named types and then functions. A function with a body starts with the
  stack slots that it needs and jumps to its first block.
-/
import BlockCompiler.Target.CodeType
import BlockCompiler.Store.Handle

namespace BlockCompiler.Target

inductive Operand where
  | temp (number : Nat)
  /-- The slot of a variable. -/
  | slot (var : VarId)
  /-- A slot for a value that has no place of its own. -/
  | spill (number : Nat)
  | arg (index : Nat)
  | global (name : String)
  | int (value : Int)
  /-- A float, by the bits of its 64-bit form. -/
  | float (bits : UInt64)
  | floatZero
  | bool (value : Bool)
  | zero
  deriving DecidableEq, Repr

inductive IntPredicate where
  | eq
  | ne
  | sgt
  | ugt
  | sge
  | uge
  | slt
  | ult
  | sle
  | ule
  deriving DecidableEq, Repr

inductive FloatPredicate where
  | oeq
  | ogt
  | oge
  | olt
  | ole
  | une
  deriving DecidableEq, Repr

/-- Instructions on two operands of one type. -/
inductive BinaryOp where
  | and
  | or
  | xor
  | add
  | sub
  | mul
  | sdiv
  | udiv
  | shl
  | ashr
  | lshr
  | fadd
  | fsub
  | fmul
  | fdiv
  | icmp (predicate : IntPredicate)
  | fcmp (predicate : FloatPredicate)
  deriving DecidableEq, Repr

/-- Conversions between types. -/
inductive ConvertOp where
  | trunc
  | sext
  | zext
  | sitofp
  | uitofp
  | fptosi
  | fptoui
  | fpext
  | fptrunc
  | bitcast
  | ptrtoint
  | inttoptr
  deriving DecidableEq, Repr

inductive Instr where
  | store (ty : CodeType) (value address : Operand)
  | load (result : Operand) (ty addressTy : CodeType) (address : Operand)
  | extract (result : Operand) (ty : CodeType) (value : Operand) (index : Nat)
  /-- The address of a field of the aggregate at an address. -/
  | field (result : Operand) (ty : CodeType) (address : Operand) (index : Nat)
  /-- An address so many elements further on. -/
  | offset (result : Operand) (element addressTy : CodeType) (address index : Operand)
  | binary (result : Operand) (op : BinaryOp) (ty : CodeType) (lhs rhs : Operand)
  | negate (result : Operand) (ty : CodeType) (value : Operand)
  | convert (result : Operand) (op : ConvertOp) (source : CodeType) (value : Operand)
      (target : CodeType)
  | call (result : Operand) (ty : CodeType) (callee : Operand) (args : List (CodeType × Operand))
  | comment (text : String)
  deriving Repr

/-- How a block ends. -/
inductive Exit where
  | ret (ty : CodeType) (value : Operand)
  | jump (target : BlockId)
  | branch (condition : Operand) (ifTrue ifFalse : BlockId)
  | switch (tag : Operand) (fallback : BlockId) (targets : List (VariantId × BlockId))
  deriving Repr

structure CodeBlock where
  label : BlockId
  code : List Instr
  exit : Exit
  deriving Repr

/-- A stack slot. -/
structure Alloca where
  slot : Operand
  ty : CodeType
  comment : Option String
  deriving Repr

inductive FunCode where
  | declare (result : CodeType) (name : String) (params : List CodeType)
  | define (result : CodeType) (name : String) (params : List CodeType) (inlineHint : Bool)
      (slots : List Alloca) (entry : BlockId) (blocks : List CodeBlock)
  deriving Repr

structure ModuleCode where
  name : String
  triple : String
  types : List (String × CodeType)
  funs : List FunCode
  deriving Repr

end BlockCompiler.Target
