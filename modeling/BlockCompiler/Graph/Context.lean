/-
  BlockCompiler.Graph.Context — blocks, variables and functions, and the stores of a
  compilation.

  A block is a list of statements and, once it is closed, one terminator. A context owns all
  types, functions, blocks and variables; they refer to each other by handle, and nothing is
  ever removed.
-/
import BlockCompiler.Graph.Value
import BlockCompiler.Store.Arena
import BlockCompiler.Types.Name

namespace BlockCompiler

inductive BlockStmt where
  /-- The life of a variable starts. -/
  | live (var : VarId)
  | store (var : VarId) (value : Value)
  deriving Repr

inductive Terminator where
  | ret (value : Value)
  | jump (target : BlockId)
  | branch (condition : Value) (ifTrue ifFalse : BlockId)
  /-- Goes on according to the variant that a sum value holds. -/
  | switch (scrutinee : Value) (targets : List (VariantId × BlockId)) (fallback : BlockId)
  deriving Repr

/-- The blocks that a terminator can go to, in order. -/
def Terminator.successors : Terminator → List BlockId
  | ret _ => []
  | jump target => [target]
  | branch _ ifTrue ifFalse => [ifTrue, ifFalse]
  | switch _ targets fallback => targets.map (·.2) ++ [fallback]

structure Block where
  stmts : Array BlockStmt := #[]
  /-- Nothing while the block is being built. -/
  terminator : Option Terminator := none
  deriving Repr

structure Variable where
  ty : TypeId
  name : String
  deriving DecidableEq, Repr

structure Body where
  entry : BlockId
  parent : FunId
  deriving DecidableEq, Repr

structure Function where
  name : String
  signature : Signature
  file : FileId
  span : Span
  /-- Nothing for a function defined elsewhere. -/
  body : Option Body := none
  flags : FunFlags := {}
  deriving Repr

structure Context where
  types : TypeTable := TypeTable.fresh
  funs : Arena .function Function := .empty
  blocks : Arena .block Block := .empty
  vars : Arena .variable Variable := .empty

namespace Context

def typeName (c : Context) (id : TypeId) : Except Fault String := c.types.name id

end Context

end BlockCompiler
