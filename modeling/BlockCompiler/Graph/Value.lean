/-
  BlockCompiler.Graph.Value — values computed inside blocks.

  A value is a tree. Each node carries its type, settled when it is built, and the span of
  source it comes from.
-/
import BlockCompiler.Span
import BlockCompiler.Surface.Operator
import BlockCompiler.Types.Basic

namespace BlockCompiler

inductive Value where
  | int (value : UInt64) (ty : TypeId) (span : Span)
  /-- A float, by the bits of its 64-bit form. -/
  | float (bits : UInt64) (ty : TypeId) (span : Span)
  | bool (value : Bool) (ty : TypeId) (span : Span)
  | unit (ty : TypeId) (span : Span)
  /-- What a variable holds. -/
  | var (var : VarId) (ty : TypeId) (span : Span)
  /-- An argument of the enclosing function. -/
  | arg (index : Nat) (ty : TypeId) (span : Span)
  /-- The address of a function. -/
  | func (fn : FunId) (ty : TypeId) (span : Span)
  | binary (lhs : Value) (op : Operator) (rhs : Value) (ty : TypeId) (span : Span)
  | unary (op : Operator) (operand : Value) (ty : TypeId) (span : Span)
  /-- Conversion to the node's own type. -/
  | cast (operand : Value) (ty : TypeId) (span : Span)
  | member (base : Value) (field : Nat) (ty : TypeId) (span : Span)
  | call (callee : Value) (args : List Value) (ty : TypeId) (span : Span)
  /-- A sum value that holds `payload` as the given variant. -/
  | inject (variant : VariantId) (payload : Value) (ty : TypeId) (span : Span)
  /-- The payload of a sum value known to hold the given variant. -/
  | project (sum : Value) (variant : VariantId) (ty : TypeId) (span : Span)
  deriving Repr

namespace Value

def ty : Value → TypeId
  | int _ t _ | float _ t _ | bool _ t _ | unit t _ | var _ t _ | arg _ t _ | func _ t _
  | binary _ _ _ t _ | unary _ _ t _ | cast _ t _ | member _ _ t _ | call _ _ t _
  | inject _ _ t _ | project _ _ t _ => t

def span : Value → Span
  | int _ _ s | float _ _ s | bool _ _ s | unit _ s | var _ _ s | arg _ _ s | func _ _ s
  | binary _ _ _ _ s | unary _ _ _ s | cast _ _ s | member _ _ _ s | call _ _ _ s
  | inject _ _ _ s | project _ _ _ s => s

end Value

end BlockCompiler
