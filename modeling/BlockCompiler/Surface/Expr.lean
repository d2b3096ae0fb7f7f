/-
  BlockCompiler.Surface.Expr — expressions, as written.
-/
import BlockCompiler.Surface.TypeExpr

namespace BlockCompiler.Surface

inductive Expr where
  /-- An integer; without a suffix it is an `i32`. -/
  | int (value : UInt64) (suffix : Option IntType) (span : Span)
  /-- A float, by the bits of its 64-bit form; `double` is false for an `f32` suffix. -/
  | float (bits : UInt64) (double : Bool) (span : Span)
  | bool (value : Bool) (span : Span)
  | unit (span : Span)
  /-- A variable or function by name. -/
  | name (name : String) (span : Span)
  | binary (lhs : Expr) (op : Operator) (rhs : Expr) (span : Span)
  | unary (op : Operator) (operand : Expr) (span : Span)
  | cast (operand : Expr) (target : TypeExpr) (span : Span)
  | member (base : Expr) (field : String) (span : Span)
  | call (callee : Expr) (args : List Expr) (span : Span)
  deriving Repr

def Expr.span : Expr → Span
  | int _ _ s | float _ _ s | bool _ s | unit s | name _ s | binary _ _ _ s | unary _ _ s
  | cast _ _ s | member _ _ s | call _ _ s => s

/-- An operator between two expressions, from the start of the one to the end of the other. -/
def Expr.joined (lhs : Expr) (op : Operator) (rhs : Expr) : Expr :=
  .binary lhs op rhs (lhs.span.merge rhs.span)

end BlockCompiler.Surface
