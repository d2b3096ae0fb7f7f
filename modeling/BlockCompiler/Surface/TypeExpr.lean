/-
  BlockCompiler.Surface.TypeExpr — type annotations, as written.
-/
import BlockCompiler.Span
import BlockCompiler.Surface.Operator

namespace BlockCompiler.Surface

/-- The integer types that can be written: `i8` to `i64` and `u8` to `u64`. -/
structure IntType where
  signed : Bool
  width : Width
  deriving DecidableEq, Repr

/-- An annotation. Named types are not looked up yet. -/
inductive TypeExpr where
  | int (ty : IntType) (span : Span)
  | float (double : Bool) (span : Span)
  | bool (span : Span)
  | unit (span : Span)
  | ptr (pointee : TypeExpr) (span : Span)
  | array (element : TypeExpr) (length : UInt64) (span : Span)
  | struct (fields : List (TypeExpr × String)) (span : Span)
  | sum (variants : List TypeExpr) (span : Span)
  | func (params : List (TypeExpr × Option String)) (result : TypeExpr) (span : Span)
  | named (name : String) (span : Span)
  deriving Repr

def TypeExpr.span : TypeExpr → Span
  | int _ s | float _ s | bool s | unit s | ptr _ s | array _ _ s | struct _ s | sum _ s
  | func _ _ s | named _ s => s

end BlockCompiler.Surface
