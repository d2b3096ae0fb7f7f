/-
  BlockCompiler.Surface.Stmt — statements and declarations, as written.
-/
import BlockCompiler.Surface.Expr

namespace BlockCompiler.Surface

mutual

inductive Stmt where
  | letVar (name : String) (ty : Option TypeExpr) (init : Option Expr) (span : Span)
  | assign (name : String) (nameSpan : Span) (value : Expr) (span : Span)
  | ret (value : Option Expr) (span : Span)
  | ifElse (condition : Expr) (thenBody : List Stmt) (elseBody : Option (List Stmt)) (span : Span)
  | whileLoop (condition : Expr) (body : List Stmt) (span : Span)
  | matchOn (value : Expr) (arms : List Arm) (fallback : Option (List Stmt)) (span : Span)
  | block (body : List Stmt) (span : Span)
  | expr (value : Expr) (span : Span)

/-- One arm of a match: the variant it is for and the name its payload gets. -/
structure Arm where
  variant : TypeExpr
  binding : Option String
  body : List Stmt
  span : Span

end

def Stmt.span : Stmt → Span
  | letVar _ _ _ s | assign _ _ _ s | ret _ s | ifElse _ _ _ s | whileLoop _ _ s
  | matchOn _ _ _ s | block _ s | expr _ s => s

structure Param where
  ty : TypeExpr
  name : Option String

/-- A function. One without a body is defined elsewhere. -/
structure FunDecl where
  name : String
  params : List Param
  result : TypeExpr
  flags : FunFlags
  body : Option (List Stmt)
  span : Span

/-- A named type and what it stands for. -/
structure TypeDef where
  name : String
  ty : TypeExpr
  span : Span

/-- One source file. -/
structure Module where
  name : String
  file : FileId
  types : List TypeDef
  funs : List FunDecl

end BlockCompiler.Surface
