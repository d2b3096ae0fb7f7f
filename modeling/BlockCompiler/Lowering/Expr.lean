/-
  BlockCompiler.Lowering.Expr — from expressions to typed values.

  Parts are lowered left to right, and the first mistake rejects the whole. Something that
  already failed has the type `invalid`; what is built from it is `invalid` too and is not
  rejected again, so that one mistake gives one diagnostic.
-/
import BlockCompiler.Lowering.Annotation
import BlockCompiler.Lowering.Operators
import BlockCompiler.Lowering.Scope
import BlockCompiler.Report.Suggestion
import BlockCompiler.Surface.Expr

namespace BlockCompiler.Lowering

open Surface
open Typing (nameOf)

/-- Whether a value of type `actual` may go where `expected` is wanted. -/
def assignable (expected actual : TypeId) : Bool :=
  expected = actual || expected = TypeId.invalid || actual = TypeId.invalid

/-- Adds a suggestion to a diagnostic, if there is one to make. -/
def suggesting (d : Diagnostic) (lead : String) : Option String → Diagnostic
  | some name => if name = "" then d else d.withHelp (lead ++ name)
  | none => d

/-! ### Names -/

def unknownName (file : FileId) (name : String) (span : Span) : Diagnostic :=
  .error Code.undeclared s!"Unknown identifier {name}"
    [.primary file span "not found in this scope"]

/-- The value of a name: a variable's, else a function's address. -/
def access (env : Env) (name : String) (span : Span) : CheckM Value := do
  match env.local? name with
  | some v =>
    let var ← Check.settle (env.vars.get v)
    return .var v var.ty span
  | none =>
    match env.function? name with
    | some fn =>
      let f ← Check.settle (env.funs.get fn)
      let ty ← Typing.intern (.func f.signature)
      return .func fn ty span
    | none =>
      throw (suggesting (unknownName env.file name span) "a binding with a similar name exists: "
        (closest? name env.names))

/-! ### Operators -/

def binaryMismatch (file : FileId) (message l r : String) (lhs rhs : Value) : Diagnostic :=
  .error Code.typeMismatch message
    [.primary file (lhs.span.merge rhs.span),
      .secondary file lhs.span s!"LHS of type {l} appears here",
      .secondary file rhs.span s!"RHS of type {r} appears here"]

/-- `lhs op rhs` for lowered operands. -/
def typedBinary (env : Env) (lhs : Value) (op : Operator) (rhs : Value) : CheckM Value := do
  let span := lhs.span.merge rhs.span
  if lhs.ty = TypeId.invalid ∨ rhs.ty = TypeId.invalid then
    return .binary lhs op rhs TypeId.invalid span
  else
    let l ← Typing.typeAt lhs.ty
    let r ← Typing.typeAt rhs.ty
    match op.binaryType? l r lhs.ty rhs.ty with
    | some ty => return .binary lhs op rhs ty span
    | none =>
      let l ← nameOf lhs.ty
      let r ← nameOf rhs.ty
      let message := s!"Cannot apply binary operator {op.spelling} to operand types {l} and {r}"
      Typing.note env.gate .debug "lower" message
      throw (binaryMismatch env.file message l r lhs rhs)

/-- `op operand` for a lowered operand. -/
def typedUnary (env : Env) (op : Operator) (operand : Value) : CheckM Value := do
  if operand.ty = TypeId.invalid then
    return .unary op operand TypeId.invalid operand.span
  else
    let t ← Typing.typeAt operand.ty
    match op.unaryType? t operand.ty with
    | some (.known ty) => return .unary op operand ty operand.span
    | some .pointer =>
      let ty ← Typing.intern (.ptr operand.ty)
      return .unary op operand ty operand.span
    | none =>
      let name ← nameOf operand.ty
      let message := s!"Cannot apply unary operator {op.spelling} to expression of type {name}"
      Typing.note env.gate .debug "lower" message
      throw (.error Code.typeMismatch message [.primary env.file operand.span])

/-! ### Casts -/

/-- Whether a value converts between two types that are no aliases. -/
def convertible : Ty → Ty → Bool
  | .int _ _, .int _ _ | .int _ _, .float _ | .float _, .int _ _ | .float _, .float _ => true
  | .bool, .int _ _ => true
  | .ptr _, .ptr _ | .ptr _, .int _ _ | .int _ _, .ptr _ => true
  | _, _ => false

/-- Whether a cast between two types is allowed, aliases looked through. -/
def castAllowed (t : TypeTable) (source target : TypeId) : Except Fault Bool := do
  if source = target then return true
  else
    let s ← t.unwrapAlias source
    let g ← t.unwrapAlias target
    if s = g then return true
    else return convertible (← t.get s) (← t.get g)

/-- A cast of a lowered operand to a resolved type. A type that a sum lists is cast into it
by building that variant. -/
def typedCast (env : Env) (operand : Value) (target : TypeId) (span : Span) : CheckM Value := do
  if operand.ty = TypeId.invalid then return .cast operand TypeId.invalid span
  else
    match ← Check.ask (·.variant? target operand.ty) with
    | some variant => return .inject variant operand target span
    | none =>
      if ← Check.ask (castAllowed · operand.ty target) then return .cast operand target span
      else
        let source ← nameOf operand.ty
        let goal ← nameOf target
        throw (.error Code.invalidCast s!"Cannot cast expression of type {source} to {goal}"
          [.primary env.file span,
            .secondary env.file operand.span s!"expression of type {source}"])

/-! ### Members -/

def typedMember (env : Env) (base : Value) (field : String) (span : Span) : CheckM Value := do
  let id ← Check.ask (·.unwrapAlias base.ty)
  if base.ty = TypeId.invalid then return .member base 0 TypeId.invalid span
  else
    match ← Typing.typeAt id with
    | .struct fields =>
      match Ty.fieldIndex? fields field with
      | some index =>
        return .member base index ((fields[index]?.map (·.ty)).getD TypeId.invalid) span
      | none =>
        let name ← nameOf base.ty
        let d := Diagnostic.error Code.unknownField s!"No field named {field} in type {name}"
          [.primary env.file span "unknown field"]
        throw (suggesting d "a field with a similar name exists: "
          (closest? field (fields.map (·.name))))
    | _ =>
      let name ← nameOf base.ty
      throw (.error Code.typeMismatch
        s!"Cannot access field {field} on expression of type {name}"
        [.primary env.file span, .secondary env.file base.span "not a struct"])

/-! ### Calls -/

/-- The first argument that does not fit its parameter. -/
def mismatch? : List Parameter → List Value → Option (Parameter × Value)
  | p :: params, v :: args =>
    if assignable p.ty v.ty then mismatch? params args else some (p, v)
  | _, _ => none

def typedCall (env : Env) (callee : Value) (args : List Value) (span : Span) : CheckM Value := do
  if callee.ty = TypeId.invalid then return .call callee args TypeId.invalid span
  else
    match ← Typing.resolved callee.ty with
    | .func signature =>
      if signature.params.length ≠ args.length then
        let name ← nameOf callee.ty
        let message := s!"Function of type {name} takes {signature.params.length} argument(s) " ++
          s!"but {args.length} were supplied"
        throw (.error Code.argumentCount message [.primary env.file span])
      else
        match mismatch? signature.params args with
        | none => return .call callee args signature.result span
        | some (p, v) =>
          let expected ← nameOf p.ty
          let found ← nameOf v.ty
          throw (.error Code.typeMismatch
            s!"Mismatched argument type: expected {expected}, found {found}"
            [.primary env.file span,
              .secondary env.file v.span s!"Argument of type {found} appears here"])
    | _ =>
      let name ← nameOf callee.ty
      throw (.error Code.notCallable s!"Expression of type {name} is not callable"
        [.primary env.file callee.span])

/-! ### Expressions -/

mutual

def lowerExpr (env : Env) : Expr → CheckM Value
  | .int value suffix span =>
    let ty := match suffix with
      | some s => TypeId.int s.signed s.width.bits
      | none => TypeId.i32
    return .int value ty span
  | .float bits double span => return .float bits (TypeId.float double) span
  | .bool value span => return .bool value TypeId.bool span
  | .unit span => return .unit TypeId.unit span
  | .name name span => access env name span
  | .binary lhs op rhs _ => do
    let lhs ← lowerExpr env lhs
    let rhs ← lowerExpr env rhs
    typedBinary env lhs op rhs
  | .unary op operand _ => do
    let operand ← lowerExpr env operand
    typedUnary env op operand
  | .cast operand target span => do
    let operand ← lowerExpr env operand
    let target ← Annotation.resolve env.file target
    typedCast env operand target span
  | .member base field span => do
    let base ← lowerExpr env base
    typedMember env base field span
  | .call callee args span => do
    let callee ← lowerExpr env callee
    let args ← lowerArgs env args
    typedCall env callee args span

def lowerArgs (env : Env) : List Expr → CheckM (List Value)
  | [] => return []
  | e :: rest => do
    let v ← lowerExpr env e
    return v :: (← lowerArgs env rest)

end

end BlockCompiler.Lowering
