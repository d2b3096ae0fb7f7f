/-
  BlockCompiler.Graph.Verify — structural soundness of a function.

  A function is sound when its signature's types exist, its body belongs to it, and every
  block reachable from its entry exists and is closed and mentions only types, variables,
  functions and arguments that exist; and when every switch names variants of the sum it
  looks at. The first flaw found is a fault.
-/
import BlockCompiler.Graph.Reachable

namespace BlockCompiler.Context

/-- Raises a flaw of a function unless the condition holds. -/
def require (f : Function) (condition : Bool) (flaw : Flaw) : Except Fault Unit :=
  if condition then .ok () else .error (.malformed f.name flaw)

def checkType (c : Context) (f : Function) (id : TypeId) : Except Fault Unit :=
  require f (c.types.contains id) (.unknownType id.index)

def checkVar (c : Context) (f : Function) (v : VarId) : Except Fault Unit :=
  require f (c.vars.contains v) (.unknownVariable v.index)

mutual

def checkValue (c : Context) (f : Function) : Value → Except Fault Unit
  | .int _ ty _ => checkType c f ty
  | .float _ ty _ => checkType c f ty
  | .bool _ ty _ => checkType c f ty
  | .unit ty _ => checkType c f ty
  | .var v ty _ => do
    checkType c f ty
    checkVar c f v
  | .arg index ty _ => do
    checkType c f ty
    require f (index < f.signature.params.length) (.argumentRange index)
  | .func fn ty _ => do
    checkType c f ty
    require f (c.funs.contains fn) (.unknownFunction fn.index)
  | .binary lhs _ rhs ty _ => do
    checkType c f ty
    checkValue c f lhs
    checkValue c f rhs
  | .unary _ operand ty _ => do
    checkType c f ty
    checkValue c f operand
  | .cast operand ty _ => do
    checkType c f ty
    checkValue c f operand
  | .member base _ ty _ => do
    checkType c f ty
    checkValue c f base
  | .call callee args ty _ => do
    checkType c f ty
    checkValue c f callee
    checkValues c f args
  | .inject _ payload ty _ => do
    checkType c f ty
    checkValue c f payload
  | .project sum _ ty _ => do
    checkType c f ty
    checkValue c f sum

def checkValues (c : Context) (f : Function) : List Value → Except Fault Unit
  | [] => return ()
  | v :: rest => do
    checkValue c f v
    checkValues c f rest

end

def checkStmt (c : Context) (f : Function) : BlockStmt → Except Fault Unit
  | .live v => checkVar c f v
  | .store v value => do
    checkVar c f v
    checkValue c f value

def checkTerminator (c : Context) (f : Function) : Terminator → Except Fault Unit
  | .ret value => checkValue c f value
  | .jump _ => return ()
  | .branch condition _ _ => checkValue c f condition
  | .switch scrutinee targets _ => do
    checkValue c f scrutinee
    targets.forM fun (variant, _) => discard (c.types.variantType scrutinee.ty variant)

def checkBlock (c : Context) (f : Function) (b : BlockId) : Except Fault Unit := do
  match c.blocks.get? b with
  | none => throw (.malformed f.name (.unknownBlock b.index))
  | some block =>
    block.stmts.toList.forM (checkStmt c f)
    match block.terminator with
    | none => throw (.malformed f.name (.openBlock b.index))
    | some t => checkTerminator c f t

/-- Checks a function and, if it has one, its body. -/
def verify (c : Context) (fn : FunId) : Except Fault Unit := do
  let f ← c.funs.get fn
  checkType c f f.signature.result
  f.signature.params.forM fun p => checkType c f p.ty
  match f.body with
  | none => return ()
  | some body =>
    require f (body.parent = fn) .foreignBody
    (c.reachableFrom body.entry).forM (checkBlock c f)

end BlockCompiler.Context
