/-
  BlockCompiler.Lowering.Stmt — from statements to blocks.

      if c A else B    b: branch c then else     then: A, jump join     else: B, jump join
      while c A        b: jump head     head: branch c body exit     body: A, jump head
      match v          b: tmp = v, switch tmp     arm: x = payload, A, jump join

  A statement is lowered into an open block and gives the block where control goes on, or
  none if it does not go on. A block that nothing falls through to is not made. In a list a
  rejected statement is reported and the next one goes on in the same block.
-/
import BlockCompiler.Lowering.State
import BlockCompiler.Surface.Stmt

namespace BlockCompiler.Lowering

open Surface

/-- The diagnostic for a value of another type than wanted. -/
def mismatch (file : FileId) (span : Span) (what : String) (expected found : TypeId) :
    LowerM Diagnostic := do
  let expected ← typeName expected
  let found ← typeName found
  return .error Code.typeMismatch s!"Mismatched {what}: expected {expected}, found {found}"
    [.primary file span s!"expression of type {found}"]

/-! ### Bindings -/

/-- The initial value and type of a variable. -/
def letValue (cfg : Settings) (file : FileId) (name : String) (ty : Option TypeExpr)
    (init : Option Expr) (span : Span) : StmtM (TypeId × Option Value) := do
  let declared ← match ty with
    | some ty => some <$> checked cfg file fun env => Annotation.resolve env.file ty
    | none => pure none
  let init ← match init with
    | some e => some <$> checked cfg file fun env => lowerExpr env e
    | none => pure none
  match declared, init with
  | none, none =>
    throw ((Diagnostic.error Code.cannotInfer s!"Cannot infer the type of {name}"
      [.primary file span]).withHelp "add a type annotation or an initializer")
  | some ty, none => return (ty, none)
  | none, some v => return (v.ty, some v)
  | some ty, some v =>
    if assignable ty v.ty then return (ty, some v)
    else throw (← mismatch file v.span "initializer type" ty v.ty)

/-- Binds the name of a rejected variable to the type `invalid`, so that its uses are not
rejected as well. -/
def poison (name : String) : LowerM Unit := do
  bindName name (← newVar TypeId.invalid name)

def lowerLet (cfg : Settings) (file : FileId) (name : String) (ty : Option TypeExpr)
    (init : Option Expr) (span : Span) (b : BlockId) : StmtM (Option BlockId) := do
  match ← attempt (letValue cfg file name ty init span) with
  | .error d =>
    poison name
    throw d
  | .ok (ty, value) =>
    let v ← newVar ty name
    emit b (.live v)
    match value with
    | some e => emit b (.store v e)
    | none => pure ()
    bindName name v
    return some b

def lowerAssign (cfg : Settings) (file : FileId) (name : String) (nameSpan : Span)
    (value : Expr) (b : BlockId) : StmtM (Option BlockId) := do
  match ← lookup? name with
  | none => throw (unknownName file name nameSpan)
  | some v =>
    let value ← checked cfg file fun env => lowerExpr env value
    let var ← (ask (·.vars.get v) : LowerM Variable)
    if assignable var.ty value.ty then
      emit b (.store v value)
      return some b
    else
      let d ← mismatch file value.span "assignment type" var.ty value.ty
      throw (d.withLabel (.secondary file nameSpan s!"variable {name} assigned here"))

def lowerReturn (cfg : Settings) (file : FileId) (fn : FunId) (value : Option Expr)
    (span : Span) (b : BlockId) : StmtM (Option BlockId) := do
  let f ← (ask (·.funs.get fn) : LowerM Function)
  let value ← match value with
    | some e => checked cfg file fun env => lowerExpr env e
    | none => pure (.unit TypeId.unit span)
  if assignable f.signature.result value.ty then
    terminate b (.ret value)
    return none
  else throw (← mismatch file value.span "return type" f.signature.result value.ty)

/-- An expression for its effects: its value goes to a variable that nothing reads. -/
def lowerEffect (cfg : Settings) (file : FileId) (e : Expr) (b : BlockId) :
    StmtM (Option BlockId) := do
  let value ← checked cfg file fun env => lowerExpr env e
  let v ← newVar value.ty "_"
  emit b (.live v)
  emit b (.store v value)
  return some b

/-! ### Conditions and matches -/

/-- Types that a condition can have; numbers count as true unless they are zero. -/
def isCondition : Ty → Bool
  | .bool | .int _ _ | .float _ => true
  | _ => false

/-- The value of a condition. -/
def condition (cfg : Settings) (file : FileId) (construct : String) (e : Expr) :
    StmtM Value := do
  let value ← checked cfg file fun env => lowerExpr env e
  if value.ty = TypeId.invalid then return value
  else
    let ty ← (ask (·.types.get value.ty) : LowerM Ty)
    if isCondition ty then return value
    else
      let name ← typeName value.ty
      throw (.error Code.typeMismatch
        s!"{construct} condition must be a bool, integer or float, found {name}"
        [.primary file value.span])

/-- An arm whose variant is known. -/
structure ArmHead where
  variant : VariantId
  span : Span
  deriving DecidableEq, Repr

/-- The variant that an arm is for, given the arms before it. -/
def armHead (cfg : Settings) (file : FileId) (value : Value) (earlier : List ArmHead)
    (ty : TypeExpr) (span : Span) : StmtM ArmHead := do
  let id ← checked cfg file fun env => Annotation.resolve env.file ty
  match ← (ask (·.types.variant? value.ty id) : LowerM (Option VariantId)) with
  | none =>
    let arm ← typeName id
    let sum ← typeName value.ty
    throw (.error Code.typeMismatch s!"Type {arm} is not a variant of {sum}"
      [.primary file ty.span, .secondary file value.span "matched value"])
  | some variant =>
    match earlier.find? (·.variant = variant) with
    | some first =>
      let arm ← typeName id
      throw (.error Code.duplicate s!"Variant {arm} is matched more than once"
        [.primary file span, .secondary file first.span "first matched here"])
    | none => return { variant, span }

/-- The variants of all arms, found before any block is made. -/
def armHeads (cfg : Settings) (file : FileId) (value : Value) (earlier : List ArmHead) :
    List Arm → StmtM (List ArmHead)
  | [] => return earlier
  | arm :: rest => do
    let head ← armHead cfg file value earlier arm.variant arm.span
    armHeads cfg file value (earlier ++ [head]) rest

/-- Binds the payload of the matched variant at the start of an arm. -/
def bindPayload (b : BlockId) (scrutinee : Value) (head : ArmHead) :
    Option String → LowerM Unit
  | none => return ()
  | some name => do
    let ty ← ask (·.types.variantType scrutinee.ty head.variant)
    let v ← newVar ty name
    emit b (.live v)
    emit b (.store v (.project scrutinee head.variant ty head.span))
    bindName name v

/-- Lets each of the given blocks go on at `join`. -/
def joinAll (join : BlockId) : List BlockId → LowerM Unit
  | [] => return ()
  | b :: rest => do
    terminate b (.jump join)
    joinAll join rest

/-- Puts a matched value into a variable and gives the value of that variable. -/
def scrutinize (value : Value) (b : BlockId) : LowerM Value := do
  let v ← newVar value.ty "match"
  emit b (.live v)
  emit b (.store v value)
  return .var v value.ty value.span

def unreachableCode (file : FileId) (span : Span) : Diagnostic :=
  .warning Code.unreachable "Unreachable code" [.primary file span "this statement never runs"]

/-- The value of a match, which must be a sum unless it already failed. -/
def matchedValue (cfg : Settings) (file : FileId) (e : Expr) : StmtM Value := do
  let value ← checked cfg file fun env => lowerExpr env e
  if value.ty = TypeId.invalid then return value
  else
    let ty ← (ask (·.types.resolved value.ty) : LowerM Ty)
    if ty.isSum then return value
    else
      let name ← typeName value.ty
      throw (.error Code.typeMismatch s!"Cannot match on expression of type {name}"
        [.primary file value.span "expected a sum type"])

/-! ### Statements -/

/-- The block where ends meet, if there are any. -/
def joinEnds (ends : List BlockId) : LowerM (Option BlockId) := do
  match ends with
  | [] => return none
  | ends =>
    let join ← newBlock
    joinAll join ends
    return some join

mutual

/-- Lowers a statement into the open block `b`. -/
def lowerStmt (cfg : Settings) (file : FileId) (fn : FunId) :
    Stmt → BlockId → StmtM (Option BlockId)
  | .letVar name ty init span, b => lowerLet cfg file name ty init span b
  | .assign name nameSpan value _, b => lowerAssign cfg file name nameSpan value b
  | .ret value span, b => lowerReturn cfg file fn value span b
  | .expr value _, b => lowerEffect cfg file value b
  | .block body _, b => liftM (inScope (lowerStmts cfg file fn body (some b)))
  | .ifElse c thenBody none _, b => do
    let c ← condition cfg file "If" c
    let thenBlock ← newBlock
    let join ← newBlock
    terminate b (.branch c thenBlock join)
    let thenEnd ← liftM (inScope (lowerStmts cfg file fn thenBody (some thenBlock)))
    joinAll join thenEnd.toList
    return some join
  | .ifElse c thenBody (some elseBody) _, b => do
    let c ← condition cfg file "If" c
    let thenBlock ← newBlock
    let elseBlock ← newBlock
    terminate b (.branch c thenBlock elseBlock)
    let thenEnd ← liftM (inScope (lowerStmts cfg file fn thenBody (some thenBlock)))
    let elseEnd ← liftM (inScope (lowerStmts cfg file fn elseBody (some elseBlock)))
    joinEnds (thenEnd.toList ++ elseEnd.toList)
  | .whileLoop c body _, b => do
    let c ← condition cfg file "While" c
    let head ← newBlock
    let bodyBlock ← newBlock
    let exit ← newBlock
    terminate b (.jump head)
    terminate head (.branch c bodyBlock exit)
    let bodyEnd ← liftM (inScope (lowerStmts cfg file fn body (some bodyBlock)))
    joinAll head bodyEnd.toList
    return some exit
  | .matchOn e arms none _, b => do
    let value ← matchedValue cfg file e
    if value.ty = TypeId.invalid then return some b
    else
      let heads ← armHeads cfg file value [] arms
      let scrutinee ← scrutinize value b
      let join ← newBlock
      let (targets, ends) ← lowerArms cfg file fn scrutinee arms heads
      joinAll join ends
      terminate b (.switch scrutinee targets join)
      return some join
  | .matchOn e arms (some fallback) _, b => do
    let value ← matchedValue cfg file e
    if value.ty = TypeId.invalid then return some b
    else
      let heads ← armHeads cfg file value [] arms
      let scrutinee ← scrutinize value b
      let (targets, ends) ← lowerArms cfg file fn scrutinee arms heads
      let fallbackBlock ← newBlock
      let fallbackEnd ← liftM (inScope (lowerStmts cfg file fn fallback (some fallbackBlock)))
      let join ← joinEnds (ends ++ fallbackEnd.toList)
      terminate b (.switch scrutinee targets fallbackBlock)
      return join

/-- Lowers statements one after the other, from `current` on. What follows a statement that
does not go on is unreachable. -/
def lowerStmts (cfg : Settings) (file : FileId) (fn : FunId) :
    List Stmt → Option BlockId → LowerM (Option BlockId)
  | [], current => return current
  | s :: rest, current => do
    if ← limitReached cfg then return current
    else
      match current with
      | none =>
        report cfg (unreachableCode file s.span)
        return none
      | some b =>
        match ← (lowerStmt cfg file fn s b).run with
        | .error d =>
          report cfg d
          lowerStmts cfg file fn rest (some b)
        | .ok next => lowerStmts cfg file fn rest next

/-- Lowers the arms of a match, each into a block of its own: the target of each variant,
and the blocks where arms end. -/
def lowerArms (cfg : Settings) (file : FileId) (fn : FunId) (scrutinee : Value) :
    List Arm → List ArmHead → LowerM (List (VariantId × BlockId) × List BlockId)
  | ⟨_, binding, body, _⟩ :: arms, head :: heads => do
    let b ← newBlock
    let last ← inScope do
      bindPayload b scrutinee head binding
      inScope (lowerStmts cfg file fn body (some b))
    let (targets, ends) ← lowerArms cfg file fn scrutinee arms heads
    return ((head.variant, b) :: targets, last.toList ++ ends)
  | _, _ => return ([], [])

end

/-- Lowers a list of statements in a scope of its own. -/
def lowerBlock (cfg : Settings) (file : FileId) (fn : FunId) (body : List Stmt) (b : BlockId) :
    LowerM (Option BlockId) :=
  inScope (lowerStmts cfg file fn body (some b))

end BlockCompiler.Lowering
