/-
  BlockCompiler.Lowering.Module — from modules to functions with bodies.

  Types are declared, then defined, then searched for cycles; functions are declared, then
  their bodies are lowered. So types and functions may refer to each other in any order.
  A body without a new error is verified.
-/
import BlockCompiler.Graph.Print
import BlockCompiler.Graph.Verify
import BlockCompiler.Lowering.Stmt
import BlockCompiler.Types.ByValue

namespace BlockCompiler.Lowering

open Surface

/-- The type of an annotation, or the diagnostic that rejects it. -/
def resolveType (cfg : Settings) (file : FileId) (ty : TypeExpr) :
    LowerM (Except Diagnostic TypeId) :=
  checking cfg file fun env => Annotation.resolve env.file ty

/-! ### Types -/

def duplicateType (file : FileId) (d : TypeDef) : Diagnostic :=
  .error Code.duplicate s!"Type {d.name} is defined more than once" [.primary file d.span]

def cyclicType (file : FileId) (d : TypeDef) : Diagnostic :=
  (Diagnostic.error Code.unknownType s!"Type {d.name} is defined in terms of itself"
    [.primary file d.span]).withNote "wrap the recursive reference in a pointer"

/-- Declares the types of a module; a name that is taken is reported. -/
def declareTypes (cfg : Settings) (file : FileId) :
    List TypeDef → LowerM (List (TypeId × TypeDef))
  | [] => return []
  | d :: rest => do
    match (← get).context.types.findAlias? d.name with
    | some _ =>
      report cfg (duplicateType file d)
      declareTypes cfg file rest
    | none =>
      let id ← onTyping (Typing.declareAlias cfg.gate d.name)
      return (id, d) :: (← declareTypes cfg file rest)

/-- Says what the declared types stand for. -/
def defineTypes (cfg : Settings) (file : FileId) : List (TypeId × TypeDef) → LowerM Unit
  | [] => return ()
  | (id, d) :: rest => do
    match ← resolveType cfg file d.ty with
    | .error e => report cfg e
    | .ok underlying => onTyping (Typing.defineAlias id underlying)
    defineTypes cfg file rest

/-- Reports the types that contain themselves. -/
def rejectCycles (cfg : Settings) (file : FileId) : List (TypeId × TypeDef) → LowerM Unit
  | [] => return ()
  | (id, d) :: rest => do
    if ← ask (·.types.isCyclic id) then report cfg (cyclicType file d)
    rejectCycles cfg file rest

def lowerTypes (cfg : Settings) (file : FileId) (defs : List TypeDef) : LowerM Unit := do
  let declared ← declareTypes cfg file defs
  defineTypes cfg file declared
  rejectCycles cfg file declared

/-! ### Functions -/

def duplicateFun (file : FileId) (d : FunDecl) (first : Function) : Diagnostic :=
  .error Code.duplicate s!"Function {d.name} is defined more than once"
    [.primary file d.span, .secondary first.file first.span "first defined here"]

def resolveSignature (file : FileId) (d : FunDecl) : CheckM Signature := do
  let result ← Annotation.resolve file d.result
  let params ← Annotation.resolveParams file (d.params.map fun p => (p.ty, p.name))
  return { params, result }

def newFun (f : Function) : LowerM FunId := do
  let fn := (← get).context.funs.next
  setContext fun c => { c with funs := c.funs.insert f }
  return fn

/-- Logs a declared function. Its type is added to the table, and named, only for a log that
wants to know. -/
def noteDeclared (cfg : Settings) (f : Function) : LowerM Unit := do
  if cfg.gate.allows .trace "lower" then
    let ty ← onTyping (Typing.intern (.func f.signature))
    note cfg .trace "lower" (s!"declared fun {f.name}: " ++ (← typeName ty))

/-- Adds a function without its body. -/
def declareFun (cfg : Settings) (file : FileId) (d : FunDecl) : StmtM FunId := do
  match (← get).functions.lookup d.name with
  | some first =>
    let f ← (ask (·.funs.get first) : LowerM Function)
    throw (duplicateFun file d f)
  | none =>
    let signature ← checked cfg file fun env => resolveSignature env.file d
    let flags := if d.body.isSome then d.flags else d.flags.markExternal
    let f : Function := { name := d.name, signature, file, span := d.span, flags }
    let fn ← newFun f
    modify fun s => { s with functions := s.functions ++ [(d.name, fn)] }
    noteDeclared cfg f
    return fn

/-- Turns the named arguments, from `index` on, into variables. -/
def bindParams (entry : BlockId) (span : Span) (index : Nat) : List Parameter → LowerM Unit
  | [] => return ()
  | { ty := _, name := none } :: rest => bindParams entry span (index + 1) rest
  | { ty, name := some name } :: rest => do
    let v ← newVar ty name
    emit entry (.live v)
    emit entry (.store v (.arg index ty span))
    bindName name v
    bindParams entry span (index + 1) rest

def missingReturn (file : FileId) (f : Function) (ty : String) : Diagnostic :=
  .error Code.missingReturn
    s!"Function {f.name} must return a value of type {ty} on every path" [.primary file f.span]

/-- Ends a function whose body can run to its end: a function without result returns, any
other is rejected. -/
def finishBody (cfg : Settings) (f : Function) : Option BlockId → LowerM Unit
  | none => return ()
  | some b => do
    if f.signature.result = TypeId.unit then
      terminate b (.ret (.unit TypeId.unit ⟨f.span.stop, f.span.stop⟩))
    else if ← limitReached cfg then return ()
    else report cfg (missingReturn f.file f (← typeName f.signature.result))

/-- Verifies a body that was lowered without a new error, and prints it to the log if the
settings say so. -/
def inspectBody (cfg : Settings) (fn : FunId) : LowerM Unit := do
  ask (·.verify fn)
  if cfg.dumpGraph && cfg.gate.allows .debug "ir" then
    note cfg .debug "ir" ("\n" ++ (← ask (·.printFun fn)))

/-- Lowers the body of a declared function. -/
def lowerFunBody (cfg : Settings) (fn : FunId) (body : List Stmt) : LowerM Unit := do
  let errors := (← get).errors
  let f ← ask (·.funs.get fn)
  let entry ← newBlock
  setContext fun c => { c with funs := c.funs.put fn { f with body := some ⟨entry, fn⟩ } }
  let last ← inScope do
    bindParams entry f.span 0 f.signature.params
    lowerBlock cfg f.file fn body entry
  finishBody cfg f last
  if (← get).errors = errors then inspectBody cfg fn

/-! ### Modules -/

/-- Declares the functions of a module; what is rejected is reported. -/
def declareFuns (cfg : Settings) (file : FileId) :
    List FunDecl → LowerM (List (FunId × FunDecl))
  | [] => return []
  | d :: rest => do
    match ← (declareFun cfg file d).run with
    | .error e =>
      report cfg e
      declareFuns cfg file rest
    | .ok fn => return (fn, d) :: (← declareFuns cfg file rest)

/-- Lowers the bodies of declared functions until there are too many errors. -/
def lowerBodies (cfg : Settings) : List (FunId × FunDecl) → LowerM Unit
  | [] => return ()
  | (fn, d) :: rest => do
    if ← limitReached cfg then
      let errors := (← get).errors
      note cfg .warn "lower" s!"stopping after {errors} errors"
    else
      match d.body with
      | some body => lowerFunBody cfg fn body
      | none => pure ()
      lowerBodies cfg rest

/-- Lowers a module: its functions in order, or all diagnostics if there was an error. -/
def lowerModule (cfg : Settings) (m : Module) :
    LowerM (Except (List Diagnostic) (List FunId)) := do
  note cfg .info "lower"
    s!"lowering module {m.name} ({m.types.length} types, {m.funs.length} functions)"
  lowerTypes cfg m.file m.types
  let declared ← declareFuns cfg m.file m.funs
  lowerBodies cfg declared
  let s ← get
  if s.errors = 0 then return .ok (declared.map (·.1))
  else return .error s.diags.toList

end BlockCompiler.Lowering
