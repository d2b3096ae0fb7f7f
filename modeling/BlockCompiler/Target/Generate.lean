/-
  BlockCompiler.Target.Generate — the module of a context.

  The module defines every alias of a struct or sum, then all functions in order. A function
  with a body gets the code of its reachable blocks, breadth first; each must be closed.

  A generator remembers which aliases a fault left expanding.
-/
import BlockCompiler.Graph.Reachable
import BlockCompiler.Target.Emit
import BlockCompiler.Target.Print

namespace BlockCompiler.Target

open FunFrame

/-! ### Blocks -/

def emitStmt (src : Source) : BlockStmt → EmitM Unit
  | .live v => do
    let _ ← slotOf src v
    let var ← ask src (·.vars.get v)
    comment src ("live " ++ var.name)
  | .store v value => do
    let value ← emitValue src value
    let slot ← slotOf src v
    let var ← ask src (·.vars.get v)
    let ty ← spell src var.ty
    emit (.store ty value slot)

/-- A condition as one bit: a number is compared with zero. -/
def conditionBit (src : Source) (ty : TypeId) (value : Operand) : EmitM Operand := do
  match ← ask src (·.types.get ty) with
  | .bool => return value
  | t =>
    let spelling ← spell src ty
    let result ← newTemp
    if t.isFloat then emit (.binary result (.fcmp .une) spelling value .floatZero)
    else emit (.binary result (.icmp .ne) spelling value (.int 0))
    return result

def emitExit (src : Source) : Terminator → EmitM Exit
  | .ret value => do
    let operand ← emitValue src value
    return .ret (← spell src value.ty) operand
  | .jump target => return .jump target
  | .branch condition ifTrue ifFalse => do
    let operand ← emitValue src condition
    let bit ← conditionBit src condition.ty operand
    return .branch bit ifTrue ifFalse
  | .switch scrutinee targets fallback => do
    let operand ← emitValue src scrutinee
    let tag ← newTemp
    let ty ← spell src scrutinee.ty
    emit (.extract tag ty operand 0)
    return .switch tag fallback targets

/-- Takes the code made since the last block. -/
def takeCode : EmitM (List Instr) := modifyGet fun f => (f.code.toList, { f with code := #[] })

def emitBlock (src : Source) (b : BlockId) : EmitM CodeBlock := do
  let block ← ask src (·.blocks.get b)
  block.stmts.toList.forM (emitStmt src)
  match block.terminator with
  | none => throw (.openBlock b.index)
  | some t =>
    let exit ← emitExit src t
    return { label := b, code := ← takeCode, exit }

/-! ### Functions -/

def declareCode (src : Source) (f : Function) : SpellM FunCode := do
  let result ← spellType src.context.types f.signature.result
  let params ← f.signature.params.mapM fun p => spellType src.context.types p.ty
  return .declare result f.name params

/-- The code of a body: its slots and its blocks. -/
def bodyCode (src : Source) (body : Body) : SpellM (List Alloca × List CodeBlock) :=
  fun expanding =>
    match (src.context.reachableFrom body.entry).mapM (emitBlock src) { expanding } with
    | .ok blocks f => .ok (f.slots.toList, blocks) f.expanding
    | .error fault f => .error fault f.expanding

def funCode (src : Source) (fn : FunId) : SpellM FunCode := do
  let f ← ofExcept (src.context.funs.get fn)
  match f.body with
  | none => declareCode src f
  | some body =>
    let (slots, blocks) ← bodyCode src body
    let result ← spellType src.context.types f.signature.result
    let params ← f.signature.params.mapM fun p => spellType src.context.types p.ty
    return .define result f.name params f.flags.isInline slots body.entry blocks

/-! ### Modules -/

/-- The definitions of the named types among the given ones. -/
def typeDefs (t : TypeTable) : List TypeId → SpellM (List (String × CodeType))
  | [] => return []
  | id :: rest => do
    if ← ofExcept (isNamedAggregate t id) then
      match ← ofExcept (t.get id) with
      | .named name _ =>
        let ty ← spellAggregate t (← ofExcept (t.unwrapAlias id))
        return (name, ty) :: (← typeDefs t rest)
      | _ => throw .wrongShape
    else typeDefs t rest

def moduleCode (src : Source) (name triple : String) : SpellM ModuleCode := do
  let t := src.context.types
  let types ← typeDefs t ((List.range t.size).map Handle.mk)
  let funs ← src.context.funs.handles.mapM (funCode src)
  return { name, triple, types, funs }

structure Generator where
  comments : Bool := true
  /-- The target triple; empty for none. -/
  triple : String := ""
  /-- The aliases that are marked as expanding. -/
  expanding : List TypeId := []
  deriving DecidableEq, Repr

namespace Generator

/-- Runs a step that spells types, keeping the marks it leaves. -/
def run {α : Type} (g : Generator) (act : SpellM α) : Except Fault α × Generator :=
  match act g.expanding with
  | .ok a expanding => (.ok a, { g with expanding })
  | .error fault expanding => (.error fault, { g with expanding })

/-- The target type of a type, as text. -/
def typeText (g : Generator) (c : Context) (ty : TypeId) : Except Fault String × Generator :=
  g.run (CodeType.text <$> spellType c.types ty)

/-- The module of a context, as text. -/
def generate (g : Generator) (c : Context) (name : String) : Except Fault String × Generator :=
  g.run (ModuleCode.text <$> moduleCode { context := c, comments := g.comments } name g.triple)

end Generator

end BlockCompiler.Target
