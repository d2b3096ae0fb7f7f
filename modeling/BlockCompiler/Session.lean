/-
  BlockCompiler.Session — one compilation, step by step.

  A session holds a context with what lowering knows of it, a generator, and the options.
  Every step gives a result or a fault. A fault ends the step where it arose; what the step
  did before stays, and the fault is announced in the journal.
-/
import BlockCompiler.Target.Generate
import BlockCompiler.Lowering.Module
import BlockCompiler.Report.Rendering

namespace BlockCompiler

/-- Options of a compilation. -/
structure Options where
  /-- The number of errors after which lowering stops; 0 for no limit. -/
  maxErrors : Nat := 0
  /-- Whether each lowered function is printed to the log. -/
  dumpGraph : Bool := false
  /-- The target triple of new generators; empty for none. -/
  triple : String := ""
  deriving DecidableEq, Repr

structure Session where
  gate : Log.Gate := {}
  options : Options := {}
  state : Lowering.State := {}
  /-- The generator, made when it is first needed. -/
  generator : Option Target.Generator := none

namespace Session

open Lowering

def settings (s : Session) : Settings :=
  { gate := s.gate, maxErrors := s.options.maxErrors, dumpGraph := s.options.dumpGraph }

/-- Announces a fault in the journal. -/
def announce (s : Session) (f : Fault) : Session :=
  { s with state := { s.state with journal := s.state.journal.noteFault s.gate f } }

/-- The records logged since the journal was last taken. -/
def takeJournal (s : Session) : Log.Journal × Session :=
  (s.state.journal, { s with state := { s.state with journal := #[] } })

/-- Runs a step of lowering. -/
def perform {α : Type} (s : Session) (act : Settings → LowerM α) : Except Fault α × Session :=
  match act s.settings s.state with
  | .ok a state => (.ok a, { s with state })
  | .error f state => (.error f, { s with state }.announce f)

/-- Asks the context. -/
def query {α : Type} (s : Session) (f : Context → Except Fault α) : Except Fault α × Session :=
  s.perform fun _ => Lowering.ask f

/-- Forgets names in force and diagnostics; the context stays. -/
def restart (s : Session) : Session :=
  { s with state := { context := s.state.context, journal := s.state.journal } }

/-! ### The context by hand -/

def insertBlock (block : Block) : LowerM BlockId := do
  let b ← newBlock
  putBlock b block
  return b

def replaceBlock (b : BlockId) (block : Block) : LowerM Unit := do
  let _ ← Lowering.ask (·.blocks.get b)
  putBlock b block

def setBody (fn : FunId) (body : Body) : LowerM Unit := do
  let f ← Lowering.ask (·.funs.get fn)
  setContext fun c => { c with funs := c.funs.put fn { f with body := some body } }

/-- The type of a function, which is added unless it is there already. -/
def funType (fn : FunId) : LowerM TypeId := do
  let f ← Lowering.ask (·.funs.get fn)
  onTyping (Typing.intern (.func f.signature))

/-- A new variable, bound in the innermost scope. -/
def newLocal (name : String) (ty : TypeId) : LowerM VarId := do
  let v ← newVar ty name
  bindName name v
  return v

/-- The position of a field of a struct, which is not looked for behind aliases. -/
def fieldIndex? (c : Context) (ty : TypeId) (name : String) : Except Fault (Option Nat) := do
  match ← c.types.get ty with
  | .struct fields => return Ty.fieldIndex? fields name
  | _ => throw .wrongShape

/-! ### Text -/

def currentGenerator (s : Session) : Target.Generator :=
  s.generator.getD { triple := s.options.triple }

/-- Runs a step of the generator. -/
def generating {α : Type} (s : Session)
    (act : Target.Generator → Context → Except Fault α × Target.Generator) :
    Except Fault α × Session :=
  let (r, g) := act s.currentGenerator s.state.context
  let s := { s with generator := some g }
  match r with
  | .ok a => (.ok a, s)
  | .error f => (.error f, s.announce f)

/-- The target type of a type. -/
def targetType (s : Session) (ty : TypeId) : Except Fault String × Session :=
  s.generating fun g c => g.typeText c ty

/-- The number of bytes that a type takes in the target. -/
def targetSize (s : Session) (ty : TypeId) : Except Fault UInt64 × Session :=
  s.generating fun g c => (c.types.byteSize ty, g)

/-- The alignment of a type in the target. -/
def targetAlign (s : Session) (ty : TypeId) : Except Fault UInt64 × Session :=
  s.generating fun g c => (c.types.align ty, g)

/-- The target module. -/
def generate (s : Session) (name : String) : Except Fault String × Session :=
  match s.generating fun g c => g.generate c name with
  | (.ok text, s) =>
    let (_, s) := s.perform fun cfg =>
      note cfg .debug "codegen"
        s!"generated module {name} with {s.state.context.funs.size} functions"
    (.ok text, s)
  | failed => failed

/-- The diagnostics reported so far, beside the sources they speak of. -/
def render (s : Session) (files : SourceFiles) (colors : Bool) : Except Fault Bytes × Session :=
  match Rendering.emitAll files s.state.diags.toList { colors } with
  | .ok _ r => (.ok r.written, s)
  | .error f _ => (.error f, s.announce f)

end Session

end BlockCompiler
