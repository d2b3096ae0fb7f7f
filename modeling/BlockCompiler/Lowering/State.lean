/-
  BlockCompiler.Lowering.State — what lowering works on.

  The state holds the context under construction, the names in force, the diagnostics
  reported so far and the journal. `LowerM` is a step on it that may stop at a fault,
  keeping what it did; `StmtM` may also give up with a diagnostic, which its caller reports.

  Expressions only touch types and journal: `checking` lends these two to a step of type
  checking and takes them back.
-/
import BlockCompiler.Lowering.Expr

namespace BlockCompiler

/-- What stays fixed while a program is lowered. -/
structure Settings where
  gate : Log.Gate := {}
  /-- The number of errors after which lowering stops; 0 for no limit. -/
  maxErrors : Nat := 0
  /-- Whether each lowered function is printed to the log. -/
  dumpGraph : Bool := false
  deriving DecidableEq, Repr

namespace Lowering

structure State extends context : Context where
  journal : Log.Journal := #[]
  /-- Innermost first. -/
  scopes : List Scope := []
  functions : List (String × FunId) := []
  diags : Array Diagnostic := #[]
  errors : Nat := 0

abbrev LowerM := EStateM Fault State

abbrev StmtM := ExceptT Diagnostic LowerM

namespace State

def typing (s : State) : Typing := { types := s.context.types, journal := s.journal }

def withTyping (s : State) (t : Typing) : State :=
  { s with context := { s.context with types := t.types }, journal := t.journal }

/-- What an expression of a file can see. -/
def env (s : State) (gate : Log.Gate) (file : FileId) : Env :=
  { gate, file, scopes := s.scopes, functions := s.functions, vars := s.context.vars,
    funs := s.context.funs }

end State

/-- Runs a step on types and journal. -/
def onTyping {α : Type} (act : TypingM α) : LowerM α := fun s =>
  match act s.typing with
  | .ok a t => .ok a (s.withTyping t)
  | .error f t => .error f (s.withTyping t)

/-- Takes a result, or stops at its fault. -/
def settle {α : Type} (r : Except Fault α) : LowerM α := ofExcept r

/-- Asks the context. -/
def ask {α : Type} (f : Context → Except Fault α) : LowerM α := do settle (f (← get).context)

def note (cfg : Settings) (level : Log.Level) (area text : String) : LowerM Unit :=
  onTyping (Typing.note cfg.gate level area text)

/-- Type checks something with the names now in force; the diagnostic is a result. -/
def checking {α : Type} (cfg : Settings) (file : FileId) (act : Env → CheckM α) :
    LowerM (Except Diagnostic α) := do
  let s ← get
  onTyping (act (s.env cfg.gate file)).run

/-- Type checks a part of a statement. -/
def checked {α : Type} (cfg : Settings) (file : FileId) (act : Env → CheckM α) : StmtM α :=
  ExceptT.mk (checking cfg file act)

/-- Runs a step, the diagnostic being a result. -/
def attempt {α : Type} (act : StmtM α) : StmtM (Except Diagnostic α) := ExceptT.lift act.run

/-- The name of a type, for a message. -/
def typeName (id : TypeId) : LowerM String := onTyping (Typing.nameOf id)

/-! ### Scopes -/

def pushScope : LowerM Unit := modify fun s => { s with scopes := [] :: s.scopes }

def popScope : LowerM Unit := do
  match (← get).scopes with
  | [] => throw .scopeUnderflow
  | _ :: rest => modify fun s => { s with scopes := rest }

/-- Binds a name in the innermost scope. -/
def bindName (name : String) (v : VarId) : LowerM Unit := do
  match (← get).scopes with
  | [] => throw (.unscopedBinding name)
  | scope :: rest => modify fun s => { s with scopes := ((name, v) :: scope) :: rest }

def lookup? (name : String) : LowerM (Option VarId) := do
  return Scope.lookup? (← get).scopes name

/-- Runs a step in a scope of its own. -/
def inScope {α : Type} (act : LowerM α) : LowerM α := do
  pushScope
  let a ← act
  popScope
  return a

/-! ### Diagnostics -/

def report (cfg : Settings) (d : Diagnostic) : LowerM Unit := do
  if d.isError then modify fun s => { s with errors := s.errors + 1 }
  note cfg .debug "lower" s!"{d.severity.name}[{d.code}]: {d.message}"
  modify fun s => { s with diags := s.diags.push d }

/-- Whether as many errors were reported as the settings allow. -/
def limitReached (cfg : Settings) : LowerM Bool := do
  return cfg.maxErrors ≠ 0 ∧ cfg.maxErrors ≤ (← get).errors

/-! ### Building the graph -/

def setContext (f : Context → Context) : LowerM Unit :=
  modify fun s => { s with context := f s.context }

def newBlock : LowerM BlockId := do
  let b := (← get).context.blocks.next
  setContext fun c => { c with blocks := c.blocks.insert {} }
  return b

def newVar (ty : TypeId) (name : String) : LowerM VarId := do
  let v := (← get).context.vars.next
  setContext fun c => { c with vars := c.vars.insert { ty, name } }
  return v

def putBlock (b : BlockId) (block : Block) : LowerM Unit :=
  setContext fun c => { c with blocks := c.blocks.put b block }

/-- Appends a statement to a block. -/
def emit (b : BlockId) (stmt : BlockStmt) : LowerM Unit := do
  let block ← ask (·.blocks.get b)
  putBlock b { block with stmts := block.stmts.push stmt }

/-- Closes a block, which must be open. -/
def terminate (b : BlockId) (t : Terminator) : LowerM Unit := do
  let block ← ask (·.blocks.get b)
  match block.terminator with
  | some _ => throw (.terminatedTwice b.index)
  | none => putBlock b { block with terminator := some t }

end Lowering

end BlockCompiler
