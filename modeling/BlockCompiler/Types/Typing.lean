/-
  BlockCompiler.Types.Typing — steps that add types.

  Working out the types of a program only ever adds to the type table and to the journal;
  `TypingM` is a step on these two that may stop at a fault, keeping what it added.
-/
import BlockCompiler.Log.Record
import BlockCompiler.Types.Name

namespace BlockCompiler

structure Typing where
  types : TypeTable := TypeTable.fresh
  journal : Log.Journal := #[]

abbrev TypingM := EStateM Fault Typing

namespace Typing

/-- Takes a result, or stops at its fault. -/
def settle {α : Type} (r : Except Fault α) : TypingM α := ofExcept r

/-- Asks the type table. -/
def ask {α : Type} (f : TypeTable → Except Fault α) : TypingM α := do
  settle (f (← get).types)

def typeAt (id : TypeId) : TypingM Ty := ask (·.get id)

def resolved (id : TypeId) : TypingM Ty := ask (·.resolved id)

def nameOf (id : TypeId) : TypingM String := ask (·.name id)

/-- The handle of a type, which is added unless it is there already. -/
def intern (ty : Ty) : TypingM TypeId :=
  modifyGet fun s =>
    let (id, types) := s.types.insert ty
    (id, { s with types })

/-- Logs a message that the gate lets through. -/
def note (gate : Log.Gate) (level : Log.Level) (area text : String) : TypingM Unit :=
  modify fun s => { s with journal := s.journal.note gate level area text }

/-- Adds an alias that stands for nothing yet. -/
def declareAlias (gate : Log.Gate) (name : String) : TypingM TypeId := do
  let id ← intern (.named name TypeId.invalid)
  note gate .trace "ir" s!"declared alias {name} as type {id.index}"
  return id

def defineAlias (id underlying : TypeId) : TypingM Unit := do
  let types ← ask (·.defineAlias id underlying)
  modify fun s => { s with types }

end Typing

end BlockCompiler
