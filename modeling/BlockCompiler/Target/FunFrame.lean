/-
  BlockCompiler.Target.FunFrame — a function while its code is made.

  Temporaries and spill slots are numbered from one counter. A variable gets its slot when it
  is first used.
-/
import BlockCompiler.Graph.Context
import BlockCompiler.Target.Code
import BlockCompiler.Target.Spelling

namespace BlockCompiler.Target

structure FunFrame where
  /-- The aliases that are being spelled. -/
  expanding : List TypeId
  slots : Array Alloca := #[]
  /-- The code of the current block. -/
  code : Array Instr := #[]
  /-- The next number of a temporary or spill slot. -/
  counter : Nat := 0
  /-- The variables that have slots. -/
  placed : List VarId := []

abbrev EmitM := EStateM Fault FunFrame

/-- What code is made from: the context, and whether names are noted in comments. -/
structure Source extends context : Context where
  comments : Bool

namespace FunFrame

/-- Runs a step that spells types. -/
def spelling {α : Type} (act : SpellM α) : EmitM α := fun f =>
  match act f.expanding with
  | .ok a expanding => .ok a { f with expanding }
  | .error fault expanding => .error fault { f with expanding }

def spell (src : Source) (ty : TypeId) : EmitM CodeType := spelling (spellType src.context.types ty)

def ask {α : Type} (src : Source) (f : Context → Except Fault α) : EmitM α :=
  ofExcept (f src.context)

def emit (i : Instr) : EmitM Unit := modify fun f => { f with code := f.code.push i }

def comment (src : Source) (text : String) : EmitM Unit :=
  if src.comments then emit (.comment text) else return ()

def fresh : EmitM Nat := modifyGet fun f => (f.counter, { f with counter := f.counter + 1 })

def newTemp : EmitM Operand := Operand.temp <$> fresh

def addSlot (a : Alloca) : EmitM Unit := modify fun f => { f with slots := f.slots.push a }

/-- A new slot of the given type. -/
def newSpill (ty : CodeType) : EmitM Operand := do
  let slot := Operand.spill (← fresh)
  addSlot { slot, ty, comment := none }
  return slot

/-- Puts a value into a new slot. -/
def spill (value : Operand) (ty : CodeType) : EmitM Operand := do
  let slot ← newSpill ty
  emit (.store ty value slot)
  return slot

/-- The slot of a variable. -/
def slotOf (src : Source) (v : VarId) : EmitM Operand := do
  if v ∈ (← get).placed then return .slot v
  else
    modify fun f => { f with placed := v :: f.placed }
    let var ← ask src (·.vars.get v)
    let ty ← spell src var.ty
    addSlot { slot := .slot v, ty, comment := if src.comments then some var.name else none }
    return .slot v

end FunFrame

end BlockCompiler.Target
