/-
  BlockCompiler.Store.Arena — append-only stores.

  Inserting appends and issues the next handle. Nothing is ever removed, so an issued
  handle stays good; an entry may be replaced in place.
-/
import BlockCompiler.Fault
import BlockCompiler.Store.Handle

namespace BlockCompiler

structure Arena (k : Kind) (α : Type) where
  items : Array α
  deriving Repr

namespace Arena

variable {k : Kind} {α : Type}

def empty : Arena k α := ⟨#[]⟩

instance : Inhabited (Arena k α) := ⟨empty⟩

def size (a : Arena k α) : Nat := a.items.size

def isEmpty (a : Arena k α) : Bool := a.items.isEmpty

def contains (a : Arena k α) (h : Handle k) : Bool := h.index < a.items.size

def get? (a : Arena k α) (h : Handle k) : Option α := a.items[h.index]?

/-- The entry named by `h`; a handle that was never issued is a fault. -/
def get (a : Arena k α) (h : Handle k) : Except Fault α :=
  match a.get? h with
  | some x => .ok x
  | none => .error (.staleHandle h.index a.size)

/-- The handle that the next insertion issues. -/
def next (a : Arena k α) : Handle k := ⟨a.items.size⟩

def insert (a : Arena k α) (x : α) : Arena k α := ⟨a.items.push x⟩

/-- Replaces the entry named by `h`; nothing happens where there is none. -/
def put (a : Arena k α) (h : Handle k) (x : α) : Arena k α :=
  ⟨a.items.setIfInBounds h.index x⟩

/-- Replaces the entry named by `h`; a handle that was never issued is a fault. -/
def replace (a : Arena k α) (h : Handle k) (x : α) : Except Fault (Arena k α) := do
  let _ ← a.get h
  return a.put h x

/-- All issued handles, oldest first. -/
def handles (a : Arena k α) : List (Handle k) := (List.range a.size).map Handle.mk

end Arena

end BlockCompiler
