/-
  BlockCompiler.Store.Interner — stores without duplicates.

  Two entries are the same when their identities are equal. Inserting an entry that is
  already there issues the handle it has; an entry may be refined in place as long as its
  identity stays.
-/
import BlockCompiler.Fault
import BlockCompiler.Store.Handle

namespace BlockCompiler

/-- What an interner compares its entries by. -/
class Identified (α : Type) (κ : outParam Type) where
  identity : α → κ

export Identified (identity)

structure Interner (k : Kind) (α : Type) where
  items : Array α
  deriving Repr

namespace Interner

variable {k : Kind} {α κ : Type}

def empty : Interner k α := ⟨#[]⟩

instance : Inhabited (Interner k α) := ⟨empty⟩

def size (s : Interner k α) : Nat := s.items.size

def contains (s : Interner k α) (h : Handle k) : Bool := h.index < s.items.size

def get? (s : Interner k α) (h : Handle k) : Option α := s.items[h.index]?

/-- The entry named by `h`; a handle that was never issued is a fault. -/
def get (s : Interner k α) (h : Handle k) : Except Fault α :=
  match s.get? h with
  | some x => .ok x
  | none => .error (.staleInterned h.index s.size)

variable [Identified α κ] [DecidableEq κ]

/-- The handle of the entry that is the same as `x`. -/
def find? (s : Interner k α) (x : α) : Option (Handle k) :=
  (s.items.findIdx? fun y => identity y = identity x).map Handle.mk

/-- The handle of `x`, which is appended unless it is there already. -/
def insert (s : Interner k α) (x : α) : Handle k × Interner k α :=
  match s.find? x with
  | some h => (h, s)
  | none => (⟨s.items.size⟩, ⟨s.items.push x⟩)

/-- Replaces the entry named by `h` by one with the same identity. -/
def refine (s : Interner k α) (h : Handle k) (x : α) : Except Fault (Interner k α) := do
  let current ← s.get h
  if identity current = identity x then
    return ⟨s.items.setIfInBounds h.index x⟩
  else
    throw (.identityChange h.index)

end Interner

end BlockCompiler
