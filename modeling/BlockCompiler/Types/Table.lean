/-
  BlockCompiler.Types.Table — the types of a compilation.

  An alias is declared, then defined, once. `unwrapAlias` follows aliases to what they stand
  for: a chain longer than the table revisits an alias, and so has no end and no meaning.
-/
import BlockCompiler.Types.Basic

namespace BlockCompiler

abbrev TypeTable := Interner .type Ty

namespace TypeTable

/-- The table of the primitive types. -/
def fresh : TypeTable := ⟨Ty.primitives.toArray⟩

/-- The handle of the alias of this name. -/
def findAlias? (t : TypeTable) (name : String) : Option TypeId :=
  t.find? (.named name TypeId.invalid)

/-- Says what an alias stands for. It must be an alias that stands for nothing yet. -/
def defineAlias (t : TypeTable) (id underlying : TypeId) : Except Fault TypeTable := do
  match ← t.get id with
  | .named name current =>
    if current = TypeId.invalid then t.refine id (.named name underlying)
    else throw (.aliasDefined name)
  | _ => throw (.notAlias id.index)

/-- Follows at most `steps` aliases. -/
def follow (t : TypeTable) : (steps : Nat) → TypeId → Except Fault TypeId
  | 0, _ => .ok TypeId.invalid
  | n + 1, id => do
    match ← t.get id with
    | .named _ underlying => follow t n underlying
    | _ => return id

/-- The type that an alias stands for in the end; a type that is no alias is itself. Aliases
that lead nowhere stand for `invalid`. -/
def unwrapAlias (t : TypeTable) (id : TypeId) : Except Fault TypeId := t.follow (t.size + 1) id

/-- The type itself, aliases followed. -/
def resolved (t : TypeTable) (id : TypeId) : Except Fault Ty := do t.get (← t.unwrapAlias id)

/-- The position of a type among the variants of a sum. -/
def variant? (t : TypeTable) (sum variant : TypeId) : Except Fault (Option VariantId) := do
  match ← t.resolved sum with
  | .sum variants => return Ty.variantIndex? variants variant
  | _ => return none

end TypeTable

end BlockCompiler
