/-
  BlockCompiler.Log.Filter — which records are let through.

  A filter holds a level for some areas and a fallback for all others. It is read from a
  spec of tokens divided by commas: `area=level` sets the area's level, `area` alone lets
  everything of the area through, and `*=level` sets the fallback. The last token for an
  area wins; empty tokens say nothing. Reading a spec forgets the areas of the spec before
  it and keeps the fallback. Specs and the names of areas are bytes of any kind.

  The gate in front of a logger is a filter with one more threshold, tested first.
-/
import BlockCompiler.Log.Level
import BlockCompiler.Text.Split

namespace BlockCompiler.Log

structure Filter where
  fallback : Level := .info
  areas : List (Bytes × Level) := []
  deriving DecidableEq, Repr

namespace Filter

/-- What a token of a spec asks for. -/
inductive Rule where
  | area (name : Bytes) (level : Level)
  | fallback (level : Level)
  deriving DecidableEq, Repr

def Rule.read (token : Bytes) : Rule :=
  match Text.cut? Bytes.equals token with
  | none => .area token .trace
  | some (name, level) =>
    if name = [Bytes.star] then .fallback (Level.parse level) else .area name (Level.parse level)

/-- The rules of a spec, in order. -/
def rules (spec : Bytes) : List Rule :=
  ((Text.split Bytes.comma spec).filter (· ≠ [])).map Rule.read

def apply (f : Filter) : Rule → Filter
  | .area name level => { f with areas := (name, level) :: f.areas.filter (·.1 ≠ name) }
  | .fallback level => { f with fallback := level }

def parse (f : Filter) (spec : Bytes) : Filter :=
  (rules spec).foldl apply { f with areas := [] }

/-- The level in force for an area. -/
def levelOf (f : Filter) (area : Bytes) : Level := (f.areas.lookup area).getD f.fallback

def allows (f : Filter) (level : Level) (area : Bytes) : Bool := f.levelOf area ≤ level

/-- The lowest level that the filter lets through for some area. -/
def minLevel (f : Filter) : Level := f.areas.foldl (fun m a => m.lower a.2) f.fallback

end Filter

structure Gate where
  level : Level := .warn
  filter : Filter := { fallback := .warn }
  deriving DecidableEq, Repr

namespace Gate

def allows (g : Gate) (level : Level) (area : Bytes) : Bool :=
  g.level ≤ level && g.filter.allows level area

/-- Sets the threshold and the filter's fallback. -/
def setLevel (g : Gate) (level : Level) : Gate :=
  { level := level, filter := { g.filter with fallback := level } }

def setFilter (g : Gate) (spec : String) : Gate := { g with filter := g.filter.parse spec }

/-- Applies a level and a spec at once. The threshold follows the filter, so it never holds
back a record that the filter lets through. -/
def configure (g : Gate) (level : Level) (spec : String) : Gate :=
  let filter := { g.filter with fallback := level }.parse spec
  { level := filter.minLevel, filter := filter }

end Gate

end BlockCompiler.Log
