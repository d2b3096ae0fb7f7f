/-
  BlockCompiler.Span — byte ranges of a source file.
-/

namespace BlockCompiler

/-- The number of a registered source file. -/
abbrev FileId := Nat

/-- The bytes from `start` up to, and not including, `stop`. -/
structure Span where
  start : Nat
  stop : Nat
  deriving DecidableEq, Repr

namespace Span

/-- The empty span at the start of a file. -/
def none : Span := ⟨0, 0⟩

/-- From the start of `a` to the end of `b`. -/
def merge (a b : Span) : Span := ⟨a.start, b.stop⟩

/-- The number of bytes covered; a span that ends before it starts covers none. -/
def length (s : Span) : Nat := s.stop - s.start

end Span

end BlockCompiler
