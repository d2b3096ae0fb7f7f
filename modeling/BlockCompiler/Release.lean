/-
  BlockCompiler.Release — the version of the compiler.
-/

namespace BlockCompiler

structure Release where
  major : Nat
  minor : Nat
  patch : Nat
  deriving DecidableEq, Repr

namespace Release

def current : Release := ⟨0, 1, 0⟩

def text (r : Release) : String := s!"{r.major}.{r.minor}.{r.patch}"

end Release

end BlockCompiler
