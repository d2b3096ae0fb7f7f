/-
  BlockCompiler.Store.Handle — numbers that name the entries of a store.

  A handle carries, in its type, which kind of entry it names, so a block handle cannot be
  used where a type handle is meant. Handles compare by number.
-/

namespace BlockCompiler

/-- The kinds of entry that stores hold. -/
inductive Kind where
  | type
  | function
  | block
  | variable
  /-- A position among the variants of a sum type. -/
  | variant
  | entry
  deriving DecidableEq, Repr

structure Handle (k : Kind) where
  index : Nat
  deriving DecidableEq, Repr

instance {k : Kind} : LawfulBEq (Handle k) := inferInstance

abbrev TypeId := Handle .type
abbrev FunId := Handle .function
abbrev BlockId := Handle .block
abbrev VarId := Handle .variable
abbrev VariantId := Handle .variant

end BlockCompiler
