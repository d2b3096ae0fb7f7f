/-
  BlockCompiler.Surface.Operator — operators and integer widths of the surface language.
-/

namespace BlockCompiler

inductive Operator where
  | add
  | sub
  | star
  | div
  | mod
  | eq
  | greater
  | greaterEq
  | less
  | lessEq
  | shiftLeft
  | shiftRight
  | logicalAnd
  | logicalOr
  | logicalNot
  | bitAnd
  | bitOr
  | bitXor
  | bitNot
  | assign
  deriving DecidableEq, Repr

namespace Operator

/-- All operators; an operator's code is its position here. -/
def all : List Operator :=
  [add, sub, star, div, mod, eq, greater, greaterEq, less, lessEq, shiftLeft, shiftRight,
    logicalAnd, logicalOr, logicalNot, bitAnd, bitOr, bitXor, bitNot, assign]

def spelling : Operator → String
  | add => "+"
  | sub => "-"
  | star => "*"
  | div => "/"
  | mod => "%"
  | eq => "=="
  | greater => ">"
  | greaterEq => ">="
  | less => "<"
  | lessEq => "<="
  | shiftLeft => "<<"
  | shiftRight => ">>"
  | logicalAnd => "&&"
  | logicalOr => "||"
  | logicalNot => "!"
  | bitAnd => "&"
  | bitOr => "|"
  | bitXor => "^"
  | bitNot => "~"
  | assign => "="

/-- The operator spelled this way. -/
def ofSpelling? (s : String) : Option Operator := all.find? (·.spelling = s)

end Operator

/-- The widths that integer annotations and suffixes can have. -/
inductive Width where
  | w8
  | w16
  | w32
  | w64
  deriving DecidableEq, Repr

namespace Width

def all : List Width := [w8, w16, w32, w64]

def bits : Width → Nat
  | w8 => 8
  | w16 => 16
  | w32 => 32
  | w64 => 64

end Width

/-- Properties of a function, as bits: 1 marks a function defined elsewhere, 2 one that the
back end should inline. -/
structure FunFlags where
  bits : UInt8 := 0
  deriving DecidableEq, Repr

namespace FunFlags

def isExternal (f : FunFlags) : Bool := f.bits &&& 1 ≠ 0

def isInline (f : FunFlags) : Bool := f.bits &&& 2 ≠ 0

def markExternal (f : FunFlags) : FunFlags := ⟨f.bits ||| 1⟩

end FunFlags

end BlockCompiler
