/-
  BlockCompiler.Fault — broken invariants.

  A fault is not a mistake of the user: it says that a handle was never issued, that a
  block was closed twice, that a type without meaning reached the target text, and so on.
  Whoever raises one stops at once; everything done before it stays done.

  `Fault.message` is the wording, `Fault.area` the part of the compiler under which the
  fault is logged. A fault without an area is not logged. The log shows the whole wording;
  whoever catches the fault is told it up to the first NUL character (`Fault.report`).
-/
import BlockCompiler.Text.Split

namespace BlockCompiler

/-- What makes a function structurally unsound. -/
inductive Flaw where
  | unknownType (index : Nat)
  | unknownVariable (index : Nat)
  | unknownFunction (index : Nat)
  | argumentRange (index : Nat)
  | foreignBody
  | unknownBlock (index : Nat)
  | openBlock (index : Nat)
  deriving DecidableEq, Repr

def Flaw.message : Flaw → String
  | .unknownType i => s!"unknown type handle {i}"
  | .unknownVariable i => s!"unknown variable handle {i}"
  | .unknownFunction i => s!"unknown function handle {i}"
  | .argumentRange i => s!"argument index {i} out of range"
  | .foreignBody => "body parent does not match"
  | .unknownBlock i => s!"jumps to unknown block bb{i}"
  | .openBlock i => s!"reachable block bb{i} has no terminator"

/-- The operand families whose operators the target text may lack. -/
inductive OperandFamily where
  | integer
  | float
  | pointer
  | unary
  deriving DecidableEq, Repr

def OperandFamily.name : OperandFamily → String
  | .integer => "integer"
  | .float => "float"
  | .pointer => "pointer"
  | .unary => "unary"

inductive Fault where
  /-- A handle that the arena never issued. -/
  | staleHandle (index size : Nat)
  /-- A handle that the interner never issued. -/
  | staleInterned (index size : Nat)
  | identityChange (index : Nat)
  | notAlias (index : Nat)
  | aliasDefined (name : String)
  | noVariant (variant : Nat) (sum : String)
  | malformed (function : String) (flaw : Flaw)
  | scopeUnderflow
  | unscopedBinding (name : String)
  | terminatedTwice (block : Nat)
  | untypedValue
  | untypedSpelling
  | openBlock (block : Nat)
  | unsupported (family : OperandFamily)
  | noConversion (source target : String)
  | unknownFile (file : Nat)
  /-- A type or value of another shape than the operation is defined for. -/
  | wrongShape
  /-- A target type whose spelling names no width. -/
  | noWidth
  /-- A type that contains itself with no alias in between. -/
  | endlessType
  /-- A fault raised by a caller under its own area. -/
  | raised (area text : String)
  deriving DecidableEq, Repr

namespace Fault

def message : Fault → String
  | staleHandle i n => s!"arena handle {i} out of range (size {n})"
  | staleInterned i n => s!"interned handle {i} out of range (size {n})"
  | identityChange i => s!"refining interned handle {i} would change its identity"
  | notAlias i => s!"type {i} is not an alias"
  | aliasDefined name => s!"alias {name} is already defined"
  | noVariant d sum => s!"discriminant {d} does not name a variant of {sum}"
  | malformed function flaw => "verify " ++ function ++ ": " ++ flaw.message
  | scopeUnderflow => "scope stack underflow"
  | unscopedBinding name => s!"binding {name} outside of any scope"
  | terminatedTwice b => s!"block {b} terminated twice"
  | untypedValue => "expression of type INVALID reached code generation"
  | untypedSpelling => "INVALID type reached code generation"
  | openBlock b => s!"block bb{b} has no terminator"
  | unsupported family => "unsupported " ++ family.name ++ " operator"
  | noConversion source target => s!"no conversion from {source} to {target}"
  | unknownFile file => s!"unknown source file id {file}"
  | wrongShape => ""
  | noWidth => ""
  | endlessType => "type contains itself"
  | raised _ text => text

/-- What whoever catches the fault is told. -/
def report (f : Fault) : String := Text.untilNul f.message

/-- The area under which the fault is logged. -/
def area : Fault → Option String
  | staleHandle _ _ | staleInterned _ _ | identityChange _ | notAlias _ | aliasDefined _
  | noVariant _ _ | malformed _ _ | endlessType => some "ir"
  | scopeUnderflow | unscopedBinding _ | terminatedTwice _ => some "lower"
  | untypedValue | untypedSpelling | openBlock _ | unsupported _ | noConversion _ _ =>
    some "codegen"
  | unknownFile _ => some "diag"
  | wrongShape | noWidth => none
  | raised area _ => some area

end Fault

end BlockCompiler
