/-
  BlockCompiler.Lowering.Operators — which operands an operator takes and what it gives.

      left     operators                          right            result
      bool     && || ! ==                         bool             bool
      integer  == > >= < <= * / + - << >>         same integer     left
      float    == > >= < <= * / + -               same float       left
      pointer  << >>                              integer          left
      pointer  + -                                pointer, integer left
      pointer  ==                                 pointer          bool

      * pointer to T gives T    & T gives a pointer to T
      - integer or float        ~ integer or pointer

  Types count exactly as interned: aliases are not looked through and nothing is widened.
-/
import BlockCompiler.Surface.Operator
import BlockCompiler.Types.Basic

namespace BlockCompiler.Operator

def onBools : List Operator := [logicalAnd, logicalOr, logicalNot, eq]

def onFloats : List Operator := [eq, greater, greaterEq, less, lessEq, star, div, add, sub]

def onInts : List Operator := onFloats ++ [shiftLeft, shiftRight]

/-- The type of `lhs op rhs`, where `l` and `r` are the types that the handles name. -/
def binaryType? (l r : Ty) (lhs : TypeId) (op : Operator) (rhs : TypeId) : Option TypeId :=
  match l, r with
  | .bool, .bool => if op ∈ onBools then some TypeId.bool else none
  | .int _ _, .int _ _ => if lhs = rhs ∧ op ∈ onInts then some lhs else none
  | .float _, .float _ => if lhs = rhs ∧ op ∈ onFloats then some lhs else none
  | .ptr _, .int _ _ => if op ∈ [shiftLeft, shiftRight, add, sub] then some lhs else none
  | .ptr _, .ptr _ =>
    if op ∈ [add, sub] then some lhs else if op = eq then some TypeId.bool else none
  | _, _ => none

/-- What an operator in front of an operand gives. -/
inductive UnaryType where
  | known (ty : TypeId)
  /-- A pointer to the operand's type. -/
  | pointer
  deriving DecidableEq, Repr

/-- The type of `op operand`, where `t` is the type that the handle names. -/
def unaryType? (t : Ty) (op : Operator) (operand : TypeId) : Option UnaryType :=
  match op, t with
  | star, .ptr pointee => some (.known pointee)
  | bitAnd, _ => some .pointer
  | sub, .int _ _ | sub, .float _ => some (.known operand)
  | bitNot, .int _ _ | bitNot, .ptr _ => some (.known operand)
  | _, _ => none

end BlockCompiler.Operator
