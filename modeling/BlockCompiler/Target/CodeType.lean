/-
  BlockCompiler.Target.CodeType — types of the target language and their spelling.

  Pointers are typed. A function type is always the pointer to the function, as a value has
  it. `CodeType.width` is the first number that a spelling holds after its first character.
-/
import BlockCompiler.Fault

namespace BlockCompiler.Target

inductive CodeType where
  | int (width : Nat)
  | float
  | double
  | ptr (pointee : CodeType)
  | array (length : UInt64) (element : CodeType)
  | struct (fields : List CodeType)
  | named (name : String)
  | func (result : CodeType) (params : List CodeType)
  deriving Repr

namespace CodeType

mutual

def text : CodeType → String
  | int width => s!"i{width}"
  | float => "float"
  | double => "double"
  | ptr pointee => pointee.text ++ "*"
  | array length element => s!"[{length} x " ++ element.text ++ "]"
  | struct [] => "\x7b\x7d"
  | struct (field :: fields) =>
    "\x7b " ++ ", ".intercalate (field.text :: texts fields) ++ " \x7d"
  | named name => "%\"" ++ name ++ "\""
  | func result params => result.text ++ " (" ++ ", ".intercalate (texts params) ++ ")*"

def texts : List CodeType → List String
  | [] => []
  | t :: rest => t.text :: texts rest

end

/-- A sum: its tag and the words of its payload. -/
def sum (words : UInt64) : CodeType := struct [int 32, array words (int 64)]

/-- The number at the second character of the spelling, as 32 bits: the width of an integer
and of a pointer to it, the length of an array. -/
def width : CodeType → Except Fault Nat
  | int width => .ok width
  | array length _ => .ok length.toUInt32.toNat
  | ptr pointee => pointee.width
  | func result _ => result.width
  | float | double | struct _ | named _ => .error .noWidth

end CodeType

end BlockCompiler.Target
