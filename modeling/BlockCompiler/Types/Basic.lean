/-
  BlockCompiler.Types.Basic — the types that values have.

  Types refer to each other by handle. Structural types are the same when their parts are;
  an alias is named, and two aliases are the same when their names are, whatever they stand
  for. So an alias can be interned before its meaning is known and completed later.

  The primitive types have fixed handles, `i8` to `invalid`.
-/
import BlockCompiler.Store.Interner

namespace BlockCompiler

namespace TypeId

def i8 : TypeId := ⟨0⟩
def i16 : TypeId := ⟨1⟩
def i32 : TypeId := ⟨2⟩
def i64 : TypeId := ⟨3⟩
def u8 : TypeId := ⟨4⟩
def u16 : TypeId := ⟨5⟩
def u32 : TypeId := ⟨6⟩
def u64 : TypeId := ⟨7⟩
def bool : TypeId := ⟨8⟩
def unit : TypeId := ⟨9⟩
def f32 : TypeId := ⟨10⟩
def f64 : TypeId := ⟨11⟩

/-- The type of what failed to type. -/
def invalid : TypeId := ⟨12⟩

/-- The handle of the integer type of this width; widths other than 8, 16 and 32 count as 64. -/
def int (signed : Bool) (width : Nat) : TypeId :=
  let slot := if width = 8 then 0 else if width = 16 then 1 else if width = 32 then 2 else 3
  ⟨slot + if signed then 0 else 4⟩

def float (double : Bool) : TypeId := if double then f64 else f32

end TypeId

structure Field where
  ty : TypeId
  name : String
  deriving DecidableEq, Repr

structure Parameter where
  ty : TypeId
  name : Option String
  deriving DecidableEq, Repr

/-- What a function takes and gives. -/
structure Signature where
  params : List Parameter
  result : TypeId
  deriving DecidableEq, Repr

inductive Ty where
  | int (signed : Bool) (width : Nat)
  | float (double : Bool)
  | bool
  | unit
  | ptr (pointee : TypeId)
  | array (element : TypeId) (length : UInt64)
  | struct (fields : List Field)
  | sum (variants : List TypeId)
  | func (signature : Signature)
  /-- An alias. What it stands for is `invalid` until it is defined. -/
  | named (name : String) (underlying : TypeId)
  | invalid
  deriving DecidableEq, Repr

namespace Ty

/-- What the type is recognised by: an alias by its name alone, any other type by itself. -/
def key : Ty → Ty
  | named name _ => named name TypeId.invalid
  | ty => ty

instance : Identified Ty Ty := ⟨key⟩

def isInt : Ty → Bool
  | int _ _ => true
  | _ => false

def isFloat : Ty → Bool
  | float _ => true
  | _ => false

def isPtr : Ty → Bool
  | ptr _ => true
  | _ => false

def isSum : Ty → Bool
  | sum _ => true
  | _ => false

/-- The primitive types, in the order of their handles. -/
def primitives : List Ty :=
  [int true 8, int true 16, int true 32, int true 64, int false 8, int false 16, int false 32,
    int false 64, bool, unit, float false, float true, invalid]

/-- The position of the field of this name. -/
def fieldIndex? (fields : List Field) (name : String) : Option Nat :=
  fields.findIdx? (·.name = name)

/-- The position of a type among variants. -/
def variantIndex? (variants : List TypeId) (variant : TypeId) : Option VariantId :=
  (variants.findIdx? (· = variant)).map Handle.mk

end Ty

end BlockCompiler
