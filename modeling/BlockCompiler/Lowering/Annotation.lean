/-
  BlockCompiler.Lowering.Annotation — from annotations to types.

  An annotation is resolved inside out, so a type is added only after its parts. A named
  type must be a declared alias, the fields of a struct need different names, and a sum may
  list a type only once.

  `CheckM` is the step that all checking takes: it may add types, reject the program with a
  diagnostic, or stop at a fault.
-/
import BlockCompiler.Report.Diagnostic
import BlockCompiler.Surface.TypeExpr
import BlockCompiler.Types.Typing

namespace BlockCompiler

abbrev CheckM := ExceptT Diagnostic TypingM

namespace Check

/-- Takes a result, or stops at its fault. -/
def settle {α : Type} (r : Except Fault α) : CheckM α := ExceptT.lift (Typing.settle r)

/-- Asks the type table. -/
def ask {α : Type} (f : TypeTable → Except Fault α) : CheckM α := ExceptT.lift (Typing.ask f)

end Check

namespace Annotation

open Surface

def duplicateField (file : FileId) (name : String) (span : Span) : Diagnostic :=
  .error Code.duplicate s!"Field {name} is declared more than once" [.primary file span]

def duplicateVariant (file : FileId) (ty : String) (span : Span) : Diagnostic :=
  .error Code.duplicate s!"Variant {ty} is listed more than once" [.primary file span]

def unknownType (file : FileId) (name : String) (span : Span) : Diagnostic :=
  .error Code.unknownType s!"Unknown type {name}" [.primary file span]

mutual

/-- The type that an annotation stands for. -/
def resolve (file : FileId) : TypeExpr → CheckM TypeId
  | .int ty _ => return TypeId.int ty.signed ty.width.bits
  | .float double _ => return TypeId.float double
  | .bool _ => return TypeId.bool
  | .unit _ => return TypeId.unit
  | .ptr pointee _ => do
    let pointee ← resolve file pointee
    Typing.intern (.ptr pointee)
  | .array element length _ => do
    let element ← resolve file element
    Typing.intern (.array element length)
  | .struct fields _ => do
    let fields ← resolveFields file [] fields
    Typing.intern (.struct fields)
  | .sum variants _ => do
    let variants ← resolveVariants file [] variants
    Typing.intern (.sum variants)
  | .func params result _ => do
    let result ← resolve file result
    let params ← resolveParams file params
    Typing.intern (.func { params, result })
  | .named name span => do
    match (← get).types.findAlias? name with
    | some id => return id
    | none => throw (unknownType file name span)

/-- The fields of a struct, given those before them. -/
def resolveFields (file : FileId) (earlier : List Field) :
    List (TypeExpr × String) → CheckM (List Field)
  | [] => return earlier
  | (ty, name) :: rest => do
    let id ← resolve file ty
    if earlier.any (·.name = name) then throw (duplicateField file name ty.span)
    else resolveFields file (earlier ++ [{ ty := id, name }]) rest

/-- The variants of a sum, given those before them. -/
def resolveVariants (file : FileId) (earlier : List TypeId) :
    List TypeExpr → CheckM (List TypeId)
  | [] => return earlier
  | ty :: rest => do
    let id ← resolve file ty
    if id ∈ earlier then throw (duplicateVariant file (← Typing.nameOf id) ty.span)
    else resolveVariants file (earlier ++ [id]) rest

def resolveParams (file : FileId) : List (TypeExpr × Option String) → CheckM (List Parameter)
  | [] => return []
  | (ty, name) :: rest => do
    let id ← resolve file ty
    return { ty := id, name } :: (← resolveParams file rest)

end

end Annotation

end BlockCompiler
