/-
  BlockCompiler.Types.Name — how types are shown.

      i32   f64   bool   ()   *T   [4]T   {T a,U b,}   T | U |    fun (T a, U , ) -> R

  An alias is shown by its name, so the name of a type that reaches itself through an alias
  ends. The depth of any other type is bounded by the size of the table.
-/
import BlockCompiler.Types.Table

namespace BlockCompiler.TypeTable

/-- The name of a type at most `depth` levels deep. -/
def nameWithin (t : TypeTable) : (depth : Nat) → TypeId → Except Fault String
  | 0, _ => .error .endlessType
  | n + 1, id => do
    match ← t.get id with
    | .int signed width => return (if signed then "i" else "u") ++ toString width
    | .float double => return if double then "f64" else "f32"
    | .bool => return "bool"
    | .unit => return "()"
    | .invalid => return "INVALID"
    | .ptr pointee => return "*" ++ (← nameWithin t n pointee)
    | .array element length => return s!"[{length}]" ++ (← nameWithin t n element)
    | .struct fields =>
      let parts ← fields.mapM fun f => return (← nameWithin t n f.ty) ++ " " ++ f.name ++ ","
      return "\x7b" ++ String.join parts ++ "\x7d"
    | .sum variants =>
      let parts ← variants.mapM fun v => return (← nameWithin t n v) ++ " | "
      return String.join parts
    | .func signature =>
      let parts ← signature.params.mapM fun p =>
        return (← nameWithin t n p.ty) ++ " " ++ p.name.getD "" ++ ", "
      return "fun (" ++ String.join parts ++ ") -> " ++ (← nameWithin t n signature.result)
    | .named name _ => return name

/-- The name of a type. -/
def name (t : TypeTable) (id : TypeId) : Except Fault String := t.nameWithin (t.size + 1) id

/-- The type of a variant of a sum. -/
def variantType (t : TypeTable) (sum : TypeId) (variant : VariantId) : Except Fault TypeId := do
  let found := match ← t.resolved sum with
    | .sum variants => variants[variant.index]?
    | _ => none
  match found with
  | some ty => return ty
  | none => throw (.noVariant variant.index (← t.name sum))

end BlockCompiler.TypeTable
