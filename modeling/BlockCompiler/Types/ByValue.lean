/-
  BlockCompiler.Types.ByValue — types that contain themselves.

  A type contains by value what an alias stands for, the fields of a struct, the element of
  an array and the variants of a sum. Pointers and functions contain nothing by value. An
  alias that contains itself this way has no finite layout.
-/
import BlockCompiler.Types.Table

namespace BlockCompiler

/-- The types that a type contains by value. -/
def Ty.parts : Ty → List TypeId
  | named _ underlying => [underlying]
  | struct fields => fields.map (·.ty)
  | array element _ => [element]
  | sum variants => variants
  | _ => []

namespace TypeTable

/-- Searches what the pending types contain for `goal`. A type is expanded once, so `steps`
need not exceed the number of parts of all types. -/
def searchParts (t : TypeTable) (goal : TypeId) :
    (steps : Nat) → (seen pending : List TypeId) → Except Fault Bool
  | 0, _, _ => .ok false
  | _ + 1, _, [] => .ok false
  | n + 1, seen, id :: pending =>
    if id = goal then .ok true
    else if id ∈ seen then searchParts t goal n seen pending
    else do
      let ty ← t.get id
      searchParts t goal n (id :: seen) (ty.parts.reverse ++ pending)

/-- The number of parts of all types. -/
def partCount (t : TypeTable) : Nat :=
  t.items.toList.foldl (fun n ty => n + ty.parts.length) 0

/-- Whether an alias contains itself by value. -/
def isCyclic (t : TypeTable) (id : TypeId) : Except Fault Bool := do
  match ← t.get id with
  | .named _ underlying => t.searchParts id (t.partCount + 2) [] [underlying]
  | _ => throw .wrongShape

end TypeTable

end BlockCompiler
