/-
  BlockCompiler.Target.Spelling — the target type of each type.

      iN, uN      iN             *T       T*
      bool        i1             [N]T     [N x T]
      ()          {}             struct   { T1, T2 }
      f32, f64    float, double  sum      { i32, [K x i64] }
      function    R (A, B)*      alias of a struct or sum    %"Name"

  Any other alias is spelled as what it stands for. While that is being spelled the alias is
  marked as expanding; an alias that is met again inside itself has no spelling and becomes
  `i8`. A fault leaves the marks that are set at that moment.
-/
import BlockCompiler.Target.CodeType
import BlockCompiler.Types.Layout

namespace BlockCompiler.Target

/-- A step that spells types; the state is the aliases that are expanding. -/
abbrev SpellM := EStateM Fault (List TypeId)

/-- Whether a type is an alias that ends at a struct or sum. -/
def isNamedAggregate (t : TypeTable) (id : TypeId) : Except Fault Bool := do
  match ← t.get id with
  | .named _ _ =>
    match ← t.resolved id with
    | .struct _ | .sum _ => return true
    | _ => return false
  | _ => return false

/-- The spelling of a type at most `depth` levels deep. -/
def spellWithin (t : TypeTable) : (depth : Nat) → TypeId → SpellM CodeType
  | 0, _ => throw .endlessType
  | n + 1, id => do
    match ← ofExcept (t.get id) with
    | .int _ width => return .int width
    | .float double => return if double then .double else .float
    | .bool => return .int 1
    | .unit => return .struct []
    | .ptr pointee => return .ptr (← spellWithin t n pointee)
    | .array element length => return .array length (← spellWithin t n element)
    | .struct fields => return .struct (← fields.mapM fun f => spellWithin t n f.ty)
    | .sum variants => return .sum (← ofExcept (t.payloadWords variants))
    | .func signature =>
      let result ← spellWithin t n signature.result
      return .func result (← signature.params.mapM fun p => spellWithin t n p.ty)
    | .named name underlying =>
      if ← ofExcept (isNamedAggregate t id) then return .named name
      else if id ∈ (← get) then return .int 8
      else
        modify (id :: ·)
        let spelling ← spellWithin t n underlying
        modify (·.erase id)
        return spelling
    | .invalid => throw .untypedSpelling

/-- The spelling of a type. Between two aliases a path into a type visits each type once, and
it expands each alias once. -/
def spellType (t : TypeTable) (id : TypeId) : SpellM CodeType :=
  spellWithin t ((t.size + 2) * (t.size + 2)) id

/-- The literal spelling of a struct or sum. -/
def spellAggregate (t : TypeTable) (id : TypeId) : SpellM CodeType := do
  match ← ofExcept (t.get id) with
  | .struct fields => return .struct (← fields.mapM fun f => spellType t f.ty)
  | .sum variants => return .sum (← ofExcept (t.payloadWords variants))
  | _ => throw .wrongShape

end BlockCompiler.Target
