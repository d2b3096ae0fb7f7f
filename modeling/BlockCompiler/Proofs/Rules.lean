/-
  BlockCompiler.Proofs.Rules — the type system of expressions.

  The rules speak of shapes, so no table and no handle of a type occurs in them, and nothing is
  added anywhere: `Elaborates Γ e k τ` says that `e` has the type `τ` and becomes the term `k`,
  given what names mean.

  (1) What annotations mean (`Means`).
  (2) Operators, conversions, members, arguments. Operators take types as they are; casts, members
      and calls look through aliases. What has the type `invalid` has failed before: it makes
      `invalid` what is built from it, and fits any parameter.
  (3) Expressions. The rules follow the syntax, so each can be read backwards (`elaborates_binary`
      and its like).
-/
import BlockCompiler.Proofs.Shapes

namespace BlockCompiler

open Surface (Expr TypeExpr)

variable {op : Operator} {α : Type}

/-- A value without spans and types. -/
inductive Term where
  | int (value : UInt64)
  | float (bits : UInt64)
  | bool (value : Bool)
  | unit
  | var (x : VarId)
  | arg (index : Nat)
  | func (fn : FunId)
  | binary (lhs : Term) (op : Operator) (rhs : Term)
  | unary (op : Operator) (operand : Term)
  | cast (operand : Term)
  | member (base : Term) (field : Nat)
  | call (callee : Term) (args : List Term)
  | inject (variant : VariantId) (payload : Term)
  | project (sum : Term) (variant : VariantId)

namespace Value

mutual

def term : Value → Term
  | .int value _ _ => .int value
  | .float bits _ _ => .float bits
  | .bool value _ _ => .bool value
  | .unit _ _ => .unit
  | .var x _ _ => .var x
  | .arg index _ _ => .arg index
  | .func fn _ _ => .func fn
  | .binary lhs op rhs _ _ => .binary lhs.term op rhs.term
  | .unary op operand _ _ => .unary op operand.term
  | .cast operand _ _ => .cast operand.term
  | .member base field _ _ => .member base.term field
  | .call callee args _ _ => .call callee.term (terms args)
  | .inject variant payload _ _ => .inject variant payload.term
  | .project sum variant _ _ => .project sum.term variant

def terms : List Value → List Term
  | [] => []
  | v :: rest => v.term :: terms rest

end

end Value

/-- What names mean. -/
structure Glossary where
  /-- The declared aliases, and what each stands for. -/
  alias? : String → Option Shape
  /-- The innermost variable of a name. -/
  local? : String → Option VarId
  var? : VarId → Option Shape
  function? : String → Option FunId
  fun? : FunId → Option Shape

/-- What names mean to an expression, with types from a table. -/
def Env.glossary (env : Env) (t : TypeTable) : Glossary where
  alias? := t.alias?
  local? := env.local?
  var? x := (env.vars.get? x).map fun v => t.shape v.ty
  function? := env.function?
  fun? fn := (env.funs.get? fn).map fun f => (Ty.func f.signature).shapeBy t.shape

/-! ## (1) Annotations -/

mutual

inductive Means (alias? : String → Option Shape) : TypeExpr → Shape → Prop
  | int (ty : Surface.IntType) (span : Span) : Means alias? (.int ty span) (.int ty.signed ty.width.bits)
  | float (double : Bool) (span : Span) : Means alias? (.float double span) (.float double)
  | bool (span : Span) : Means alias? (.bool span) .bool
  | unit (span : Span) : Means alias? (.unit span) .unit
  | ptr {pointee : TypeExpr} {τ : Shape} (span : Span) : Means alias? pointee τ → Means alias? (.ptr pointee span) (.ptr τ)
  | array {element : TypeExpr} {τ : Shape} (length : UInt64) (span : Span) : Means alias? element τ →
      Means alias? (.array element length span) (.array τ length)
  /-- The fields of a struct have different names. -/
  | struct {fields : List (TypeExpr × String)} {τs : List Shape} (span : Span) :
      MeansAll alias? (fields.map (·.1)) τs → (fields.map (·.2)).Nodup →
      Means alias? (.struct fields span) (.struct (fields.map (·.2)) τs)
  /-- A sum lists a type once. -/
  | sum {variants : List TypeExpr} {τs : List Shape} (span : Span) : MeansAll alias? variants τs → τs.Nodup →
      Means alias? (.sum variants span) (.sum τs)
  | func {params : List (TypeExpr × Option String)} {result : TypeExpr} {τs : List Shape} {τ : Shape} (span : Span) :
      Means alias? result τ → MeansAll alias? (params.map (·.1)) τs →
      Means alias? (.func params result span) (.func (params.map (·.2)) τs τ)
  | named {name : String} {τ : Shape} (span : Span) : alias? name = some τ →
      Means alias? (.named name span) (.named name)

inductive MeansAll (alias? : String → Option Shape) : List TypeExpr → List Shape → Prop
  | nil : MeansAll alias? [] []
  | cons {ty : TypeExpr} {τ : Shape} {rest : List TypeExpr} {τs : List Shape} : Means alias? ty τ →
      MeansAll alias? rest τs → MeansAll alias? (ty :: rest) (τ :: τs)

end

/-! ## (2) Operators, conversions, members, arguments -/

/-- `Binary l op r τ`: between operands of the types `l` and `r`, the operator gives a `τ`. -/
inductive Shape.Binary : Shape → Operator → Shape → Shape → Prop
  | bools {op : Operator} : op ∈ [.logicalAnd, .logicalOr, .logicalNot, .eq] → Binary .bool op .bool .bool
  | ints {op : Operator} {signed : Bool} {width : Nat} :
      op ∈ [.eq, .greater, .greaterEq, .less, .lessEq, .star, .div, .add, .sub, .shiftLeft, .shiftRight] →
      Binary (.int signed width) op (.int signed width) (.int signed width)
  | floats {op : Operator} {double : Bool} :
      op ∈ [.eq, .greater, .greaterEq, .less, .lessEq, .star, .div, .add, .sub] →
      Binary (.float double) op (.float double) (.float double)
  | offset {op : Operator} {τ : Shape} {signed : Bool} {width : Nat} :
      op ∈ [.shiftLeft, .shiftRight, .add, .sub] → Binary (.ptr τ) op (.int signed width) (.ptr τ)
  | ptrs {op : Operator} {τ υ : Shape} : op ∈ [.add, .sub] → Binary (.ptr τ) op (.ptr υ) (.ptr τ)
  | samePtr {τ υ : Shape} : Binary (.ptr τ) .eq (.ptr υ) .bool
  | left {op : Operator} {r : Shape} : Binary .invalid op r .invalid
  | right {op : Operator} {l : Shape} : Binary l op .invalid .invalid

/-- `Unary op υ τ`: in front of an operand of the type `υ`, the operator gives a `τ`. -/
inductive Shape.Unary : Operator → Shape → Shape → Prop
  | load {τ : Shape} : Unary .star (.ptr τ) τ
  | address {τ : Shape} : τ ≠ .invalid → Unary .bitAnd τ (.ptr τ)
  | negInt {signed : Bool} {width : Nat} : Unary .sub (.int signed width) (.int signed width)
  | negFloat {double : Bool} : Unary .sub (.float double) (.float double)
  | notInt {signed : Bool} {width : Nat} : Unary .bitNot (.int signed width) (.int signed width)
  | notPtr {τ : Shape} : Unary .bitNot (.ptr τ) (.ptr τ)
  | invalid {op : Operator} : Unary op .invalid .invalid

theorem Shape.binary_invalid {l r τ : Shape} (h : l = .invalid ∨ r = .invalid) : Binary l op r τ ↔ τ = .invalid := by
  constructor
  · intro hb
    cases hb <;> simp_all
  · rintro rfl
    rcases h with rfl | rfl
    · exact .left
    · exact .right

theorem Shape.unary_invalid {τ : Shape} : Unary op .invalid τ ↔ τ = .invalid := by
  constructor
  · intro h
    cases h with
    | address hne => exact absurd rfl hne
    | invalid => rfl
  · rintro rfl
    exact .invalid

/-- Types, aliases looked through, between which values convert. -/
inductive Shape.Converts : Shape → Shape → Prop
  | same {τ : Shape} : Converts τ τ
  | intInt {s s' : Bool} {w w' : Nat} : Converts (.int s w) (.int s' w')
  | intFloat {s double : Bool} {w : Nat} : Converts (.int s w) (.float double)
  | floatInt {double s : Bool} {w : Nat} : Converts (.float double) (.int s w)
  | floatFloat {double double' : Bool} : Converts (.float double) (.float double')
  | boolInt {s : Bool} {w : Nat} : Converts .bool (.int s w)
  | ptrPtr {τ υ : Shape} : Converts (.ptr τ) (.ptr υ)
  | ptrInt {τ : Shape} {s : Bool} {w : Nat} : Converts (.ptr τ) (.int s w)
  | intPtr {s : Bool} {w : Nat} {τ : Shape} : Converts (.int s w) (.ptr τ)

/-- The first place of `x` in the list. -/
def FirstAt {α : Type} (l : List α) (x : α) (i : Nat) : Prop := l[i]? = some x ∧ x ∉ l.take i

theorem FirstAt.mem {l : List α} {x : α} {i : Nat} (h : FirstAt l x i) : x ∈ l := List.mem_of_getElem? h.1

section

variable {β : Type} {f : α → β} {p : α → Bool} {z : β} {l : List α} (hp : ∀ y ∈ l, p y = true ↔ f y = z)
include hp

/-- The first place in a list, found by a test. -/
theorem findIdx?_eq_some_iff_firstAt {i : Nat} : l.findIdx? p = some i ↔ FirstAt (l.map f) z i := by
  rw [List.findIdx?_eq_some_iff_getElem, FirstAt]
  constructor
  · rintro ⟨hlt, hat, hbefore⟩
    refine ⟨by simpa [hlt] using (hp _ (List.getElem_mem hlt)).mp hat, fun hmem => ?_⟩
    obtain ⟨j, hj, hz⟩ := List.mem_take_iff_getElem.mp hmem
    have hji : j < i := by omega
    rw [List.getElem_map] at hz
    exact hbefore j hji ((hp _ (List.getElem_mem _)).mpr hz)
  · rintro ⟨hat, hbefore⟩
    obtain ⟨hlt, hat⟩ := List.getElem?_eq_some_iff.mp hat
    rw [List.length_map] at hlt
    rw [List.getElem_map] at hat
    refine ⟨hlt, (hp _ (List.getElem_mem hlt)).mpr hat, fun j hji hz => hbefore ?_⟩
    refine List.mem_take_iff_getElem.mpr ⟨j, by rw [List.length_map]; omega, ?_⟩
    rw [List.getElem_map]
    exact (hp _ (List.getElem_mem _)).mp hz

theorem findIdx?_eq_none_iff_not_mem : l.findIdx? p = none ↔ z ∉ l.map f := by
  rw [List.findIdx?_eq_none_iff, List.mem_map, not_exists]
  refine forall_congr' fun y => ?_
  constructor
  · rintro h ⟨hy, hz⟩
    exact absurd ((hp y hy).mpr hz) (by simp [h hy])
  · intro h hy
    exact Bool.eq_false_iff.mpr fun hpy => h ⟨hy, (hp y hy).mp hpy⟩

end

section

variable (alias? : String → Option Shape)

/-- `Casts alias? k υ ρ k' τ`: the term `k` of the type `υ` is cast to `ρ` by `k'`, which has the
type `τ`. -/
inductive Casts : Term → Shape → Shape → Term → Shape → Prop
  | invalid {k : Term} {ρ : Shape} : Casts k .invalid ρ (.cast k) .invalid
  /-- A sum that lists the type gets this variant. -/
  | variant {k : Term} {υ ρ : Shape} {variants : List Shape} {i : Nat} : υ ≠ .invalid →
      ρ.Unwraps alias? (.sum variants) → FirstAt variants υ i → Casts k υ ρ (.inject ⟨i⟩ k) ρ
  | convert {k : Term} {υ υ' ρ ρ' : Shape} : υ ≠ .invalid →
      (∀ variants, ρ.Unwraps alias? (.sum variants) → υ ∉ variants) →
      υ.Unwraps alias? υ' → ρ.Unwraps alias? ρ' → υ'.Converts ρ' → Casts k υ ρ (.cast k) ρ

/-- `Selects alias? υ field i τ`: in a value of the type `υ`, the field is the `i`-th one and has
the type `τ`. -/
inductive Selects : Shape → String → Nat → Shape → Prop
  | invalid {field : String} : Selects .invalid field 0 .invalid
  | field {υ τ : Shape} {names : List String} {types : List Shape} {field : String} {i : Nat} :
      υ.Unwraps alias? (.struct names types) → FirstAt names field i → types[i]? = some τ → Selects υ field i τ

/-- An argument fits a parameter of the same type. -/
def Shape.Fits (param arg : Shape) : Prop := param = arg ∨ param = .invalid ∨ arg = .invalid

/-- `Applies alias? υ args τ`: what has the type `υ` takes arguments of these types and gives a `τ`. -/
inductive Applies : Shape → List Shape → Shape → Prop
  | invalid {args : List Shape} : Applies .invalid args .invalid
  | func {υ τ : Shape} {names : List (Option String)} {params args : List Shape} :
      υ.Unwraps alias? (.func names params τ) → List.Forall₂ Shape.Fits params args → Applies υ args τ

end

/-! ## (3) Expressions -/

mutual

inductive Elaborates (Γ : Glossary) : Expr → Term → Shape → Prop
  | int (value : UInt64) (span : Span) : Elaborates Γ (.int value none span) (.int value) (.int true 32)
  | suffixed (value : UInt64) (ty : Surface.IntType) (span : Span) :
      Elaborates Γ (.int value (some ty) span) (.int value) (.int ty.signed ty.width.bits)
  | float (bits : UInt64) (double : Bool) (span : Span) :
      Elaborates Γ (.float bits double span) (.float bits) (.float double)
  | bool (value : Bool) (span : Span) : Elaborates Γ (.bool value span) (.bool value) .bool
  | unit (span : Span) : Elaborates Γ (.unit span) .unit .unit
  | var {name : String} {x : VarId} {τ : Shape} (span : Span) : Γ.local? name = some x → Γ.var? x = some τ →
      Elaborates Γ (.name name span) (.var x) τ
  /-- A function is found where no variable has its name. -/
  | func {name : String} {fn : FunId} {τ : Shape} (span : Span) : Γ.local? name = none →
      Γ.function? name = some fn → Γ.fun? fn = some τ → Elaborates Γ (.name name span) (.func fn) τ
  | binary {lhs rhs : Expr} {op : Operator} {kl kr : Term} {l r τ : Shape} (span : Span) :
      Elaborates Γ lhs kl l → Elaborates Γ rhs kr r → Shape.Binary l op r τ →
      Elaborates Γ (.binary lhs op rhs span) (.binary kl op kr) τ
  | unary {operand : Expr} {op : Operator} {k : Term} {υ τ : Shape} (span : Span) :
      Elaborates Γ operand k υ → Shape.Unary op υ τ → Elaborates Γ (.unary op operand span) (.unary op k) τ
  | cast {operand : Expr} {target : TypeExpr} {k k' : Term} {υ ρ τ : Shape} (span : Span) :
      Elaborates Γ operand k υ → Means Γ.alias? target ρ → Casts Γ.alias? k υ ρ k' τ →
      Elaborates Γ (.cast operand target span) k' τ
  | member {base : Expr} {field : String} {k : Term} {υ τ : Shape} {i : Nat} (span : Span) :
      Elaborates Γ base k υ → Selects Γ.alias? υ field i τ → Elaborates Γ (.member base field span) (.member k i) τ
  | call {callee : Expr} {args : List Expr} {k : Term} {ks : List Term} {υ τ : Shape} {τs : List Shape} (span : Span) :
      Elaborates Γ callee k υ → ElaboratesAll Γ args ks τs → Applies Γ.alias? υ τs τ →
      Elaborates Γ (.call callee args span) (.call k ks) τ

inductive ElaboratesAll (Γ : Glossary) : List Expr → List Term → List Shape → Prop
  | nil : ElaboratesAll Γ [] [] []
  | cons {e : Expr} {k : Term} {τ : Shape} {rest : List Expr} {ks : List Term} {τs : List Shape} :
      Elaborates Γ e k τ → ElaboratesAll Γ rest ks τs → ElaboratesAll Γ (e :: rest) (k :: ks) (τ :: τs)

end

section

variable {Γ : Glossary} {b : Term × Shape} {span : Span} {operand : Expr}

theorem elaborates_var {name : String} {x : VarId} (h : Γ.local? name = some x) :
    Elaborates Γ (.name name span) b.1 b.2 ↔ Γ.var? x = some b.2 ∧ b.1 = .var x := by
  obtain ⟨k, τ⟩ := b
  constructor
  · intro he
    cases he with
    | var _ hx hvar =>
      cases h.symm.trans hx
      exact ⟨hvar, rfl⟩
    | func _ hnone _ _ => cases h.symm.trans hnone
  · rintro ⟨hvar, hk⟩
    cases hk
    exact .var span h hvar

theorem elaborates_func {name : String} (h : Γ.local? name = none) : Elaborates Γ (.name name span) b.1 b.2 ↔
    ∃ fn, Γ.function? name = some fn ∧ Γ.fun? fn = some b.2 ∧ b.1 = .func fn := by
  obtain ⟨k, τ⟩ := b
  constructor
  · intro he
    cases he with
    | var _ hx _ => cases h.symm.trans hx
    | func _ _ hfunction hfun => exact ⟨_, hfunction, hfun, rfl⟩
  · rintro ⟨fn, hfunction, hfun, hk⟩
    cases hk
    exact .func span h hfunction hfun

theorem elaborates_binary {lhs rhs : Expr} : Elaborates Γ (.binary lhs op rhs span) b.1 b.2 ↔
    ∃ l : Term × Shape, Elaborates Γ lhs l.1 l.2 ∧ ∃ r : Term × Shape, Elaborates Γ rhs r.1 r.2 ∧
      Shape.Binary l.2 op r.2 b.2 ∧ b.1 = .binary l.1 op r.1 := by
  obtain ⟨k, τ⟩ := b
  constructor
  · rintro ⟨⟩
    exact ⟨(_, _), by assumption, (_, _), by assumption, by assumption, rfl⟩
  · rintro ⟨l, hl, r, hr, hop, hk⟩
    cases hk
    exact .binary span hl hr hop

theorem elaborates_unary : Elaborates Γ (.unary op operand span) b.1 b.2 ↔
    ∃ v : Term × Shape, Elaborates Γ operand v.1 v.2 ∧ Shape.Unary op v.2 b.2 ∧ b.1 = .unary op v.1 := by
  obtain ⟨k, τ⟩ := b
  constructor
  · rintro ⟨⟩
    exact ⟨(_, _), by assumption, by assumption, rfl⟩
  · rintro ⟨v, hv, hop, hk⟩
    cases hk
    exact .unary span hv hop

theorem elaborates_cast {target : TypeExpr} : Elaborates Γ (.cast operand target span) b.1 b.2 ↔
    ∃ v : Term × Shape, Elaborates Γ operand v.1 v.2 ∧ ∃ ρ, Means Γ.alias? target ρ ∧ Casts Γ.alias? v.1 v.2 ρ b.1 b.2 := by
  constructor
  · intro h
    generalize b.1 = k at h
    cases h with
    | cast _ hv ht hcast => exact ⟨(_, _), hv, _, ht, hcast⟩
  · rintro ⟨v, hv, ρ, ht, hcast⟩
    exact .cast span hv ht hcast

theorem elaborates_member {base : Expr} {field : String} : Elaborates Γ (.member base field span) b.1 b.2 ↔
    ∃ v : Term × Shape, Elaborates Γ base v.1 v.2 ∧ ∃ i, Selects Γ.alias? v.2 field i b.2 ∧ b.1 = .member v.1 i := by
  obtain ⟨k, τ⟩ := b
  constructor
  · rintro ⟨⟩
    exact ⟨(_, _), by assumption, _, by assumption, rfl⟩
  · rintro ⟨v, hv, i, hi, hk⟩
    cases hk
    exact .member span hv hi

theorem elaborates_call {callee : Expr} {args : List Expr} : Elaborates Γ (.call callee args span) b.1 b.2 ↔
    ∃ v : Term × Shape, Elaborates Γ callee v.1 v.2 ∧ ∃ vs : List Term × List Shape, ElaboratesAll Γ args vs.1 vs.2 ∧
      Applies Γ.alias? v.2 vs.2 b.2 ∧ b.1 = .call v.1 vs.1 := by
  obtain ⟨k, τ⟩ := b
  constructor
  · rintro ⟨⟩
    exact ⟨(_, _), by assumption, (_, _), by assumption, by assumption, rfl⟩
  · rintro ⟨v, hv, vs, hvs, happlies, hk⟩
    cases hk
    exact .call span hv hvs happlies

theorem elaboratesAll_cons {e : Expr} {rest : List Expr} {b : List Term × List Shape} :
    ElaboratesAll Γ (e :: rest) b.1 b.2 ↔ ∃ v : Term × Shape, Elaborates Γ e v.1 v.2 ∧
      ∃ vs : List Term × List Shape, ElaboratesAll Γ rest vs.1 vs.2 ∧ b = (v.1 :: vs.1, v.2 :: vs.2) := by
  obtain ⟨ks, τs⟩ := b
  constructor
  · rintro ⟨⟩
    exact ⟨(_, _), by assumption, (_, _), by assumption, rfl⟩
  · rintro ⟨v, hv, vs, hvs, heq⟩
    cases heq
    exact .cons hv hvs

end

end BlockCompiler
