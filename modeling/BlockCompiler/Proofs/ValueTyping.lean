/-
  BlockCompiler.Proofs.ValueTyping — what a well-typed value is.

  (1) The operator tables and the casts as rules on types, apart from the functions that look
      them up: `Operator.Binary`, `Operator.Unary`, `Converts`; the functions agree with the
      rules (`binary_of_binaryType?`, `unary_of_unaryType?`, `converts_of_castAllowed`).
  (2) A value stands at a `Site`: the types, variables and functions that it may refer to and
      the parameters of the function around it. `Value.Typed` gives each node the type that
      its children, its variable, its function or its parameter say; no rule gives `invalid`
      (`Typed.ne_invalid`). `Value.Within` says only that all handles were issued.
  (3) Both hold on when the site is extended (`Typed.extends`, `Within.extends`).
-/
import BlockCompiler.Proofs.ByValue

namespace BlockCompiler

open List (mem_cons mem_singleton)
open TypeTable (Grows Sound StandsFor Acyclic)

variable {σ σ' : Site} {t t' : TypeTable} {n v : Value} {op : Operator} {a b r ty x : TypeId}

/-! ## (1) Operators and casts -/

namespace Operator

/-- `Binary t l op r result`: the row of the table that applies to operands of types `l` and `r`. -/
inductive Binary (t : TypeTable) : TypeId → Operator → TypeId → TypeId → Prop
  | bools {l r : TypeId} {op : Operator} : t.get? l = some .bool → t.get? r = some .bool →
      op ∈ [logicalAnd, logicalOr, logicalNot, eq] → Binary t l op r TypeId.bool
  | ints {l : TypeId} {op : Operator} {signed : Bool} {width : Nat} : t.get? l = some (.int signed width) →
      op ∈ [eq, greater, greaterEq, less, lessEq, star, div, add, sub, shiftLeft, shiftRight] → Binary t l op l l
  | floats {l : TypeId} {op : Operator} {double : Bool} : t.get? l = some (.float double) →
      op ∈ [eq, greater, greaterEq, less, lessEq, star, div, add, sub] → Binary t l op l l
  | offset {l r p : TypeId} {op : Operator} {signed : Bool} {width : Nat} : t.get? l = some (.ptr p) →
      t.get? r = some (.int signed width) → op ∈ [shiftLeft, shiftRight, add, sub] → Binary t l op r l
  | pointers {l r p q : TypeId} {op : Operator} : t.get? l = some (.ptr p) → t.get? r = some (.ptr q) →
      op ∈ [add, sub] → Binary t l op r l
  | samePointer {l r p q : TypeId} : t.get? l = some (.ptr p) → t.get? r = some (.ptr q) →
      Binary t l eq r TypeId.bool

theorem binary_of_binaryType? {l r : Ty} {lhs rhs : TypeId} (hl : t.get? lhs = some l) (hr : t.get? rhs = some r)
    (h : op.binaryType? l r lhs rhs = some ty) : Binary t lhs op rhs ty := by
  unfold binaryType? at h
  split at h
  · split at h <;> cases h
    exact .bools hl hr ‹_›
  · split at h <;> cases h
    rename_i hc
    obtain ⟨rfl, hop⟩ := hc
    exact .ints hl hop
  · split at h <;> cases h
    rename_i hc
    obtain ⟨rfl, hop⟩ := hc
    exact .floats hl hop
  · split at h <;> cases h
    exact .offset hl hr ‹_›
  · split at h
    · cases h
      exact .pointers hl hr ‹_›
    · split at h <;> cases h
      rename_i hop
      subst hop
      exact .samePointer hl hr
  · cases h

/-- `Unary t op operand result`: the operator in front of an operand. -/
inductive Unary (t : TypeTable) : Operator → TypeId → TypeId → Prop
  | deref {x p : TypeId} : t.get? x = some (.ptr p) → Unary t star x p
  | address {x r : TypeId} : t.get? r = some (.ptr x) → Unary t bitAnd x r
  | negateInt {x : TypeId} {signed : Bool} {width : Nat} : t.get? x = some (.int signed width) → Unary t sub x x
  | negateFloat {x : TypeId} {double : Bool} : t.get? x = some (.float double) → Unary t sub x x
  | complement {x : TypeId} {signed : Bool} {width : Nat} : t.get? x = some (.int signed width) → Unary t bitNot x x
  | complementPointer {x p : TypeId} : t.get? x = some (.ptr p) → Unary t bitNot x x

theorem unary_of_unaryType? {ty : Ty} (hx : t.get? x = some ty) (h : op.unaryType? ty x = some (.known r)) :
    Unary t op x r := by
  unfold unaryType? at h
  split at h <;> cases h
  · exact .deref hx
  · exact .negateInt hx
  · exact .negateFloat hx
  · exact .complement hx
  · exact .complementPointer hx

theorem eq_bitAnd_of_unaryType? {ty : Ty} (h : op.unaryType? ty x = some .pointer) : op = bitAnd := by
  unfold unaryType? at h
  split at h <;> first | rfl | cases h

end Operator

def Ty.isNumber (ty : Ty) : Bool := ty.isInt || ty.isFloat

/-- A value of the one type can become a value of the other; both are no aliases. -/
inductive Ty.Converts : Ty → Ty → Prop
  | numbers {a b : Ty} : a.isNumber = true → b.isNumber = true → Converts a b
  | boolToInt {signed : Bool} {width : Nat} : Converts .bool (.int signed width)
  | pointers {p q : TypeId} : Converts (.ptr p) (.ptr q)
  | pointerToInt {p : TypeId} {signed : Bool} {width : Nat} : Converts (.ptr p) (.int signed width)
  | intToPointer {p : TypeId} {signed : Bool} {width : Nat} : Converts (.int signed width) (.ptr p)

theorem Ty.converts_of_convertible {a b : Ty} (h : Lowering.convertible a b = true) : Ty.Converts a b := by
  unfold Lowering.convertible at h
  split at h
  iterate 4 exact .numbers rfl rfl
  · exact .boolToInt
  · exact .pointers
  · exact .pointerToInt
  · exact .intToPointer
  · cases h

/-- A cast is allowed: both types stand for the same type, or for types that convert. -/
inductive Converts (t : TypeTable) : TypeId → TypeId → Prop
  | same {a b v : TypeId} : StandsFor t a v → StandsFor t b v → Converts t a b
  | between {a b v w : TypeId} {s g : Ty} : StandsFor t a v → StandsFor t b w → t.get? v = some s →
      t.get? w = some g → Ty.Converts s g → Converts t a b

theorem Converts.grows (hg : Grows t t') (h : Converts t a b) : Converts t' a b := by
  cases h with
  | same ha hb => exact .same (ha.grows hg) (hb.grows hg)
  | between ha hb hs hgoal hc => exact .between (ha.grows hg) (hb.grows hg) (hg _ _ hs) (hg _ _ hgoal) hc

theorem castAllowed_run {v w : TypeId} {l r : Ty} (hv : t.unwrapAlias a = .ok v) (hw : t.unwrapAlias b = .ok w)
    (hl : t.get? v = some l) (hr : t.get? w = some r) :
    Lowering.castAllowed t a b = .ok (decide (v = w) || Lowering.convertible l r) := by
  unfold Lowering.castAllowed
  split
  · rename_i heq
    cases (heq ▸ hv).symm.trans hw
    simp
    rfl
  · refine bind_ok hv (bind_ok hw ?_)
    split
    · rename_i heq
      simp [heq]
      rfl
    · rename_i hne
      refine bind_ok (Interner.get_eq_ok.mpr hl) (bind_ok (Interner.get_eq_ok.mpr hr) ?_)
      simp [hne]
      rfl

theorem converts_of_castAllowed (hs : Sound t) (ha : Acyclic t) (hal : a.index < t.size) (hbl : b.index < t.size)
    (h : Lowering.castAllowed t a b = .ok true) : Converts t a b := by
  obtain ⟨v, hv, hav⟩ := hs.whole.unwrapAlias_standsFor ha hal
  obtain ⟨w, hw, hbw⟩ := hs.whole.unwrapAlias_standsFor ha hbl
  obtain ⟨s, hsv, -⟩ := hav.get?
  obtain ⟨g, hgw, -⟩ := hbw.get?
  rw [castAllowed_run hv hw hsv hgw, Except.ok.injEq, Bool.or_eq_true, decide_eq_true_eq] at h
  rcases h with rfl | h
  · exact .same hav hbw
  · exact .between hav hbw hsv hgw (Ty.converts_of_convertible h)

/-! ## (2) Sites and typed values -/

namespace Arena

variable {k : Kind} {α : Type}

theorem get_eq_ok {a : Arena k α} {h : Handle k} {x : α} : a.get h = .ok x ↔ a.get? h = some x := by
  unfold get
  cases a.get? h <;> simp

theorem get?_lt {a : Arena k α} {h : Handle k} {x : α} (hx : a.get? h = some x) : h.index < a.size := by
  by_cases hlt : h.index < a.items.size
  · exact hlt
  · simp [get?, Array.getElem?_eq_none (Nat.le_of_not_lt hlt)] at hx

theorem get?_of_lt {a : Arena k α} {h : Handle k} (hlt : h.index < a.size) : ∃ x, a.get? h = some x :=
  ⟨a.items[h.index], Array.getElem?_eq_getElem hlt⟩

end Arena

/-- What a value may refer to. -/
structure Site where
  types : TypeTable
  vars : Arena .variable Variable
  funs : Arena .function Function
  /-- The parameters of the function around the value. -/
  params : List Parameter

def Context.site (c : Context) (params : List Parameter) : Site :=
  { types := c.types, vars := c.vars, funs := c.funs, params }

def Env.site (env : Env) (types : TypeTable) (params : List Parameter) : Site :=
  { types, vars := env.vars, funs := env.funs, params }

namespace Value

/-- The rules by which a value and all its parts have their types. -/
inductive Typed (σ : Site) : Value → Prop
  | int {n : UInt64} {ty : TypeId} {span : Span} {signed : Bool} {width : Nat} :
      σ.types.get? ty = some (.int signed width) → Typed σ (.int n ty span)
  | float {bits : UInt64} {ty : TypeId} {span : Span} {double : Bool} :
      σ.types.get? ty = some (.float double) → Typed σ (.float bits ty span)
  | bool {value : Bool} {span : Span} : Typed σ (.bool value TypeId.bool span)
  | unit {span : Span} : Typed σ (.unit TypeId.unit span)
  | var {v : VarId} {var : Variable} {span : Span} : σ.vars.get? v = some var → var.ty ≠ TypeId.invalid →
      var.ty.index < σ.types.size → Typed σ (.var v var.ty span)
  | arg {i : Nat} {p : Parameter} {span : Span} : σ.params[i]? = some p → σ.types.Proper p.ty →
      Typed σ (.arg i p.ty span)
  | func {fn : FunId} {f : Function} {ty : TypeId} {span : Span} : σ.funs.get? fn = some f →
      σ.types.get? ty = some (.func f.signature) → Typed σ (.func fn ty span)
  | binary {l r : Value} {op : Operator} {ty : TypeId} {span : Span} : Typed σ l → Typed σ r →
      Operator.Binary σ.types l.ty op r.ty ty → Typed σ (.binary l op r ty span)
  | unary {v : Value} {op : Operator} {ty : TypeId} {span : Span} : Typed σ v →
      Operator.Unary σ.types op v.ty ty → Typed σ (.unary op v ty span)
  | cast {v : Value} {ty : TypeId} {span : Span} : Typed σ v → Converts σ.types v.ty ty →
      ty ≠ TypeId.invalid → Typed σ (.cast v ty span)
  | member {base : Value} {i : Nat} {s : TypeId} {fields : List Field} {field : Field} {span : Span} :
      Typed σ base → StandsFor σ.types base.ty s → σ.types.get? s = some (.struct fields) →
      fields[i]? = some field → Typed σ (.member base i field.ty span)
  | call {callee : Value} {args : List Value} {s : TypeId} {signature : Signature} {span : Span} :
      Typed σ callee → (∀ a ∈ args, Typed σ a) → StandsFor σ.types callee.ty s →
      σ.types.get? s = some (.func signature) → args.map (·.ty) = signature.params.map (·.ty) →
      Typed σ (.call callee args signature.result span)
  | inject {d : VariantId} {payload : Value} {ty s : TypeId} {variants : List TypeId} {span : Span} :
      Typed σ payload → StandsFor σ.types ty s → σ.types.get? s = some (.sum variants) →
      variants[d.index]? = some payload.ty → Typed σ (.inject d payload ty span)
  | project {sum : Value} {d : VariantId} {ty s : TypeId} {variants : List TypeId} {span : Span} :
      Typed σ sum → StandsFor σ.types sum.ty s → σ.types.get? s = some (.sum variants) →
      variants[d.index]? = some ty → Typed σ (.project sum d ty span)

mutual

/-- A value and all its parts. -/
def nodes : Value → List Value
  | .binary l op r ty span => .binary l op r ty span :: (l.nodes ++ r.nodes)
  | .unary op v ty span => .unary op v ty span :: v.nodes
  | .cast v ty span => .cast v ty span :: v.nodes
  | .member base i ty span => .member base i ty span :: base.nodes
  | .call callee args ty span => .call callee args ty span :: (callee.nodes ++ nodesOf args)
  | .inject d v ty span => .inject d v ty span :: v.nodes
  | .project v d ty span => .project v d ty span :: v.nodes
  | v => [v]

def nodesOf : List Value → List Value
  | [] => []
  | v :: rest => v.nodes ++ nodesOf rest

end

/-- The values that a value is computed from, in the order in which they are computed. -/
def parts : Value → List Value
  | .binary l _ r _ _ => [l, r]
  | .unary _ v _ _ | .cast v _ _ | .member v _ _ _ | .inject _ v _ _ | .project v _ _ _ => [v]
  | .call callee args _ _ => callee :: args
  | .int _ _ _ | .float _ _ _ | .bool _ _ _ | .unit _ _ | .var _ _ _ | .arg _ _ _ | .func _ _ _ => []

theorem nodesOf_eq (vs : List Value) : nodesOf vs = vs.flatMap nodes := by
  induction vs with
  | nil => rfl
  | cons v vs ih => rw [nodesOf, ih, List.flatMap_cons]

theorem nodes_eq (v : Value) : v.nodes = v :: v.parts.flatMap nodes := by
  cases v <;> simp [nodes, parts, nodesOf_eq]

theorem self_mem_nodes (v : Value) : v ∈ v.nodes := by cases v <;> simp [nodes]

theorem forall_nodes_iff {P : Value → Prop} : (∀ n ∈ v.nodes, P n) ↔ P v ∧ ∀ p ∈ v.parts, ∀ n ∈ p.nodes, P n := by
  rw [nodes_eq, List.forall_mem_cons, List.forall_mem_flatMap]

theorem sizeOf_part {p : Value} (h : p ∈ v.parts) : sizeOf p < sizeOf v := by
  cases v with
  | call callee args ty span =>
    rcases mem_cons.mp h with rfl | h
    · simp only [call.sizeOf_spec]
      omega
    · have := List.sizeOf_lt_of_mem h
      simp only [call.sizeOf_spec]
      omega
  | _ => grind [parts]

/-- What passes to the parts holds of all nodes. -/
theorem forall_nodes {P : Value → Prop} (hP : ∀ v, P v → ∀ p ∈ v.parts, P p) (v : Value) (h : P v) : ∀ n ∈ v.nodes, P n :=
  forall_nodes_iff.mpr ⟨h, fun p hp => forall_nodes hP p (hP v h p hp)⟩
termination_by sizeOf v
decreasing_by exact sizeOf_part hp

theorem Typed.part (h : Typed σ v) : ∀ p ∈ v.parts, Typed σ p := by
  cases h with
  | binary hl hr _ => exact List.forall_mem_cons.mpr ⟨hl, List.forall_mem_singleton.mpr hr⟩
  | call hc hargs _ _ _ => exact List.forall_mem_cons.mpr ⟨hc, hargs⟩
  | unary hv _ | cast hv _ _ | member hv _ _ _ | inject hv _ _ _ | project hv _ _ _ =>
    exact List.forall_mem_singleton.mpr hv
  | _ => exact List.forall_mem_nil _

theorem Typed.of_mem_nodes (h : Typed σ v) (hn : n ∈ v.nodes) : Typed σ n := forall_nodes (fun _ h => h.part) v h n hn

end Value

theorem Operator.Binary.proper (hs : Sound t) {l : TypeId} (h : Operator.Binary t l op r ty) : t.Proper ty := by
  cases h with
  | bools | samePointer => exact hs.proper_prim (i := 8) (by omega)
  | ints hl _ | floats hl _ | offset hl _ _ | pointers hl _ _ => exact hs.proper_of_get? hl (by simp)

theorem Operator.Unary.proper (hs : Sound t) (h : Operator.Unary t op x ty) : t.Proper ty := by
  cases h with
  | deref h => exact hs.proper_mention h rfl (.head _)
  | address h | negateInt h | negateFloat h | complement h | complementPointer h => exact hs.proper_of_get? h (by simp)

/-- What stands for a type other than `invalid` is not `invalid` itself. -/
theorem TypeTable.StandsFor.proper (hs : Sound t) {id v : TypeId} {ty : Ty} (h : StandsFor t id v)
    (hv : t.get? v = some ty) (hi : ty ≠ .invalid) : t.Proper id := by
  refine ⟨h.lt, ?_⟩
  rintro rfl
  cases h.unique (.itself hs.get?_invalid rfl)
  exact hs.ne_invalid hv hi rfl

theorem Converts.target_lt (h : Converts t a b) : b.index < t.size := by
  cases h with
  | same _ hb => exact hb.lt
  | between _ hb _ _ _ => exact hb.lt

namespace Value

theorem Typed.proper (hs : Sound σ.types) (h : Typed σ v) : σ.types.Proper v.ty := by
  cases h with
  | int h | float h | func _ h => exact hs.proper_of_get? h (by simp)
  | bool => exact hs.proper_prim (i := 8) (by omega)
  | unit => exact hs.proper_prim (i := 9) (by omega)
  | var _ hne hlt => exact ⟨hlt, hne⟩
  | arg _ hp => exact hp
  | binary _ _ hop => exact hop.proper hs
  | unary _ hop => exact hop.proper hs
  | cast _ hc hne => exact ⟨hc.target_lt, hne⟩
  | member _ _ hf hi => exact hs.proper_mention hf rfl (List.mem_map_of_mem (List.mem_of_getElem? hi))
  | call _ _ _ hf _ => exact hs.proper_mention hf rfl (.head _)
  | inject _ hst hsum _ => exact hst.proper hs hsum (by simp)
  | project _ _ hsum hd => exact hs.proper_mention hsum rfl (List.mem_of_getElem? hd)

/-- No part of a typed value has the type `invalid`. -/
theorem Typed.ne_invalid (hs : Sound σ.types) (h : Typed σ v) (hn : n ∈ v.nodes) : n.ty ≠ .invalid :=
  ((h.of_mem_nodes hn).proper hs).2

/-- The handles that a node itself mentions were issued. -/
def Issued (σ : Site) (n : Value) : Prop :=
  n.ty.index < σ.types.size ∧
    match n with
    | .var v _ _ => v.index < σ.vars.size
    | .arg i _ _ => i < σ.params.length
    | .func fn _ _ => fn.index < σ.funs.size
    | _ => True

/-- All handles in a value were issued. -/
def Within (σ : Site) (v : Value) : Prop := ∀ n ∈ v.nodes, n.Issued σ

theorem within_iff : v.Within σ ↔ v.Issued σ ∧ ∀ p ∈ v.parts, p.Within σ := forall_nodes_iff

theorem Within.part {p : Value} (h : v.Within σ) (hp : p ∈ v.parts) : p.Within σ := (within_iff.mp h).2 p hp

theorem Within.ty_lt (h : Within σ v) : v.ty.index < σ.types.size :=
  (h v v.self_mem_nodes).1

theorem Typed.within (hs : Sound σ.types) (h : Typed σ v) : Within σ v := by
  intro n hn
  have ht := h.of_mem_nodes hn
  refine ⟨(ht.proper hs).1, ?_⟩
  cases ht with
  | var hv _ _ => exact Arena.get?_lt hv
  | arg hp _ => exact (List.getElem?_eq_some_iff.mp hp).1
  | func hf _ => exact Arena.get?_lt hf
  | _ => trivial

end Value

/-! ## (3) Extending a site -/

/-- More may be referred to, and everything that was there is as it was. -/
structure Site.Extends (σ σ' : Site) : Prop where
  types : Grows σ.types σ'.types
  vars : ∀ v var, σ.vars.get? v = some var → σ'.vars.get? v = some var
  funs : ∀ fn f, σ.funs.get? fn = some f →
    ∃ f', σ'.funs.get? fn = some f' ∧ f'.name = f.name ∧ f'.signature = f.signature
  params : σ'.params = σ.params

theorem Operator.Binary.grows (hg : Grows t t') {l : TypeId} (h : Operator.Binary t l op r ty) :
    Operator.Binary t' l op r ty := by
  cases h with
  | bools hl hr hop => exact .bools (hg _ _ hl) (hg _ _ hr) hop
  | ints hl hop => exact .ints (hg _ _ hl) hop
  | floats hl hop => exact .floats (hg _ _ hl) hop
  | offset hl hr hop => exact .offset (hg _ _ hl) (hg _ _ hr) hop
  | pointers hl hr hop => exact .pointers (hg _ _ hl) (hg _ _ hr) hop
  | samePointer hl hr => exact .samePointer (hg _ _ hl) (hg _ _ hr)

theorem Operator.Unary.grows (hg : Grows t t') (h : Operator.Unary t op x ty) : Operator.Unary t' op x ty := by
  cases h with
  | deref h => exact .deref (hg _ _ h)
  | address h => exact .address (hg _ _ h)
  | negateInt h => exact .negateInt (hg _ _ h)
  | negateFloat h => exact .negateFloat (hg _ _ h)
  | complement h => exact .complement (hg _ _ h)
  | complementPointer h => exact .complementPointer (hg _ _ h)

theorem Value.Typed.extends (he : σ.Extends σ') (h : Value.Typed σ v) : Value.Typed σ' v := by
  have hg := he.types
  induction h with
  | int h => exact .int (hg _ _ h)
  | float h => exact .float (hg _ _ h)
  | bool => exact .bool
  | unit => exact .unit
  | var h hne hlt => exact .var (he.vars _ _ h) hne (Nat.lt_of_lt_of_le hlt hg.size_le)
  | arg h hp => exact .arg (he.params ▸ h) (hp.grows hg)
  | func h hty =>
    obtain ⟨f', hf', -, hsig⟩ := he.funs _ _ h
    exact .func hf' (hsig ▸ hg _ _ hty)
  | binary _ _ hop ihl ihr => exact .binary ihl ihr (hop.grows hg)
  | unary _ hop ih => exact .unary ih (hop.grows hg)
  | cast _ hc hne ih => exact .cast ih (hc.grows hg) hne
  | member _ hs hf hi ih => exact .member ih (hs.grows hg) (hg _ _ hf) hi
  | call _ _ hs hf hty ihc ihargs => exact .call ihc ihargs (hs.grows hg) (hg _ _ hf) hty
  | inject _ hs hsum hd ih => exact .inject ih (hs.grows hg) (hg _ _ hsum) hd
  | project _ hs hsum hd ih => exact .project ih (hs.grows hg) (hg _ _ hsum) hd

/-- A store in which every entry is found again is at least as large. -/
theorem Arena.size_le_of_get? {k : Kind} {α : Type} {a a' : Arena k α}
    (h : ∀ i x, a.get? i = some x → ∃ x', a'.get? i = some x') : a.size ≤ a'.size := by
  rcases Nat.eq_zero_or_pos a.size with h0 | h0
  · omega
  · obtain ⟨x, hx⟩ := get?_of_lt (a := a) (h := ⟨a.size - 1⟩) (by simp only; omega)
    obtain ⟨x', hx'⟩ := h _ _ hx
    have := get?_lt hx'
    simp only at this
    omega

namespace Site.Extends

variable {σ σ' σ'' : Site}

theorem trans (h : σ.Extends σ') (h' : σ'.Extends σ'') : σ.Extends σ'' := by
  refine ⟨h.types.trans h'.types, fun v var hv => h'.vars _ _ (h.vars _ _ hv), fun fn f hf => ?_,
    h'.params.trans h.params⟩
  obtain ⟨f1, hf1, hn1, hs1⟩ := h.funs fn f hf
  obtain ⟨f2, hf2, hn2, hs2⟩ := h'.funs fn f1 hf1
  exact ⟨f2, hf2, hn2.trans hn1, hs2.trans hs1⟩

theorem vars_size_le (h : σ.Extends σ') : σ.vars.size ≤ σ'.vars.size :=
  Arena.size_le_of_get? fun v var hv => ⟨var, h.vars v var hv⟩

theorem funs_size_le (h : σ.Extends σ') : σ.funs.size ≤ σ'.funs.size :=
  Arena.size_le_of_get? fun fn f hf => by
    obtain ⟨f', hf', -⟩ := h.funs fn f hf
    exact ⟨f', hf'⟩

end Site.Extends

theorem Value.Issued.extends (he : σ.Extends σ') (h : n.Issued σ) : n.Issued σ' := by
  refine ⟨Nat.lt_of_lt_of_le h.1 he.types.size_le, ?_⟩
  have h2 := h.2
  cases n with
  | var v ty span => exact Nat.lt_of_lt_of_le h2 he.vars_size_le
  | arg i ty span => exact he.params ▸ h2
  | func fn ty span => exact Nat.lt_of_lt_of_le h2 he.funs_size_le
  | _ => trivial

theorem Value.Within.extends (he : σ.Extends σ') (h : v.Within σ) : v.Within σ' :=
  fun n hn => (h n hn).extends he

end BlockCompiler
