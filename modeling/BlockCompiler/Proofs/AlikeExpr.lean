/-
  BlockCompiler.Proofs.AlikeExpr — expressions checked in two runs.

  Two runs of one program meet the same expressions, with different handles. What corresponds to
  what is a `Pairing`: functions by a relation, variables and blocks by their place after a first
  one. Checking an expression in both runs gives values that differ in corresponding handles only,
  or rejects it in both with one diagnostic, up to suggestions (`lowerExpr_tallies`).

  (1) Pairings, values and diagnostics.
  (2) Steps of type checking that tally (`Tallies`): both runs go the same way, and each table only
      widens.
  (3) Annotations need no more than that the same names are declared (`resolve_tallies`).
  (4) Operators, casts, members, calls; expressions.
-/
import BlockCompiler.Proofs.Alike

namespace BlockCompiler

open Surface (Expr TypeExpr)
open TypeTable (Formed Widens Alike Congruent)

variable {v w : Value} {a b : TypeId} {vs ws : List Value} {exact : Prop} {d d' : Diagnostic}

/-! ## (1) What corresponds -/

/-- The handles have one place, counted from `a` and from `b`. -/
def Handle.Shifted {k : Kind} (a b : Nat) (x y : Handle k) : Prop := ∃ i, x.index = a + i ∧ y.index = b + i

theorem Handle.Shifted.eq_iff {k : Kind} {a b : Nat} {x y x' y' : Handle k} (h : Shifted a b x y)
    (h' : Shifted a b x' y') : x = x' ↔ y = y' := by
  obtain ⟨i, hx, hy⟩ := h
  obtain ⟨j, hx', hy'⟩ := h'
  obtain ⟨x⟩ := x
  obtain ⟨x'⟩ := x'
  obtain ⟨y⟩ := y
  obtain ⟨y'⟩ := y'
  simp only [Handle.mk.injEq] at *
  omega

theorem Handle.Shifted.eq {k : Kind} {a : Nat} {x y : Handle k} (h : Shifted a a x y) : x = y := by
  obtain ⟨i, hx, hy⟩ := h
  exact Handle.eq_of_index (hx.trans hy.symm)

/-- How two runs correspond. -/
structure Pairing where
  /-- Names are listed in one order, so that suggestions are the same as well. -/
  exact : Prop
  funs : FunId → FunId → Prop
  /-- The first variables, and the first blocks. -/
  var₁ : Nat
  var₂ : Nat
  block₁ : Nat
  block₂ : Nat
  /-- What was reported before. -/
  diags₁ : List Diagnostic
  diags₂ : List Diagnostic
  errors₁ : Nat
  errors₂ : Nat
  /-- Then functions and blocks are the same. -/
  strict : exact → block₁ = block₂ ∧ ∀ f g, funs f g → f = g

namespace Pairing

def vars (p : Pairing) (v w : VarId) : Prop := v.Shifted p.var₁ p.var₂ w

def blocks (p : Pairing) (b c : BlockId) : Prop := b.Shifted p.block₁ p.block₂ c

end Pairing

namespace Value

mutual

/-- Values that differ in related handles only. -/
inductive Like (T : TypeId → TypeId → Prop) (p : Pairing) : Value → Value → Prop
  | int (value : UInt64) {a b : TypeId} (span : Span) : T a b → Like T p (.int value a span) (.int value b span)
  | float (bits : UInt64) {a b : TypeId} (span : Span) : T a b → Like T p (.float bits a span) (.float bits b span)
  | bool (value : Bool) {a b : TypeId} (span : Span) : T a b → Like T p (.bool value a span) (.bool value b span)
  | unit {a b : TypeId} (span : Span) : T a b → Like T p (.unit a span) (.unit b span)
  | var {v w : VarId} {a b : TypeId} (span : Span) : p.vars v w → T a b → Like T p (.var v a span) (.var w b span)
  | arg (index : Nat) {a b : TypeId} (span : Span) : T a b → Like T p (.arg index a span) (.arg index b span)
  | func {f g : FunId} {a b : TypeId} (span : Span) : p.funs f g → T a b → Like T p (.func f a span) (.func g b span)
  | binary {l l' r r' : Value} (op : Operator) {a b : TypeId} (span : Span) : Like T p l l' → Like T p r r' → T a b →
      Like T p (.binary l op r a span) (.binary l' op r' b span)
  | unary (op : Operator) {v w : Value} {a b : TypeId} (span : Span) : Like T p v w → T a b →
      Like T p (.unary op v a span) (.unary op w b span)
  | cast {v w : Value} {a b : TypeId} (span : Span) : Like T p v w → T a b → Like T p (.cast v a span) (.cast w b span)
  | member {v w : Value} (field : Nat) {a b : TypeId} (span : Span) : Like T p v w → T a b →
      Like T p (.member v field a span) (.member w field b span)
  | call {v w : Value} {vs ws : List Value} {a b : TypeId} (span : Span) : Like T p v w → LikeAll T p vs ws → T a b →
      Like T p (.call v vs a span) (.call w ws b span)
  | inject (variant : VariantId) {v w : Value} {a b : TypeId} (span : Span) : Like T p v w → T a b →
      Like T p (.inject variant v a span) (.inject variant w b span)
  | project {v w : Value} (variant : VariantId) {a b : TypeId} (span : Span) : Like T p v w → T a b →
      Like T p (.project v variant a span) (.project w variant b span)

inductive LikeAll (T : TypeId → TypeId → Prop) (p : Pairing) : List Value → List Value → Prop
  | nil : LikeAll T p [] []
  | cons {v w : Value} {vs ws : List Value} : Like T p v w → LikeAll T p vs ws → LikeAll T p (v :: vs) (w :: ws)

end

variable {T T' : TypeId → TypeId → Prop} {p : Pairing}

theorem Like.ty (h : v.Like T p w) : T v.ty w.ty := by cases h <;> assumption

theorem Like.span_eq (h : v.Like T p w) : v.span = w.span := by cases h <;> rfl

mutual

theorem Like.mono (hT : ∀ a b, T a b → T' a b) : ∀ {v w : Value}, v.Like T p w → v.Like T' p w
  | _, _, .int value span h => .int value span (hT _ _ h)
  | _, _, .float bits span h => .float bits span (hT _ _ h)
  | _, _, .bool value span h => .bool value span (hT _ _ h)
  | _, _, .unit span h => .unit span (hT _ _ h)
  | _, _, .var span hv h => .var span hv (hT _ _ h)
  | _, _, .arg index span h => .arg index span (hT _ _ h)
  | _, _, .func span hf h => .func span hf (hT _ _ h)
  | _, _, .binary op span hl hr h => .binary op span (hl.mono hT) (hr.mono hT) (hT _ _ h)
  | _, _, .unary op span hv h => .unary op span (hv.mono hT) (hT _ _ h)
  | _, _, .cast span hv h => .cast span (hv.mono hT) (hT _ _ h)
  | _, _, .member field span hv h => .member field span (hv.mono hT) (hT _ _ h)
  | _, _, .call span hv hvs h => .call span (hv.mono hT) (hvs.mono hT) (hT _ _ h)
  | _, _, .inject variant span hv h => .inject variant span (hv.mono hT) (hT _ _ h)
  | _, _, .project variant span hv h => .project variant span (hv.mono hT) (hT _ _ h)

theorem LikeAll.mono (hT : ∀ a b, T a b → T' a b) : ∀ {vs ws : List Value}, LikeAll T p vs ws → LikeAll T' p vs ws
  | _, _, .nil => .nil
  | _, _, .cons h hrest => .cons (h.mono hT) (hrest.mono hT)

end

theorem LikeAll.length_eq (h : LikeAll T p vs ws) : vs.length = ws.length := by
  induction vs generalizing ws with
  | nil =>
    cases h
    rfl
  | cons v vs ih =>
    cases h with
    | cons _ hrest => rw [List.length_cons, List.length_cons, ih hrest]

end Value

namespace Diagnostic

def withoutHelp (d : Diagnostic) : Diagnostic := { d with help := [] }

/-- The diagnostics are the same, up to suggestions unless `exact` holds. -/
def Like (exact : Prop) (d d' : Diagnostic) : Prop := d.withoutHelp = d'.withoutHelp ∧ (exact → d = d')

theorem Like.refl (d : Diagnostic) : d.Like exact d := ⟨rfl, fun _ => rfl⟩

theorem Like.of_eq (h : d = d') : d.Like exact d' := h ▸ .refl d

theorem Like.isError_eq (h : d.Like exact d') : d.isError = d'.isError := by
  show d.withoutHelp.isError = d'.withoutHelp.isError
  rw [h.1]

end Diagnostic

theorem Lowering.withoutHelp_suggesting (d : Diagnostic) (lead : String) (found : Option String) :
    (suggesting d lead found).withoutHelp = d.withoutHelp := by
  unfold suggesting
  split
  · split <;> rfl
  · rfl

/-- What the names mean to an expression corresponds. -/
structure Env.Like (p : Pairing) (t₁ t₂ : TypeTable) (env₁ env₂ : Env) : Prop where
  file : env₁.file = env₂.file
  locals : ∀ name, Option.Rel p.vars (env₁.local? name) (env₂.local? name)
  vars : ∀ v w x y, p.vars v w → env₁.vars.get? v = some x → env₂.vars.get? w = some y → t₁.Alike t₂ x.ty y.ty
  functions : ∀ name, Option.Rel p.funs (env₁.function? name) (env₂.function? name)
  funs : ∀ f g x y, p.funs f g → env₁.funs.get? f = some x → env₂.funs.get? g = some y →
    x.signature.Like (t₁.Alike t₂) y.signature
  names : p.exact → env₁.names = env₂.names

/-! ## (2) Steps that tally -/

variable {α β : Type}

/-- Each table widens. -/
def Typing.Widen (st₁ st₂ st₁' st₂' : Typing) : Prop := st₁.types.Widens st₁'.types ∧ st₂.types.Widens st₂'.types

theorem Typing.Widen.trans {st1 st2 st1' st2' st1'' st2'' : Typing} (h : Widen st1 st2 st1' st2')
    (h' : Widen st1' st2' st1'' st2'') : Widen st1 st2 st1'' st2'' := ⟨h.1.trans h'.1, h.2.trans h'.2⟩

/-- Both steps give results, which are related, or both reject. -/
def Tallies (exact : Prop) (act₁ : CheckM α) (st₁ : Typing) (act₂ : CheckM β) (st₂ : Typing)
    (Q : TypeTable → TypeTable → α → β → Prop) : Prop :=
  Concurs act₁ st₁ act₂ st₂ (fun a st₁' b st₂' => Typing.Widen st₁ st₂ st₁' st₂' ∧ Q st₁'.types st₂'.types a b)
    (fun d st₁' d' st₂' => Typing.Widen st₁ st₂ st₁' st₂' ∧ d.Like exact d')

section Tallies

variable {α' β' : Type} {exact : Prop} {st1 st2 : Typing} {Q : TypeTable → TypeTable → α → β → Prop}

theorem Tallies.bind {act1 : CheckM α'} {act2 : CheckM β'} {f1 : α' → CheckM α} {f2 : β' → CheckM β}
    {Q' : TypeTable → TypeTable → α' → β' → Prop} (h : Tallies exact act1 st1 act2 st2 Q')
    (hf : ∀ a b st1' st2', st1.types.Widens st1'.types → st2.types.Widens st2'.types → Q' st1'.types st2'.types a b →
      Tallies exact (f1 a) st1' (f2 b) st2' Q) :
    Tallies exact (act1 >>= f1) st1 (act2 >>= f2) st2 Q := by
  refine Concurs.bind (Concurs.mono h (fun a st1' b st2' hr => ?_) fun _ _ _ _ hr => hr)
  obtain ⟨hw, hq⟩ := hr
  exact (hf a b st1' st2' hw.1 hw.2 hq).mono (fun _ _ _ _ hq' => ⟨hw.trans hq'.1, hq'.2⟩)
    fun _ _ _ _ hr => ⟨hw.trans hr.1, hr.2⟩

theorem tallies_settle {r1 : Except Fault α'} {r2 : Except Fault β'} {k1 : α' → CheckM α} {k2 : β' → CheckM β}
    (hk : ∀ a, r1 = .ok a → ∀ b, r2 = .ok b → Tallies exact (k1 a) st1 (k2 b) st2 Q) :
    Tallies exact (Check.settle r1 >>= k1) st1 (Check.settle r2 >>= k2) st2 Q :=
  Concurs.bind ((concurs_lift (Typing.settle r1) (Typing.settle r2)).mpr ((jointly_ofExcept r1 r2).mpr hk))

theorem tallies_note {gate1 gate2 : Log.Gate} {level : Log.Level} {area text : String} {k1 : Unit → CheckM α}
    {k2 : Unit → CheckM β} (h : ∀ st1' st2', st1'.types = st1.types → st2'.types = st2.types →
      Tallies exact (k1 ()) st1' (k2 ()) st2' Q) :
    Tallies exact (liftM (Typing.note gate1 level area text) >>= k1) st1
      (liftM (Typing.note gate2 level area text) >>= k2) st2 Q := by
  refine Concurs.bind ((concurs_lift (Typing.note _ _ _ _) (Typing.note _ _ _ _)).mpr ((jointly_modify _ _ _).mpr ?_))
  exact h _ _ rfl rfl

theorem tallies_get {f1 : Typing → CheckM α} {f2 : Typing → CheckM β} (h : Tallies exact (f1 st1) st1 (f2 st2) st2 Q) :
    Tallies exact (get >>= f1) st1 (get >>= f2) st2 Q := Concurs.bind ((concurs_get _).mpr h)

/-- A question to both tables. -/
theorem tallies_ask {f1 : TypeTable → Except Fault α'} {f2 : TypeTable → Except Fault β'} {R : α' → β' → Prop}
    (h : SameOutcome R Eq (f1 st1.types) (f2 st2.types)) {k1 : α' → CheckM α} {k2 : β' → CheckM β}
    (hk : ∀ a b, R a b → Tallies exact (k1 a) st1 (k2 b) st2 Q) :
    Tallies exact (liftM (Typing.ask f1) >>= k1) st1 (liftM (Typing.ask f2) >>= k2) st2 Q := by
  refine Concurs.bind ((concurs_lift (Typing.ask f1) (Typing.ask f2)).mpr ?_)
  simp only [Typing.ask, Typing.settle, jointly_bind, jointly_get, jointly_ofExcept]
  exact fun a ha b hb => hk a b (h.rel ha hb)

variable (hf1 : st1.types.Formed) (hf2 : st2.types.Formed)
include hf1 hf2

theorem tallies_nameOf (h : st1.types.Alike st2.types a b) {k1 : String → CheckM α} {k2 : String → CheckM β}
    (hk : ∀ name, Tallies exact (k1 name) st1 (k2 name) st2 Q) :
    Tallies exact (liftM (Typing.nameOf a) >>= k1) st1 (liftM (Typing.nameOf b) >>= k2) st2 Q :=
  tallies_ask (.of_eq (h.name_eq hf1 hf2)) fun name _ heq => heq ▸ hk name

theorem tallies_typeAt (h : st1.types.Alike st2.types a b) {k1 : Ty → CheckM α} {k2 : Ty → CheckM β}
    (hk : ∀ ty ty', ty.Like (st1.types.Alike st2.types) ty' → Tallies exact (k1 ty) st1 (k2 ty') st2 Q) :
    Tallies exact (liftM (Typing.typeAt a) >>= k1) st1 (liftM (Typing.typeAt b) >>= k2) st2 Q :=
  tallies_ask (h.get hf1 hf2) hk

theorem tallies_pure {a : α} {b : β} (h : Q st1.types st2.types a b) : Tallies exact (pure a) st1 (pure b) st2 Q :=
  (concurs_pure _ _).mpr ⟨⟨.refl hf1, .refl hf2⟩, h⟩

theorem tallies_throw (h : d.Like exact d') : Tallies exact (throw d) st1 (throw d') st2 Q :=
  (concurs_throw _ _).mpr ⟨⟨.refl hf1, .refl hf2⟩, h⟩

theorem tallies_intern {ty ty' : Ty} (h : ty.Like (st1.types.Alike st2.types) ty') (hn : ty.isNamed = false) :
    Tallies exact (liftM (Typing.intern ty)) st1 (liftM (Typing.intern ty')) st2 Alike := by
  obtain ⟨w1, w2, halike⟩ := Alike.insert hf1 hf2 h hn
  refine (concurs_lift (Typing.intern ty) (Typing.intern ty')).mpr ?_
  simpa [Jointly, Typing.intern] using ⟨⟨w1, w2⟩, halike⟩

end Tallies

/-! ## (3) Annotations -/

namespace TypeTable

/-- The same names are declared. -/
def SameNames (t₁ t₂ : TypeTable) : Prop := ∀ name, (t₁.alias? name).isSome = (t₂.alias? name).isSome

variable {t1 t2 t1' t2' : TypeTable}

theorem SameNames.widens (h : t1.SameNames t2) (w1 : t1.Widens t1') (w2 : t2.Widens t2') : t1'.SameNames t2' := by
  intro name
  rw [w1.alias?_eq, w2.alias?_eq]
  exact h name

theorem Congruent.sameNames (h : t1.Congruent t2) : t1.SameNames t2 := fun name => by rw [h.alias?_eq]

theorem Formed.isSome_findAlias? {t : TypeTable} (hf : t.Formed) (name : String) :
    (t.findAlias? name).isSome = (t.alias? name).isSome := by
  cases hfind : t.findAlias? name with
  | none => simp [alias?, hfind]
  | some id =>
    obtain ⟨u, hu⟩ := TypeTable.findAlias?_eq_some hfind
    rw [hf.alias?_eq_some.mpr ⟨id, u, hu, rfl⟩]
    rfl

theorem SameNames.findAlias? (h : t1.SameNames t2) (hf1 : t1.Formed) (hf2 : t2.Formed) (name : String) :
    Option.Rel (t1.Alike t2) (t1.findAlias? name) (t2.findAlias? name) := by
  have hsome : (t1.findAlias? name).isSome = (t2.findAlias? name).isSome := by
    rw [hf1.isSome_findAlias?, hf2.isSome_findAlias?, h name]
  cases h1 : t1.findAlias? name with
  | none =>
    rw [h1] at hsome
    rw [Option.isSome_eq_false_iff.mp hsome.symm |> Option.isNone_iff_eq_none.mp]
    exact .none
  | some id =>
    rw [h1] at hsome
    obtain ⟨id', h2⟩ := Option.isSome_iff_exists.mp hsome.symm
    obtain ⟨u, hu⟩ := TypeTable.findAlias?_eq_some h1
    obtain ⟨u', hu'⟩ := TypeTable.findAlias?_eq_some h2
    rw [h2]
    exact .some (.of_like hf1 hf2 hu hu' (.named name u u'))

theorem Alike.mem_iff (hf1 : t1.Formed) (hf2 : t2.Formed) {as bs : List TypeId} (h : List.Forall₂ (t1.Alike t2) as bs)
    (hab : t1.Alike t2 a b) : a ∈ as ↔ b ∈ bs := by
  induction h with
  | nil => simp
  | cons hxy _ ih => rw [List.mem_cons, List.mem_cons, hab.eq_iff hf1 hf2 hxy, ih]

end TypeTable

namespace Annotation

/-- Fields of the same names and alike types. -/
def FieldsAlike (t₁ t₂ : TypeTable) : List Field → List Field → Prop :=
  List.Forall₂ fun f g => f.name = g.name ∧ t₁.Alike t₂ f.ty g.ty

def ParamsAlike (t₁ t₂ : TypeTable) : List Parameter → List Parameter → Prop :=
  List.Forall₂ fun f g => f.name = g.name ∧ t₁.Alike t₂ f.ty g.ty

theorem FieldsAlike.widens {t1 t2 t1' t2' : TypeTable} (w1 : t1.Widens t1') (w2 : t2.Widens t2') {fs gs : List Field}
    (h : FieldsAlike t1 t2 fs gs) : FieldsAlike t1' t2' fs gs := h.imp fun _ _ hf => ⟨hf.1, hf.2.widens w1 w2⟩

theorem FieldsAlike.any_eq {t1 t2 : TypeTable} {fs gs : List Field} (h : FieldsAlike t1 t2 fs gs) (name : String) :
    fs.any (·.name = name) = gs.any (·.name = name) := by
  have hnames : fs.map (·.name) = gs.map (·.name) := map_eq_of_forall₂ h fun _ _ hf => hf.1
  have hany := congrArg (fun names : List String => names.any (· = name)) hnames
  simpa [List.any_map, Function.comp_def] using hany

variable {exact : Prop}

mutual

theorem resolve_tallies (file : FileId) : ∀ (ty : TypeExpr) {st1 st2 : Typing}, st1.types.Formed → st2.types.Formed →
    st1.types.SameNames st2.types → Tallies exact (resolve file ty) st1 (resolve file ty) st2 Alike
  | .int ty _, st1, st2, hf1, hf2, _ => by
    simp only [resolve]
    exact tallies_pure hf1 hf2 (.int hf1 hf2 ty)
  | .float double _, st1, st2, hf1, hf2, _ => by
    simp only [resolve]
    exact tallies_pure hf1 hf2 (.float hf1 hf2 double)
  | .bool _, st1, st2, hf1, hf2, _ => by
    simp only [resolve]
    exact tallies_pure hf1 hf2 (.bool hf1 hf2)
  | .unit _, st1, st2, hf1, hf2, _ => by
    simp only [resolve]
    exact tallies_pure hf1 hf2 (.unit hf1 hf2)
  | .ptr pointee _, st1, st2, hf1, hf2, hn => by
    simp only [resolve]
    refine (resolve_tallies file pointee hf1 hf2 hn).bind fun a b _ _ w1 w2 hab => ?_
    exact tallies_intern w1.formed w2.formed (.ptr hab) rfl
  | .array element length _, st1, st2, hf1, hf2, hn => by
    simp only [resolve]
    refine (resolve_tallies file element hf1 hf2 hn).bind fun a b _ _ w1 w2 hab => ?_
    exact tallies_intern w1.formed w2.formed (.array length hab) rfl
  | .struct fields _, st1, st2, hf1, hf2, hn => by
    simp only [resolve]
    refine (resolveFields_tallies file fields hf1 hf2 hn .nil).bind fun fs gs _ _ w1 w2 hfs => ?_
    exact tallies_intern w1.formed w2.formed (.struct hfs) rfl
  | .sum variants _, st1, st2, hf1, hf2, hn => by
    simp only [resolve]
    refine (resolveVariants_tallies file variants hf1 hf2 hn .nil).bind fun as bs _ _ w1 w2 hvs => ?_
    exact tallies_intern w1.formed w2.formed (.sum hvs) rfl
  | .func params result _, st1, st2, hf1, hf2, hn => by
    simp only [resolve]
    refine (resolve_tallies file result hf1 hf2 hn).bind fun a b _ _ w1 w2 hab => ?_
    refine (resolveParams_tallies file params w1.formed w2.formed (hn.widens w1 w2)).bind fun ps qs _ _ w1' w2' hps => ?_
    exact tallies_intern w1'.formed w2'.formed (.func ⟨hps, hab.widens w1' w2'⟩) rfl
  | .named name span, st1, st2, hf1, hf2, hn => by
    have hfind := hn.findAlias? hf1 hf2 name
    simp only [resolve]
    refine tallies_get ?_
    generalize st1.types.findAlias? name = x at hfind ⊢
    generalize st2.types.findAlias? name = y at hfind ⊢
    cases hfind with
    | some hab => exact tallies_pure hf1 hf2 hab
    | none => exact tallies_throw hf1 hf2 (.refl _)

theorem resolveFields_tallies (file : FileId) : ∀ (fields : List (TypeExpr × String)) {st1 st2 : Typing},
    st1.types.Formed → st2.types.Formed → st1.types.SameNames st2.types → ∀ {fs gs : List Field},
    FieldsAlike st1.types st2.types fs gs →
    Tallies exact (resolveFields file fs fields) st1 (resolveFields file gs fields) st2 FieldsAlike
  | [], st1, st2, hf1, hf2, _, fs, gs, hfs => by
    simp only [resolveFields]
    exact tallies_pure hf1 hf2 hfs
  | (ty, name) :: rest, st1, st2, hf1, hf2, hn, fs, gs, hfs => by
    simp only [resolveFields]
    refine (resolve_tallies file ty hf1 hf2 hn).bind fun a b _ _ w1 w2 hab => ?_
    have hfs := FieldsAlike.widens w1 w2 hfs
    rw [hfs.any_eq name]
    split
    · exact tallies_throw w1.formed w2.formed (.refl _)
    · exact resolveFields_tallies file rest w1.formed w2.formed (hn.widens w1 w2)
        (List.rel_append hfs (.cons ⟨rfl, hab⟩ .nil))

theorem resolveVariants_tallies (file : FileId) : ∀ (variants : List TypeExpr) {st1 st2 : Typing},
    st1.types.Formed → st2.types.Formed → st1.types.SameNames st2.types → ∀ {as bs : List TypeId},
    List.Forall₂ (st1.types.Alike st2.types) as bs →
    Tallies exact (resolveVariants file as variants) st1 (resolveVariants file bs variants) st2
      fun t1 t2 => List.Forall₂ (t1.Alike t2)
  | [], st1, st2, hf1, hf2, _, as, bs, hvs => by
    simp only [resolveVariants]
    exact tallies_pure hf1 hf2 hvs
  | ty :: rest, st1, st2, hf1, hf2, hn, as, bs, hvs => by
    simp only [resolveVariants]
    refine (resolve_tallies file ty hf1 hf2 hn).bind fun a b _ _ w1 w2 hab => ?_
    have hvs := hvs.imp fun _ _ => Alike.widens w1 w2
    simp only [Alike.mem_iff w1.formed w2.formed hvs hab]
    split
    · exact tallies_nameOf w1.formed w2.formed hab fun name => tallies_throw w1.formed w2.formed (.refl _)
    · exact resolveVariants_tallies file rest w1.formed w2.formed (hn.widens w1 w2) (List.rel_append hvs (.cons hab .nil))

theorem resolveParams_tallies (file : FileId) : ∀ (params : List (TypeExpr × Option String)) {st1 st2 : Typing},
    st1.types.Formed → st2.types.Formed → st1.types.SameNames st2.types →
    Tallies exact (resolveParams file params) st1 (resolveParams file params) st2 ParamsAlike
  | [], st1, st2, hf1, hf2, _ => by
    simp only [resolveParams]
    exact tallies_pure hf1 hf2 .nil
  | (ty, name) :: rest, st1, st2, hf1, hf2, hn => by
    simp only [resolveParams]
    refine (resolve_tallies file ty hf1 hf2 hn).bind fun a b _ _ w1 w2 hab => ?_
    refine (resolveParams_tallies file rest w1.formed w2.formed (hn.widens w1 w2)).bind fun ps qs _ _ w1' w2' hps => ?_
    exact tallies_pure w1'.formed w2'.formed (.cons ⟨rfl, hab.widens w1' w2'⟩ hps)

end

end Annotation

/-! ## (4) Expressions -/

namespace Lowering

/-- Values that differ in corresponding handles only, with types from two tables. -/
def ValueAlike (p : Pairing) (t₁ t₂ : TypeTable) (v w : Value) : Prop := v.Like (t₁.Alike t₂) p w

def ValuesAlike (p : Pairing) (t₁ t₂ : TypeTable) (vs ws : List Value) : Prop := Value.LikeAll (t₁.Alike t₂) p vs ws

variable {p : Pairing} {t1 t2 : TypeTable} {env1 env2 : Env} {st1 st2 : Typing}

theorem ValueAlike.widens {t1' t2' : TypeTable} (w1 : t1.Widens t1') (w2 : t2.Widens t2') (h : ValueAlike p t1 t2 v w) :
    ValueAlike p t1' t2' v w := h.mono fun _ _ => Alike.widens w1 w2

section Typed

variable (hfile : env1.file = env2.file)
include hfile

theorem typedBinary_tallies (hf1 : st1.types.Formed) (hf2 : st2.types.Formed) {l l' r r' : Value}
    (hl : ValueAlike p st1.types st2.types l l') (hr : ValueAlike p st1.types st2.types r r') (op : Operator) :
    Tallies p.exact (typedBinary env1 l op r) st1 (typedBinary env2 l' op r') st2 (ValueAlike p) := by
  unfold typedBinary binaryMismatch
  simp only [hl.span_eq, hr.span_eq, hl.ty.eq_invalid_iff hf1 hf2, hr.ty.eq_invalid_iff hf1 hf2, hfile]
  split
  · exact tallies_pure hf1 hf2 (.binary op _ hl hr (.invalid hf1 hf2))
  · refine tallies_typeAt hf1 hf2 hl.ty fun lt lt' hlt => tallies_typeAt hf1 hf2 hr.ty fun rt rt' hrt => ?_
    have hrow := Operator.binaryType?_alike hf1 hf2 hl.ty hr.ty hlt hrt op
    generalize op.binaryType? lt rt l.ty r.ty = x at hrow ⊢
    generalize op.binaryType? lt' rt' l'.ty r'.ty = y at hrow ⊢
    cases hrow with
    | some hty => exact tallies_pure hf1 hf2 (.binary op _ hl hr hty)
    | none =>
      refine tallies_nameOf hf1 hf2 hl.ty fun ln => tallies_nameOf hf1 hf2 hr.ty fun rn => tallies_note ?_
      exact fun _ _ h1 h2 => tallies_throw (h1 ▸ hf1) (h2 ▸ hf2) (.refl _)

theorem typedUnary_tallies (hf1 : st1.types.Formed) (hf2 : st2.types.Formed) (hv : ValueAlike p st1.types st2.types v w)
    (op : Operator) : Tallies p.exact (typedUnary env1 op v) st1 (typedUnary env2 op w) st2 (ValueAlike p) := by
  unfold typedUnary
  simp only [hv.span_eq, hv.ty.eq_invalid_iff hf1 hf2, hfile]
  split
  · exact tallies_pure hf1 hf2 (.unary op _ hv (.invalid hf1 hf2))
  · refine tallies_typeAt hf1 hf2 hv.ty fun ty ty' hty => ?_
    have hrow := Operator.unaryType?_alike hv.ty hty op
    generalize op.unaryType? ty v.ty = x at hrow ⊢
    generalize op.unaryType? ty' w.ty = y at hrow ⊢
    cases hrow with
    | some hrow =>
      cases hrow with
      | known hty => exact tallies_pure hf1 hf2 (.unary op _ hv hty)
      | pointer =>
        refine (tallies_intern hf1 hf2 (.ptr hv.ty) rfl).bind fun a b _ _ w1 w2 hab => ?_
        exact tallies_pure w1.formed w2.formed (.unary op _ (hv.widens w1 w2) hab)
    | none =>
      refine tallies_nameOf hf1 hf2 hv.ty fun name => tallies_note ?_
      exact fun _ _ h1 h2 => tallies_throw (h1 ▸ hf1) (h2 ▸ hf2) (.refl _)

section

variable (hc : st1.types.Congruent st2.types) (hv : ValueAlike p st1.types st2.types v w)
include hc hv

theorem typedCast_tallies (hab : st1.types.Alike st2.types a b) (span : Span) :
    Tallies p.exact (typedCast env1 v a span) st1 (typedCast env2 w b span) st2 (ValueAlike p) := by
  have hf1 := hc.left
  have hf2 := hc.right
  unfold typedCast
  simp only [hv.span_eq, hv.ty.eq_invalid_iff hf1 hf2, hfile]
  split
  · exact tallies_pure hf1 hf2 (.cast span hv (.invalid hf1 hf2))
  · refine tallies_ask (.of_eq (hc.variant?_eq hab hv.ty)) ?_
    rintro found _ rfl
    cases found with
    | some variant => exact tallies_pure hf1 hf2 (.inject variant span hv hab)
    | none =>
      refine tallies_ask (.of_eq (castAllowed_eq hc hv.ty hab)) ?_
      rintro allowed _ rfl
      split
      · exact tallies_pure hf1 hf2 (.cast span hv hab)
      · refine tallies_nameOf hf1 hf2 hv.ty fun source => tallies_nameOf hf1 hf2 hab fun goal => ?_
        exact tallies_throw hf1 hf2 (.refl _)

theorem typedMember_tallies (field : String) (span : Span) :
    Tallies p.exact (typedMember env1 v field span) st1 (typedMember env2 w field span) st2 (ValueAlike p) := by
  have hf1 := hc.left
  have hf2 := hc.right
  unfold typedMember
  simp only [hv.span_eq, hv.ty.eq_invalid_iff hf1 hf2, hfile]
  refine tallies_ask (hc.unwrapAlias hv.ty) fun a b hab => ?_
  split
  · exact tallies_pure hf1 hf2 (.member 0 span hv (.invalid hf1 hf2))
  · refine tallies_typeAt hf1 hf2 hab fun ty ty' hty => ?_
    cases hty with
    | @struct fs gs hfs =>
      have hindex : Ty.fieldIndex? fs field = Ty.fieldIndex? gs field :=
        findIdx?_eq_of_forall₂ hfs fun f g hfg => by rw [hfg.1]
      have hnames : fs.map (·.name) = gs.map (·.name) := map_eq_of_forall₂ hfs fun _ _ hfg => hfg.1
      dsimp only
      rw [hindex, hnames]
      cases Ty.fieldIndex? gs field with
      | some i =>
        have hat := getElem?_of_forall₂ hfs i
        dsimp only
        generalize fs[i]? = x at hat ⊢
        generalize gs[i]? = y at hat ⊢
        cases hat with
        | some hfg => exact tallies_pure hf1 hf2 (.member i span hv hfg.2)
        | none => exact tallies_pure hf1 hf2 (.member i span hv (.invalid hf1 hf2))
      | none => exact tallies_nameOf hf1 hf2 hv.ty fun name => tallies_throw hf1 hf2 (.refl _)
    | _ => exact tallies_nameOf hf1 hf2 hv.ty fun name => tallies_throw hf1 hf2 (.refl _)

end

omit hfile in
/-- The first argument that does not fit its parameter is the same. -/
theorem mismatch?_alike (hf1 : t1.Formed) (hf2 : t2.Formed) {ps qs : List Parameter}
    (hps : Annotation.ParamsAlike t1 t2 ps qs) (hvs : ValuesAlike p t1 t2 vs ws) :
    Option.Rel (fun x y => t1.Alike t2 x.1.ty y.1.ty ∧ ValueAlike p t1 t2 x.2 y.2) (mismatch? ps vs) (mismatch? qs ws) := by
  induction hps generalizing vs ws with
  | nil => exact .none
  | cons hpq _ ih =>
    cases hvs with
    | nil => exact .none
    | cons hv hvs =>
      simp only [mismatch?, assignable_eq hf1 hf2 hpq.2 hv.ty]
      split
      · exact ih hvs
      · exact .some ⟨hpq.2, hv⟩

theorem typedCall_tallies (hc : st1.types.Congruent st2.types) (hv : ValueAlike p st1.types st2.types v w)
    (hvs : ValuesAlike p st1.types st2.types vs ws) (span : Span) :
    Tallies p.exact (typedCall env1 v vs span) st1 (typedCall env2 w ws span) st2 (ValueAlike p) := by
  have hf1 := hc.left
  have hf2 := hc.right
  unfold typedCall
  simp only [hv.span_eq, hv.ty.eq_invalid_iff hf1 hf2, hfile, hvs.length_eq]
  split
  · exact tallies_pure hf1 hf2 (.call span hv hvs (.invalid hf1 hf2))
  · refine tallies_ask (hc.resolved hv.ty) fun ty ty' hty => ?_
    cases hty with
    | @func f g hfg =>
      dsimp only
      rw [hfg.params.length_eq]
      split
      · exact tallies_nameOf hf1 hf2 hv.ty fun name => tallies_throw hf1 hf2 (.refl _)
      · have hmismatch := mismatch?_alike hf1 hf2 hfg.params hvs
        generalize mismatch? f.params vs = x at hmismatch ⊢
        generalize mismatch? g.params ws = y at hmismatch ⊢
        cases hmismatch with
        | none => exact tallies_pure hf1 hf2 (.call span hv hvs hfg.result)
        | some hpair =>
          dsimp only
          refine tallies_nameOf hf1 hf2 hpair.1 fun expected => tallies_nameOf hf1 hf2 hpair.2.ty fun found => ?_
          rw [hpair.2.span_eq]
          exact tallies_throw hf1 hf2 (.refl _)
    | _ => exact tallies_nameOf hf1 hf2 hv.ty fun name => tallies_throw hf1 hf2 (.refl _)

end Typed

theorem access_tallies (henv : env1.Like p t1 t2 env2) (w1 : t1.Widens st1.types) (w2 : t2.Widens st2.types)
    (name : String) (span : Span) :
    Tallies p.exact (access env1 name span) st1 (access env2 name span) st2 (ValueAlike p) := by
  have hlocal := henv.locals name
  have hfunction := henv.functions name
  unfold access
  generalize env1.local? name = x at hlocal ⊢
  generalize env2.local? name = y at hlocal ⊢
  cases hlocal with
  | some hv =>
    refine tallies_settle fun x hx y hy => ?_
    have hty := henv.vars _ _ x y hv (Arena.get_eq_ok.mp hx) (Arena.get_eq_ok.mp hy)
    exact tallies_pure w1.formed w2.formed (.var span hv (hty.widens w1 w2))
  | none =>
    dsimp only
    generalize env1.function? name = x at hfunction ⊢
    generalize env2.function? name = y at hfunction ⊢
    cases hfunction with
    | some hfn =>
      refine tallies_settle fun x hx y hy => ?_
      have hsig := henv.funs _ _ x y hfn (Arena.get_eq_ok.mp hx) (Arena.get_eq_ok.mp hy)
      have hty : (Ty.func x.signature).Like (st1.types.Alike st2.types) (.func y.signature) :=
        (Ty.Like.func hsig).mono fun _ _ => Alike.widens w1 w2
      refine (tallies_intern w1.formed w2.formed hty rfl).bind fun a b _ _ w1' w2' hab => ?_
      exact tallies_pure w1'.formed w2'.formed (.func span hfn hab)
    | none =>
      refine tallies_throw w1.formed w2.formed ⟨?_, fun hexact => ?_⟩
      · rw [withoutHelp_suggesting, withoutHelp_suggesting, henv.file]
      · rw [henv.file, henv.names hexact]

mutual

/-- An expression becomes corresponding values, or it is rejected in both runs. -/
theorem lowerExpr_tallies (hc : t1.Congruent t2) (henv : env1.Like p t1 t2 env2) : ∀ (e : Expr) {st1 st2 : Typing},
    t1.Widens st1.types → t2.Widens st2.types →
    Tallies p.exact (lowerExpr env1 e) st1 (lowerExpr env2 e) st2 (ValueAlike p)
  | .int value none span, st1, st2, w1, w2 => by
    simp only [lowerExpr]
    exact tallies_pure w1.formed w2.formed (.int value span (.prim w1.formed w2.formed (i := 2) (by omega)))
  | .int value (some ty) span, st1, st2, w1, w2 => by
    simp only [lowerExpr]
    exact tallies_pure w1.formed w2.formed (.int value span (.int w1.formed w2.formed ty))
  | .float bits double span, st1, st2, w1, w2 => by
    simp only [lowerExpr]
    exact tallies_pure w1.formed w2.formed (.float bits span (.float w1.formed w2.formed double))
  | .bool value span, st1, st2, w1, w2 => by
    simp only [lowerExpr]
    exact tallies_pure w1.formed w2.formed (.bool value span (.bool w1.formed w2.formed))
  | .unit span, st1, st2, w1, w2 => by
    simp only [lowerExpr]
    exact tallies_pure w1.formed w2.formed (.unit span (.unit w1.formed w2.formed))
  | .name name span, st1, st2, w1, w2 => by
    simp only [lowerExpr]
    exact access_tallies henv w1 w2 name span
  | .binary lhs op rhs _, st1, st2, w1, w2 => by
    simp only [lowerExpr]
    refine (lowerExpr_tallies hc henv lhs w1 w2).bind fun l l' _ _ u1 u2 hl => ?_
    refine (lowerExpr_tallies hc henv rhs (w1.trans u1) (w2.trans u2)).bind fun r r' _ _ v1 v2 hr => ?_
    exact typedBinary_tallies henv.file v1.formed v2.formed (hl.widens v1 v2) hr op
  | .unary op operand _, st1, st2, w1, w2 => by
    simp only [lowerExpr]
    refine (lowerExpr_tallies hc henv operand w1 w2).bind fun v w _ _ u1 u2 hv => ?_
    exact typedUnary_tallies henv.file u1.formed u2.formed hv op
  | .cast operand target span, st1, st2, w1, w2 => by
    simp only [lowerExpr, henv.file]
    refine (lowerExpr_tallies hc henv operand w1 w2).bind fun v w _ _ u1 u2 hv => ?_
    have hc' := hc.widens (w1.trans u1) (w2.trans u2)
    refine ( Annotation.resolve_tallies _ target hc'.left hc'.right hc'.sameNames).bind fun a b _ _ v1 v2 hab => ?_
    exact typedCast_tallies henv.file (hc'.widens v1 v2) (hv.widens v1 v2) hab span
  | .member base field span, st1, st2, w1, w2 => by
    simp only [lowerExpr]
    refine (lowerExpr_tallies hc henv base w1 w2).bind fun v w _ _ u1 u2 hv => ?_
    exact typedMember_tallies henv.file (hc.widens (w1.trans u1) (w2.trans u2)) hv field span
  | .call callee args span, st1, st2, w1, w2 => by
    simp only [lowerExpr]
    refine (lowerExpr_tallies hc henv callee w1 w2).bind fun v w _ _ u1 u2 hv => ?_
    refine (lowerArgs_tallies hc henv args (w1.trans u1) (w2.trans u2)).bind fun vs ws _ _ v1 v2 hvs => ?_
    have hc' := hc.widens ((w1.trans u1).trans v1) ((w2.trans u2).trans v2)
    exact typedCall_tallies henv.file hc' (hv.widens v1 v2) hvs span

theorem lowerArgs_tallies (hc : t1.Congruent t2) (henv : env1.Like p t1 t2 env2) : ∀ (args : List Expr)
    {st1 st2 : Typing}, t1.Widens st1.types → t2.Widens st2.types →
    Tallies p.exact (lowerArgs env1 args) st1 (lowerArgs env2 args) st2 (ValuesAlike p)
  | [], st1, st2, w1, w2 => by
    simp only [lowerArgs]
    exact tallies_pure w1.formed w2.formed .nil
  | e :: rest, st1, st2, w1, w2 => by
    simp only [lowerArgs]
    refine (lowerExpr_tallies hc henv e w1 w2).bind fun v w _ _ u1 u2 hv => ?_
    refine (lowerArgs_tallies hc henv rest (w1.trans u1) (w2.trans u2)).bind fun vs ws _ _ v1 v2 hvs => ?_
    exact tallies_pure v1.formed v2.formed (.cons (hv.widens v1 v2) hvs)

end

end Lowering

end BlockCompiler
