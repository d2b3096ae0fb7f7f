/-
  BlockCompiler.Proofs.Poisoning — a variable that failed makes no expression fail.

  A variable that is rejected gets the type `invalid`. Whatever has this type makes `invalid` what
  is built from it, before operators, fields, arguments and casts are looked at.

  (1) In the rules: if some variables get the type `invalid`, an expression that had a type has the
      same type or `invalid` (`Elaborates.poisoned`), by induction on why it had a type.
  (2) In a context: an expression that was lowered is lowered all the same, to a value of the same
      type or of `invalid` (`poisoning_makes_no_error`). The two lowerings add different types, so
      that the types are the same up to their handles.
-/
import BlockCompiler.Proofs.Alike
import BlockCompiler.Proofs.Contexts

namespace BlockCompiler

open Surface (Expr TypeExpr)

variable {τ υ υ' : Shape} {s : State} {op : Operator} {args args' : List Shape}

/-! ## (1) In the rules -/

/-- Some variables of `Γ` have the type `invalid` in `Γ'`; nothing else is different. -/
structure Glossary.Poisons (Γ Γ' : Glossary) : Prop where
  alias? : Γ'.alias? = Γ.alias?
  local? : Γ'.local? = Γ.local?
  var? : ∀ x τ, Γ.var? x = some τ → ∃ τ', Γ'.var? x = some τ' ∧ (τ' = .invalid ∨ τ' = τ)
  function? : Γ'.function? = Γ.function?
  fun? : Γ'.fun? = Γ.fun?

namespace Shape

/-- `τ'` is what may become of the type `τ`. -/
def Poisoned (τ τ' : Shape) : Prop := τ' = .invalid ∨ τ' = τ

theorem Binary.poisoned {l r l' r' : Shape} (h : Binary l op r τ) (hl : l.Poisoned l') (hr : r.Poisoned r') :
    ∃ τ', Binary l' op r' τ' ∧ τ.Poisoned τ' := by
  rcases hl with rfl | rfl
  · exact ⟨.invalid, .left, .inl rfl⟩
  · rcases hr with rfl | rfl
    · exact ⟨.invalid, .right, .inl rfl⟩
    · exact ⟨τ, h, .inr rfl⟩

theorem Unary.poisoned (h : Unary op υ τ) (hυ : υ.Poisoned υ') : ∃ τ', Unary op υ' τ' ∧ τ.Poisoned τ' := by
  rcases hυ with rfl | rfl
  · exact ⟨.invalid, .invalid, .inl rfl⟩
  · exact ⟨τ, h, .inr rfl⟩

theorem Fits.poisoned {param arg arg' : Shape} (h : param.Fits arg) (ha : arg.Poisoned arg') : param.Fits arg' := by
  rcases ha with rfl | rfl
  · exact .inr (.inr rfl)
  · exact h

theorem fits_poisoned {params : List Shape} (h : List.Forall₂ Fits params args)
    (ha : List.Forall₂ Poisoned args args') : List.Forall₂ Fits params args' := by
  induction h generalizing args' with
  | nil =>
    cases ha
    exact .nil
  | cons hfit _ ih =>
    cases ha with
    | cons harg hrest => exact .cons (hfit.poisoned harg) (ih hrest)

end Shape

section

variable {alias? : String → Option Shape}

/-- A cast does not depend on the term that it is applied to. -/
theorem Casts.poisoned {k k1 : Term} {ρ : Shape} (h : Casts alias? k υ ρ k1 τ) (hυ : υ.Poisoned υ') (k' : Term) :
    ∃ k1' τ', Casts alias? k' υ' ρ k1' τ' ∧ τ.Poisoned τ' := by
  rcases hυ with rfl | rfl
  · exact ⟨_, _, .invalid, .inl rfl⟩
  · cases h with
    | invalid => exact ⟨_, _, .invalid, .inl rfl⟩
    | variant hne hsum hat => exact ⟨_, _, .variant hne hsum hat, .inr rfl⟩
    | convert hne hsum hυ hρ hconverts => exact ⟨_, _, .convert hne hsum hυ hρ hconverts, .inr rfl⟩

theorem Selects.poisoned {field : String} {i : Nat} (h : Selects alias? υ field i τ) (hυ : υ.Poisoned υ') :
    ∃ i' τ', Selects alias? υ' field i' τ' ∧ τ.Poisoned τ' := by
  rcases hυ with rfl | rfl
  · exact ⟨0, .invalid, .invalid, .inl rfl⟩
  · exact ⟨i, τ, h, .inr rfl⟩

theorem Applies.poisoned (h : Applies alias? υ args τ) (hυ : υ.Poisoned υ')
    (ha : List.Forall₂ Shape.Poisoned args args') : ∃ τ', Applies alias? υ' args' τ' ∧ τ.Poisoned τ' := by
  rcases hυ with rfl | rfl
  · exact ⟨.invalid, .invalid, .inl rfl⟩
  · cases h with
    | invalid => exact ⟨.invalid, .invalid, .inl rfl⟩
    | func hfunc hfits => exact ⟨τ, .func hfunc (Shape.fits_poisoned hfits ha), .inr rfl⟩

end

section

set_option linter.unusedSectionVars false

variable {Γ Γ' : Glossary} (hp : Γ.Poisons Γ')
include hp

mutual

theorem Elaborates.poisoned : ∀ {e : Expr} {k : Term} {τ : Shape}, Elaborates Γ e k τ →
    ∃ k' τ', Elaborates Γ' e k' τ' ∧ τ.Poisoned τ'
  | _, _, _, .int value span => ⟨_, _, .int value span, .inr rfl⟩
  | _, _, _, .suffixed value ty span => ⟨_, _, .suffixed value ty span, .inr rfl⟩
  | _, _, _, .float bits double span => ⟨_, _, .float bits double span, .inr rfl⟩
  | _, _, _, .bool value span => ⟨_, _, .bool value span, .inr rfl⟩
  | _, _, _, .unit span => ⟨_, _, .unit span, .inr rfl⟩
  | _, _, _, .var span hx hvar => by
    obtain ⟨τ', hvar', hτ⟩ := hp.var? _ _ hvar
    exact ⟨_, τ', .var span (hp.local? ▸ hx) hvar', hτ⟩
  | _, _, _, .func span hnone hfn hty =>
    ⟨_, _, .func span (hp.local? ▸ hnone) (hp.function? ▸ hfn) (hp.fun? ▸ hty), .inr rfl⟩
  | _, _, _, .binary span hl hr hop => by
    obtain ⟨kl, l', hl', hlτ⟩ := hl.poisoned
    obtain ⟨kr, r', hr', hrτ⟩ := hr.poisoned
    obtain ⟨τ', hop', hτ⟩ := hop.poisoned hlτ hrτ
    exact ⟨_, τ', .binary span hl' hr' hop', hτ⟩
  | _, _, _, .unary span h hop => by
    obtain ⟨k', υ', h', hυ⟩ := h.poisoned
    obtain ⟨τ', hop', hτ⟩ := hop.poisoned hυ
    exact ⟨_, τ', .unary span h' hop', hτ⟩
  | _, _, _, .cast span h hmeans hcast => by
    obtain ⟨k', υ', h', hυ⟩ := h.poisoned
    obtain ⟨k1', τ', hcast', hτ⟩ := hcast.poisoned hυ k'
    exact ⟨k1', τ', .cast span h' (hp.alias? ▸ hmeans) (hp.alias? ▸ hcast'), hτ⟩
  | _, _, _, .member span h hselects => by
    obtain ⟨k', υ', h', hυ⟩ := h.poisoned
    obtain ⟨i', τ', hselects', hτ⟩ := hselects.poisoned hυ
    exact ⟨_, τ', .member span h' (hp.alias? ▸ hselects'), hτ⟩
  | _, _, _, .call span h hargs happlies => by
    obtain ⟨k', υ', h', hυ⟩ := h.poisoned
    obtain ⟨ks', τs', hargs', hτs⟩ := hargs.poisoned
    obtain ⟨τ', happlies', hτ⟩ := happlies.poisoned hυ hτs
    exact ⟨_, τ', .call span h' hargs' (hp.alias? ▸ happlies'), hτ⟩

theorem ElaboratesAll.poisoned : ∀ {es : List Expr} {ks : List Term} {τs : List Shape}, ElaboratesAll Γ es ks τs →
    ∃ ks' τs', ElaboratesAll Γ' es ks' τs' ∧ List.Forall₂ Shape.Poisoned τs τs'
  | _, _, _, .nil => ⟨[], [], .nil, .nil⟩
  | _, _, _, .cons h hrest => by
    obtain ⟨k', τ', h', hτ⟩ := h.poisoned
    obtain ⟨ks', τs', hrest', hτs⟩ := hrest.poisoned
    exact ⟨k' :: ks', τ' :: τs', .cons h' hrest', .cons hτ hτs⟩

end

end

/-! ## (2) In a context -/

namespace Lowering

/-- The variables of the set have got the type `invalid`. -/
def State.spoiled (s : State) (spoils : VarId → Bool) : State :=
  let vars := s.vars.items.mapIdx fun i v => if spoils ⟨i⟩ then { v with ty := TypeId.invalid } else v
  { s with context := { s.context with vars := ⟨vars⟩ } }

theorem get?_spoiled (s : State) (spoils : VarId → Bool) (x : VarId) : (s.spoiled spoils).vars.get? x =
    (s.vars.get? x).map fun v => if spoils x then { v with ty := .invalid } else v := by
  simp [State.spoiled, Arena.get?]

theorem poisons_spoiled (hf : s.types.Formed) (spoils : VarId → Bool) (gate : Log.Gate) (file : FileId) :
    ((s.env gate file).glossary s.types).Poisons
      (((s.spoiled spoils).env gate file).glossary s.types) := by
  refine ⟨rfl, rfl, fun x τ hx => ?_, rfl, rfl⟩
  obtain ⟨v, hv, rfl⟩ := Option.map_eq_some_iff.mp hx
  have hv : s.vars.get? x = some v := hv
  cases hspoils : spoils x with
  | true =>
    refine ⟨.invalid, ?_, .inl rfl⟩
    simp [Env.glossary, State.env, get?_spoiled, hv, hspoils, hf.shape_invalid]
  | false =>
    refine ⟨s.types.shape v.ty, ?_, .inr rfl⟩
    simp [Env.glossary, State.env, get?_spoiled, hv, hspoils]

theorem founded_spoiled (hc : s.context.Founded) (spoils : VarId → Bool) : (s.spoiled spoils).context.Founded := by
  refine ⟨hc.formed, fun x v hv => ?_, hc.funs⟩
  rw [get?_spoiled] at hv
  obtain ⟨w, hw, rfl⟩ := Option.map_eq_some_iff.mp hv
  split
  · exact hc.formed.prim_lt (i := 12) (by omega)
  · exact hc.vars x w hw

theorem checking_eq_ok {α : Type} {cfg : Settings} {file : FileId} {act : Env → CheckM α} {s' : State}
    {r : Except Diagnostic α} : checking cfg file act s = .ok r s' ↔
      ∃ st, (act (s.env cfg.gate file)).run s.typing = .ok r st ∧ s' = s.withTyping st := by
  have hrun : checking cfg file act s = onTyping (act (s.env cfg.gate file)).run s := rfl
  rw [hrun, onTyping]
  cases (act (s.env cfg.gate file)).run s.typing with
  | ok r st => simp [eq_comm]
  | error f st => simp

/-- If an expression is lowered, it is lowered as well when any variables have got the type
`invalid`, and then its type is `invalid` or the same type. -/
theorem poisoning_makes_no_error {s s₁ : State} {v : Value} (hc : s.context.Founded) (cfg : Settings) (file : FileId)
    (e : Expr) (h : checking cfg file (fun env => lowerExpr env e) s = .ok (.ok v) s₁) (spoils : VarId → Bool) :
    ∃ v' s₁', checking cfg file (fun env => lowerExpr env e) (s.spoiled spoils) = .ok (.ok v') s₁' ∧
      (v'.ty = TypeId.invalid ∨ s₁.context.types.Alike s₁'.context.types v.ty v'.ty) := by
  have hc' := founded_spoiled hc spoils
  have hsettles : ∀ {s : State}, s.context.Founded → Settles Value.Reads (lowerExpr (s.env cfg.gate file) e) s.typing
      fun b => Elaborates ((s.env cfg.gate file).glossary s.types) e b.1 b.2 := fun hc =>
    lowerExpr_settles ⟨hc.vars, hc.funs⟩ e (TypeTable.Widens.refl hc.formed)
  obtain ⟨st, hrun, rfl⟩ := checking_eq_ok.mp h
  obtain ⟨-, b, ⟨-, hnames⟩, honly⟩ := (hsettles hc).result hrun
  -- the rules give the expression a type without the variables as well
  obtain ⟨k', τ', helab, hτ⟩ := ((honly b).mpr rfl).poisoned (poisons_spoiled hc.formed spoils cfg.gate file)
  obtain ⟨v', st', hrun'⟩ := (hsettles hc').exists_result fun hnone => hnone (k', τ') helab
  refine ⟨v', _, checking_eq_ok.mpr ⟨st', hrun', rfl⟩, ?_⟩
  obtain ⟨hwidens', b', ⟨-, hnames'⟩, honly'⟩ := (hsettles hc').result hrun'
  cases (honly' (k', τ')).mp helab
  rcases hτ with rfl | rfl
  · exact .inl (hwidens'.formed.shape_inj hnames'.1 (hwidens'.formed.prim_lt (i := 12) (by omega))
      (hnames'.2.trans hwidens'.formed.shape_invalid.symm))
  · exact .inr ⟨_, hnames, hnames'⟩

/-- `f(x as S)`, where `x` has got the type `invalid`. -/
theorem sampleCall_poisoned : sampleScope.context.Founded ∧
    ∃ v s₁, checking {} 0 (fun env => lowerExpr env sampleCall) sampleScope = .ok (.ok v) s₁ ∧
      ∃ v' s₁', checking {} 0 (fun env => lowerExpr env sampleCall) (sampleScope.spoiled fun _ => true) =
        .ok (.ok v') s₁' ∧ (v'.ty = TypeId.invalid ∨ s₁.context.types.Alike s₁'.context.types v.ty v'.ty) := by
  have hc : sampleScope.context.Founded := (Context.reached_after _).founded
  have hends : Ends (checking {} 0 fun env => lowerExpr env sampleCall) sampleScope fun r _ => r.isOk = true := by
    decide +kernel
  obtain ⟨r, s₁, hrun, hok⟩ := hends
  cases r with
  | error d => cases hok
  | ok v => exact ⟨hc, v, s₁, hrun, poisoning_makes_no_error hc {} 0 sampleCall hrun fun _ => true⟩

end Lowering

end BlockCompiler
