/-
  BlockCompiler.Proofs.AlikeBody — bodies lowered in two runs.

  From corresponding states, the same statements lead to corresponding states: the same blocks are
  built, up to corresponding handles, and the same diagnostics are reported, up to suggestions.

  (1) Simple statements.
  (2) Conditions and matches.
  (3) Statements, by recursion over the syntax (`lowerStmts_parallel`).
  (4) Bodies of functions (`lowerFunBody_parallel`).
-/
import BlockCompiler.Proofs.AlikeState

namespace BlockCompiler.Lowering

open Arena (get_eq_ok)
open Surface (Stmt Expr TypeExpr Arm)
open TypeTable (Formed Widens Alike Congruent)

variable {p : Pairing} {cfg1 cfg2 : Settings} {file : FileId} {s1 s2 : State}
  {b c : BlockId} {x y : Value} {fn fn' : FunId}

/-! ## (1) Simple statements -/

theorem Parallel.returns {α α' β β' : Type} {act1 : LowerM α} {act2 : LowerM β} {Q : TypeTable → TypeTable → α → β → Prop}
    (h : Parallel p act1 s1 act2 s2 Q) {R : α' → β' → Prop} {r : α'} {r' : β'} (hr : R r r') :
    Marches p (liftM act1 >>= fun _ => pure r) s1 (liftM act2 >>= fun _ => pure r') s2 fun _ _ => R :=
  h.lift.bind fun _ _ _ _ h' _ => marches_pure h'.like hr

theorem Parallel.refuses {α β : Type} {act1 act2 : LowerM α} (h : Parallel p act1 s1 act2 s2 fun _ _ => Eq)
    {refusal : α → Diagnostic} {Q : TypeTable → TypeTable → β → β → Prop} :
    Marches p (liftM act1 >>= fun a => throw (refusal a)) s1 (liftM act2 >>= fun a => throw (refusal a)) s2 Q := by
  refine h.lift.bind ?_
  rintro a _ _ _ h' rfl
  exact marches_throw h'.like (.refl _)

section

variable (hs : s1.Like p s2)
include hs

theorem lowerExpr_marches (e : Expr) : Marches p (checked cfg1 file fun env => lowerExpr env e) s1
    (checked cfg2 file fun env => lowerExpr env e) s2 (ValueAlike p) :=
  checked_marches hs (lowerExpr_tallies hs.types (hs.env _ _ file) e (.refl hs.types.left) (.refl hs.types.right))

theorem resolve_marches (ty : TypeExpr) : Marches p (checked cfg1 file fun env => Annotation.resolve env.file ty) s1
    (checked cfg2 file fun env => Annotation.resolve env.file ty) s2 Alike :=
  checked_marches hs ( Annotation.resolve_tallies file ty hs.types.left hs.types.right hs.types.sameNames)

theorem mismatch_parallel {a b a' b' : TypeId} (hab : s1.types.Alike s2.types a b)
    (hab' : s1.types.Alike s2.types a' b') (span : Span) (what : String) :
    Parallel p (mismatch file span what a a') s1 (mismatch file span what b b') s2 fun _ _ => Eq := by
  unfold mismatch
  refine (parallel_typeName hs hab).bind ?_
  rintro expected _ _ _ h rfl
  refine (parallel_typeName h.like (h.alike hab')).bind ?_
  rintro found _ _ _ h' rfl
  exact parallel_pure h'.like rfl

/-- A type and an initial value, if there is one. -/
def InitAlike (p : Pairing) (t₁ t₂ : TypeTable) (x y : TypeId × Option Value) : Prop :=
  t₁.Alike t₂ x.1 y.1 ∧ Option.Rel (ValueAlike p t₁ t₂) x.2 y.2

theorem letValue_marches (name : String) (ty : Option TypeExpr) (init : Option Expr) (span : Span) :
    Marches p (letValue cfg1 file name ty init span) s1 (letValue cfg2 file name ty init span) s2 (InitAlike p) := by
  unfold letValue
  cases ty with
  | none =>
    cases init with
    | none =>
      simp only [pure_bind]
      exact marches_throw hs (.refl _)
    | some e =>
      simp only [pure_bind, bind_map_left]
      refine (lowerExpr_marches hs e).bind fun v w _ _ h hv => ?_
      exact marches_pure h.like ⟨hv.ty, .some hv⟩
  | some ty =>
    cases init with
    | none =>
      simp only [pure_bind, bind_map_left]
      refine (resolve_marches hs ty).bind fun a b _ _ h hab => ?_
      exact marches_pure h.like ⟨hab, .none⟩
    | some e =>
      simp only [bind_map_left]
      refine (resolve_marches hs ty).bind fun a b _ _ h hab => (lowerExpr_marches h.like e).bind fun v w _ _ h' hv => ?_
      have hab := h'.alike hab
      rw [assignable_eq h'.types.left h'.types.right hab hv.ty, hv.span_eq]
      split
      · exact marches_pure h'.like ⟨hab, .some hv⟩
      · exact (mismatch_parallel h'.like hab hv.ty _ _).refuses

theorem poison_parallel (name : String) : Parallel p (poison name) s1 (poison name) s2 fun _ _ _ _ => True := by
  unfold poison
  refine (parallel_newVar hs (.invalid hs.types.left hs.types.right) name).bind fun v w _ _ h hvw => ?_
  exact parallel_bindName h.like hvw name

theorem lowerLet_marches (name : String) (ty : Option TypeExpr) (init : Option Expr) (span : Span)
    (hbc : p.blocks b c) :
    Marches p (lowerLet cfg1 file name ty init span b) s1 (lowerLet cfg2 file name ty init span c) s2
      fun _ _ => Option.Rel p.blocks := by
  unfold lowerLet
  refine (letValue_marches hs name ty init span).run.lift.bind fun r r' _ _ h hr => ?_
  cases hr with
  | error hd =>
    refine (poison_parallel h.like name).lift.bind fun _ _ _ _ h' _ => ?_
    exact marches_throw h'.like hd
  | @ok x y hinit =>
    obtain ⟨a, x⟩ := x
    obtain ⟨a', y⟩ := y
    obtain ⟨hab, hxy⟩ : _ ∧ Option.Rel _ x y := hinit
    refine (parallel_newVar h.like hab name).lift.bind fun v w _ _ h1 hvw => ?_
    refine (parallel_emit h1.like hbc (.live hvw)).lift.bind fun _ _ _ _ h2 _ => ?_
    cases hxy with
    | none =>
      exact (parallel_bindName h2.like hvw name).returns (.some hbc)
    | some he =>
      refine (parallel_emit h2.like hbc (.store hvw (h2.value (h1.value he)))).lift.bind fun _ _ _ _ h3 _ => ?_
      exact (parallel_bindName h3.like hvw name).returns (.some hbc)

theorem lowerAssign_marches (name : String) (nameSpan : Span) (value : Expr) (hbc : p.blocks b c) :
    Marches p (lowerAssign cfg1 file name nameSpan value b) s1 (lowerAssign cfg2 file name nameSpan value c) s2
      fun _ _ => Option.Rel p.blocks := by
  unfold lowerAssign
  refine (parallel_lookup? hs name).lift.bind fun found found' _ _ h hfound => ?_
  cases hfound with
  | none => exact marches_throw h.like (.refl _)
  | some hvw =>
    refine (lowerExpr_marches h.like value).bind fun x y _ _ h1 hxy => ?_
    refine (parallel_ask h1.like (Q := fun t1 t2 => Variable.Like (t1.Alike t2)) ?_).lift.bind fun u u' _ _ h2 hu => ?_
    · exact fun u hu u' hu' => h1.vars.rel hvw (get_eq_ok.mp hu) (get_eq_ok.mp hu')
    have hxy := h2.value hxy
    rw [assignable_eq h2.types.left h2.types.right hu.ty hxy.ty, hxy.span_eq]
    split
    · exact (parallel_emit h2.like hbc (.store hvw hxy)).returns (.some hbc)
    · exact (mismatch_parallel h2.like hu.ty hxy.ty _ _).refuses

/-- A block is ended by a value, if that has the type that is wanted. -/
theorem return_marches {ret ret' : TypeId} (hret : s1.types.Alike s2.types ret ret')
    (hxy : ValueAlike p s1.types s2.types x y) (hbc : p.blocks b c) :
    Marches p (if assignable ret x.ty then (do terminate b (.ret x); return none : StmtM (Option BlockId))
        else do throw (← mismatch file x.span "return type" ret x.ty)) s1
      (if assignable ret' y.ty then (do terminate c (.ret y); return none : StmtM (Option BlockId))
        else do throw (← mismatch file y.span "return type" ret' y.ty)) s2 fun _ _ => Option.Rel p.blocks := by
  rw [assignable_eq hs.types.left hs.types.right hret hxy.ty, hxy.span_eq]
  split
  · exact (parallel_terminate hs hbc (.ret hxy)).returns .none
  · exact (mismatch_parallel hs hret hxy.ty _ _).refuses

theorem lowerReturn_marches (hfn : p.funs fn fn') (value : Option Expr) (span : Span) (hbc : p.blocks b c) :
    Marches p (lowerReturn cfg1 file fn value span b) s1 (lowerReturn cfg2 file fn' value span c) s2
      fun _ _ => Option.Rel p.blocks := by
  unfold lowerReturn
  refine (parallel_ask hs (Q := fun t1 t2 => Function.Like (t1.Alike t2) p) ?_).lift.bind fun f g _ _ h hfg => ?_
  · exact fun f hf g hg => optionRel_some (hs.funs fn fn' hfn) (get_eq_ok.mp hf) (get_eq_ok.mp hg)
  have hresult := hfg.signature.result
  cases value with
  | none =>
    simp only [pure_bind]
    exact return_marches h.like hresult (.unit span (.unit h.types.left h.types.right)) hbc
  | some e =>
    refine (lowerExpr_marches h.like e).bind fun x y _ _ h' hxy => ?_
    exact return_marches h'.like (h'.alike hresult) hxy hbc

theorem lowerEffect_marches (e : Expr) (hbc : p.blocks b c) :
    Marches p (lowerEffect cfg1 file e b) s1 (lowerEffect cfg2 file e c) s2 fun _ _ => Option.Rel p.blocks := by
  unfold lowerEffect
  refine (lowerExpr_marches hs e).bind fun x y _ _ h hxy => ?_
  refine (parallel_newVar h.like hxy.ty "_").lift.bind fun v w _ _ h1 hvw => ?_
  refine (parallel_emit h1.like hbc (.live hvw)).lift.bind fun _ _ _ _ h2 _ => ?_
  exact (parallel_emit h2.like hbc (.store hvw (h2.value (h1.value hxy)))).returns (.some hbc)

/-! ## (2) Conditions and matches -/

omit hs in
theorem isCondition_eq {R : TypeId → TypeId → Prop} {ty ty' : Ty} (h : ty.Like R ty') :
    isCondition ty = isCondition ty' := by cases h <;> rfl

/-- An expression whose type, as `find` reads it off the table, must pass a test. -/
theorem expecting_marches {find : TypeTable → TypeId → Except Fault Ty} {test : Ty → Bool}
    {refusal : Value → String → Diagnostic}
    (hfind : ∀ {t1 t2 : TypeTable} {a b : TypeId}, t1.Congruent t2 → t1.Alike t2 a b →
      SameOutcome (Ty.Like (t1.Alike t2)) Eq (find t1 a) (find t2 b))
    (htest : ∀ {R : TypeId → TypeId → Prop} {ty ty' : Ty}, ty.Like R ty' → test ty = test ty')
    (hrefusal : ∀ {x y : Value} (name : String), x.span = y.span → refusal x name = refusal y name) {e : Expr}
    {act : Settings → StmtM Value} (hact : ∀ cfg, act cfg = do
      let value ← checked cfg file fun env => lowerExpr env e
      if value.ty = .invalid then return value
      else
        let ty ← (ask (fun c => find c.types value.ty) : LowerM Ty)
        if test ty then return value
        else
          let name ← typeName value.ty
          throw (refusal value name)) :
    Marches p (act cfg1) s1 (act cfg2) s2 (ValueAlike p) := by
  rw [hact, hact]
  refine (lowerExpr_marches hs e).bind fun x y _ _ h hxy => ?_
  simp only [hxy.ty.eq_invalid_iff h.types.left h.types.right]
  split
  · exact marches_pure h.like hxy
  · refine (parallel_ask h.like (Q := fun t1 t2 => Ty.Like (t1.Alike t2)) ?_).lift.bind fun ty ty' _ _ h' hty => ?_
    · exact fun ty hty ty' hty' => (hfind h.types hxy.ty).rel hty hty'
    have hxy := h'.value hxy
    rw [htest hty]
    split
    · exact marches_pure h'.like hxy
    · refine (parallel_typeName h'.like hxy.ty).lift.bind ?_
      rintro name _ _ _ h'' rfl
      rw [hrefusal name hxy.span_eq]
      exact marches_throw h''.like (.refl _)

theorem condition_marches (construct : String) (e : Expr) :
    Marches p (condition cfg1 file construct e) s1 (condition cfg2 file construct e) s2 (ValueAlike p) :=
  expecting_marches hs (fun hc h => h.get hc.left hc.right) isCondition_eq (fun _ h => by rw [h]) fun _ => rfl

theorem armHead_marches (hxy : ValueAlike p s1.types s2.types x y) (earlier : List ArmHead)
    (ty : TypeExpr) (span : Span) :
    Marches p (armHead cfg1 file x earlier ty span) s1 (armHead cfg2 file y earlier ty span) s2 fun _ _ => Eq := by
  unfold armHead
  refine (resolve_marches hs ty).bind fun a b _ _ h hab => ?_
  refine (parallel_ask h.like (Q := fun _ _ => Eq) ?_).lift.bind ?_
  · exact fun found hfound found' hfound' =>
      (SameOutcome.of_eq (h.types.variant?_eq (h.value hxy).ty hab)).rel hfound hfound'
  rintro found _ _ _ h1 rfl
  have hab := h1.alike hab
  have hxy := h1.value (h.value hxy)
  rw [hxy.span_eq]
  cases found with
  | none =>
    refine (parallel_typeName h1.like hab).lift.bind ?_
    rintro arm _ _ _ h2 rfl
    exact (parallel_typeName h2.like (h2.value hxy).ty).refuses
  | some variant =>
    dsimp only
    cases earlier.find? (·.variant = variant) with
    | some first =>
      exact (parallel_typeName h1.like hab).refuses
    | none => exact marches_pure h1.like rfl

omit hs in
theorem armHeads_marches : ∀ (arms : List Arm) {s1 s2 : State}, s1.Like p s2 → ∀ {x y : Value},
    ValueAlike p s1.types s2.types x y → ∀ (earlier : List ArmHead),
    Marches p (armHeads cfg1 file x earlier arms) s1 (armHeads cfg2 file y earlier arms) s2 fun _ _ => Eq
  | [], s1, s2, hs, x, y, _, earlier => marches_pure hs rfl
  | arm :: rest, s1, s2, hs, x, y, hxy, earlier => by
    unfold armHeads
    refine (armHead_marches hs hxy earlier arm.variant arm.span).bind ?_
    rintro head _ _ _ h rfl
    exact armHeads_marches rest h.like (h.value hxy) _

theorem bindPayload_parallel (hbc : p.blocks b c) (hxy : ValueAlike p s1.types s2.types x y)
    (head : ArmHead) (binding : Option String) :
    Parallel p (bindPayload b x head binding) s1 (bindPayload c y head binding) s2 fun _ _ _ _ => True := by
  cases binding with
  | none => exact parallel_pure hs trivial
  | some name =>
    unfold bindPayload
    refine (parallel_ask hs (Q := Alike) ?_).bind fun ty ty' _ _ h hty => ?_
    · exact fun ty hty ty' hty' => (hs.types.variantType hxy.ty head.variant).rel hty hty'
    refine (parallel_newVar h.like hty name).bind fun v w _ _ h1 hvw => ?_
    refine (parallel_emit h1.like hbc (.live hvw)).bind fun _ _ _ _ h2 _ => ?_
    have hproject : ValueAlike p _ _ (.project x head.variant ty head.span) (.project y head.variant ty' head.span) :=
      .project head.variant head.span (h2.value (h1.value (h.value hxy))) (h2.alike (h1.alike hty))
    refine (parallel_emit h2.like hbc (.store hvw hproject)).bind fun _ _ _ _ h3 _ => ?_
    exact parallel_bindName h3.like hvw name

omit hs in
theorem joinAll_parallel {j k : BlockId} (hjk : p.blocks j k) : ∀ {ends ends' : List BlockId} {s1 s2 : State},
    s1.Like p s2 → List.Forall₂ p.blocks ends ends' →
    Parallel p (joinAll j ends) s1 (joinAll k ends') s2 fun _ _ _ _ => True
  | _, _, s1, s2, hs, .nil => parallel_pure hs trivial
  | _, _, s1, s2, hs, .cons hbc hrest => by
    unfold joinAll
    refine (parallel_terminate hs hbc (.jump hjk)).bind fun _ _ _ _ h _ => ?_
    exact joinAll_parallel hjk h.like hrest

theorem joinEnds_parallel {ends ends' : List BlockId} (hends : List.Forall₂ p.blocks ends ends') :
    Parallel p (joinEnds ends) s1 (joinEnds ends') s2 fun _ _ => Option.Rel p.blocks := by
  cases hends with
  | nil => exact parallel_pure hs .none
  | cons hbc hrest =>
    refine (parallel_newBlock hs).bind fun j k _ _ h hjk => ?_
    refine (joinAll_parallel hjk h.like (.cons hbc hrest)).bind fun _ _ _ _ h' _ => ?_
    exact parallel_pure h'.like (.some hjk)

theorem scrutinize_parallel (hxy : ValueAlike p s1.types s2.types x y) (hbc : p.blocks b c) :
    Parallel p (scrutinize x b) s1 (scrutinize y c) s2 (ValueAlike p) := by
  unfold scrutinize
  refine (parallel_newVar hs hxy.ty "match").bind fun v w _ _ h hvw => ?_
  refine (parallel_emit h.like hbc (.live hvw)).bind fun _ _ _ _ h1 _ => ?_
  have hxy := h1.value (h.value hxy)
  refine (parallel_emit h1.like hbc (.store hvw hxy)).bind fun _ _ _ _ h2 _ => ?_
  rw [hxy.span_eq]
  exact parallel_pure h2.like (.var _ hvw (h2.value hxy).ty)

theorem matchedValue_marches (e : Expr) :
    Marches p (matchedValue cfg1 file e) s1 (matchedValue cfg2 file e) s2 (ValueAlike p) :=
  expecting_marches hs Congruent.resolved Ty.Like.isSum_eq (fun _ h => by rw [h]) fun _ => rfl

end

/-! ## (3) Statements -/

/-- The targets of the variants, and the blocks where arms end. -/
def ArmsLike (p : Pairing) (x y : List (VariantId × BlockId) × List BlockId) : Prop :=
  TargetsLike p x.1 y.1 ∧ List.Forall₂ p.blocks x.2 y.2

theorem forall₂_toList {α β : Type} {R : α → β → Prop} {x : Option α} {y : Option β} (h : Option.Rel R x y) :
    List.Forall₂ R x.toList y.toList := by
  cases h with
  | some hab => exact .cons hab .nil
  | none => exact .nil

variable {fn fn' : FunId}

mutual

theorem lowerStmt_marches (hl : p.Limits cfg1 cfg2) (hfn : p.funs fn fn') : ∀ (st : Stmt) {s1 s2 : State},
    s1.Like p s2 → ∀ {b c : BlockId}, p.blocks b c →
    Marches p (lowerStmt cfg1 file fn st b) s1 (lowerStmt cfg2 file fn' st c) s2 fun _ _ => Option.Rel p.blocks
  | .letVar name ty init span, s1, s2, hs, b, c, hbc => by
    simp only [lowerStmt]
    exact lowerLet_marches hs name ty init span hbc
  | .assign name nameSpan value _, s1, s2, hs, b, c, hbc => by
    simp only [lowerStmt]
    exact lowerAssign_marches hs name nameSpan value hbc
  | .ret value span, s1, s2, hs, b, c, hbc => by
    simp only [lowerStmt]
    exact lowerReturn_marches hs hfn value span hbc
  | .expr value _, s1, s2, hs, b, c, hbc => by
    simp only [lowerStmt]
    exact lowerEffect_marches hs value hbc
  | .block body _, s1, s2, hs, b, c, hbc => by
    simp only [lowerStmt]
    exact (parallel_inScope hs fun _ _ h => lowerStmts_parallel hl hfn body h.like (.some hbc)).lift
  | .ifElse e thenBody elseBody _, s1, s2, hs, b, c, hbc => by
    rcases elseBody with _ | elseBody
    all_goals
      simp only [lowerStmt]
      refine (condition_marches hs "If" e).bind fun x y _ _ h hxy => ?_
      refine (parallel_newBlock h.like).lift.bind fun t t' _ _ h1 ht => ?_
      refine (parallel_newBlock h1.like).lift.bind fun j j' _ _ h2 hj => ?_
      refine (parallel_terminate h2.like hbc (.branch (h2.value (h1.value hxy)) ht hj)).lift.bind fun _ _ _ _ h3 _ => ?_
      refine (parallel_inScope h3.like fun _ _ h => lowerStmts_parallel hl hfn thenBody h.like (.some ht)).lift.bind
        fun e e' _ _ h4 he => ?_
    · exact (joinAll_parallel hj h4.like (forall₂_toList he)).returns (.some hj)
    · refine (parallel_inScope h4.like fun _ _ h => lowerStmts_parallel hl hfn elseBody h.like (.some hj)).lift.bind
        fun f f' _ _ h5 hf => ?_
      exact (joinEnds_parallel h5.like (List.rel_append (forall₂_toList he) (forall₂_toList hf))).lift
  | .whileLoop e body _, s1, s2, hs, b, c, hbc => by
    simp only [lowerStmt]
    refine (condition_marches hs "While" e).bind fun x y _ _ h hxy => ?_
    refine (parallel_newBlock h.like).lift.bind fun i i' _ _ h1 hi => ?_
    refine (parallel_newBlock h1.like).lift.bind fun t t' _ _ h2 ht => ?_
    refine (parallel_newBlock h2.like).lift.bind fun j j' _ _ h3 hj => ?_
    refine (parallel_terminate h3.like hbc (.jump hi)).lift.bind fun _ _ _ _ h4 _ => ?_
    have hxy := h4.value (h3.value (h2.value (h1.value hxy)))
    refine (parallel_terminate h4.like hi (.branch hxy ht hj)).lift.bind fun _ _ _ _ h5 _ => ?_
    refine (parallel_inScope h5.like fun _ _ h => lowerStmts_parallel hl hfn body h.like (.some ht)).lift.bind
      fun e e' _ _ h6 he => ?_
    exact (joinAll_parallel hi h6.like (forall₂_toList he)).returns (.some hj)
  | .matchOn e arms fallback _, s1, s2, hs, b, c, hbc => by
    rcases fallback with _ | fallback
    all_goals
      simp only [lowerStmt]
      refine (matchedValue_marches hs e).bind fun x y _ _ h hxy => ?_
      simp only [hxy.ty.eq_invalid_iff h.types.left h.types.right]
      split
      · exact marches_pure h.like (.some hbc)
      refine (armHeads_marches arms h.like hxy []).bind ?_
      rintro heads _ _ _ h1 rfl
      refine (scrutinize_parallel h1.like (h1.value hxy) hbc).lift.bind fun v w _ _ h2 hvw => ?_
    · refine (parallel_newBlock h2.like).lift.bind fun j j' _ _ h3 hj => ?_
      refine (lowerArms_parallel hl hfn arms heads h3.like (h3.value hvw)).lift.bind fun r r' _ _ h4 hr => ?_
      refine (joinAll_parallel hj h4.like hr.2).lift.bind fun _ _ _ _ h5 _ => ?_
      have hvw := h5.value (h4.value (h3.value hvw))
      exact (parallel_terminate h5.like hbc (.switch hvw hr.1 hj)).returns (.some hj)
    · refine (lowerArms_parallel hl hfn arms heads h2.like hvw).lift.bind fun r r' _ _ h3 hr => ?_
      refine (parallel_newBlock h3.like).lift.bind fun t t' _ _ h4 ht => ?_
      refine (parallel_inScope h4.like fun _ _ h => lowerStmts_parallel hl hfn fallback h.like (.some ht)).lift.bind
        fun e e' _ _ h5 he => ?_
      refine (joinEnds_parallel h5.like (List.rel_append hr.2 (forall₂_toList he))).lift.bind fun j j' _ _ h6 hj => ?_
      have hvw := h6.value (h5.value (h4.value (h3.value hvw)))
      exact (parallel_terminate h6.like hbc (.switch hvw hr.1 ht)).returns hj

theorem lowerStmts_parallel (hl : p.Limits cfg1 cfg2) (hfn : p.funs fn fn') : ∀ (body : List Stmt) {s1 s2 : State},
    s1.Like p s2 → ∀ {current current' : Option BlockId}, Option.Rel p.blocks current current' →
    Parallel p (lowerStmts cfg1 file fn body current) s1 (lowerStmts cfg2 file fn' body current') s2
      fun _ _ => Option.Rel p.blocks
  | [], s1, s2, hs, current, current', hcurrent => by
    simp only [lowerStmts]
    exact parallel_pure hs hcurrent
  | st :: rest, s1, s2, hs, current, current', hcurrent => by
    simp only [lowerStmts]
    refine (parallel_limitReached hs hl).bind ?_
    rintro atLimit _ _ _ h rfl
    split
    · exact parallel_pure h.like hcurrent
    · cases hcurrent with
      | none =>
        refine (parallel_report h.like (.refl _)).bind fun _ _ _ _ h' _ => ?_
        exact parallel_pure h'.like .none
      | some hbc =>
        refine (lowerStmt_marches hl hfn st h.like hbc).run.bind fun r r' _ _ h1 hr => ?_
        cases hr with
        | error hd =>
          refine (parallel_report h1.like hd).bind fun _ _ _ _ h2 _ => ?_
          exact lowerStmts_parallel hl hfn rest h2.like (.some hbc)
        | ok hnext => exact lowerStmts_parallel hl hfn rest h1.like hnext

theorem lowerArms_parallel (hl : p.Limits cfg1 cfg2) (hfn : p.funs fn fn') : ∀ (arms : List Arm) (heads : List ArmHead)
    {s1 s2 : State}, s1.Like p s2 →
    ∀ {x y : Value}, ValueAlike p s1.types s2.types x y →
    Parallel p (lowerArms cfg1 file fn x arms heads) s1 (lowerArms cfg2 file fn' y arms heads) s2 fun _ _ => ArmsLike p
  | [], _, s1, s2, hs, x, y, _ | _ :: _, [], s1, s2, hs, x, y, _ => by
    simp only [lowerArms]
    exact parallel_pure hs ⟨.nil, .nil⟩
  | ⟨variant, binding, body, span⟩ :: arms, head :: heads, s1, s2, hs, x, y, hxy => by
    simp only [lowerArms]
    refine (parallel_newBlock hs).bind fun b c _ _ h hbc => ?_
    have harm := parallel_inScope h.like fun _ _ hin =>
      (bindPayload_parallel hin.like hbc (hin.value (h.value hxy)) head binding).bind fun _ _ _ _ h1 _ =>
        parallel_inScope h1.like fun _ _ hin' => lowerStmts_parallel hl hfn body hin'.like (.some hbc)
    refine harm.bind fun last last' _ _ h1 hlast => ?_
    refine (lowerArms_parallel hl hfn arms heads h1.like (h1.value (h.value hxy))).bind fun r r' _ _ h2 hr => ?_
    exact parallel_pure h2.like ⟨.cons ⟨rfl, hbc⟩ hr.1, List.rel_append (forall₂_toList hlast) hr.2⟩

end

/-! ## (4) Bodies -/

theorem bindParams_parallel {b c : BlockId} (hbc : p.blocks b c) (span : Span) : ∀ {ps qs : List Parameter} (index : Nat)
    {s1 s2 : State}, s1.Like p s2 → Annotation.ParamsAlike s1.types s2.types ps qs →
    Parallel p (bindParams b span index ps) s1 (bindParams c span index qs) s2 fun _ _ _ _ => True
  | _, _, index, s1, s2, hs, .nil => parallel_pure hs trivial
  | ⟨a, name⟩ :: ps, ⟨a', name'⟩ :: qs, index, s1, s2, hs, .cons hp hrest => by
    obtain ⟨rfl, hab⟩ : name = name' ∧ s1.types.Alike s2.types a a' := hp
    cases name with
    | none =>
      simp only [bindParams]
      exact bindParams_parallel hbc span (index + 1) hs hrest
    | some name =>
      simp only [bindParams]
      refine (parallel_newVar hs hab name).bind fun v w _ _ h hvw => ?_
      refine (parallel_emit h.like hbc (.live hvw)).bind fun _ _ _ _ h1 _ => ?_
      have harg : ValueAlike p _ _ (.arg index a span) (.arg index a' span) := .arg index span (h1.alike (h.alike hab))
      refine (parallel_emit h1.like hbc (.store hvw harg)).bind fun _ _ _ _ h2 _ => ?_
      refine (parallel_bindName h2.like hvw name).bind fun _ _ _ _ h3 _ => ?_
      refine bindParams_parallel hbc span (index + 1) h3.like (hrest.imp fun _ _ hq => ⟨hq.1, ?_⟩)
      exact h3.alike (h2.alike (h1.alike (h.alike hq.2)))

theorem finishBody_parallel (hl : p.Limits cfg1 cfg2) (hs : s1.Like p s2) {f g : Function}
    (hfg : f.Like (s1.types.Alike s2.types) p g) {last last' : Option BlockId}
    (hlast : Option.Rel p.blocks last last') :
    Parallel p (finishBody cfg1 f last) s1 (finishBody cfg2 g last') s2 fun _ _ _ _ => True := by
  have hf1 := hs.types.left
  have hf2 := hs.types.right
  have hresult := hfg.signature.result
  cases hlast with
  | none => exact parallel_pure hs trivial
  | some hbc =>
    simp only [finishBody, hresult.eq_iff hf1 hf2 (.unit hf1 hf2), hfg.span, hfg.file]
    split
    · exact parallel_terminate hs hbc (.ret (.unit _ (.unit hf1 hf2)))
    · refine (parallel_limitReached hs hl).bind ?_
      rintro atLimit _ _ _ h rfl
      split
      · exact parallel_pure h.like trivial
      · refine (parallel_typeName h.like (h.alike hresult)).bind ?_
        rintro name _ _ _ h' rfl
        refine parallel_report h'.like (.of_eq ?_)
        rw [missingReturn, missingReturn, hfg.name, hfg.span]

/-- Inspecting a body only writes to the log. -/
theorem inspectBody_whenever (cfg : Settings) (fn : FunId) (s : State) :
    Whenever (inspectBody cfg fn) s fun _ s' => ∃ journal, s' = { s with journal } := by
  simp only [inspectBody, whenever_bind, whenever_ask]
  intro _ _
  split
  · simp only [whenever_bind, whenever_ask, whenever_note]
    exact fun _ _ => ⟨_, rfl⟩
  · exact (whenever_pure _).mpr ⟨s.journal, rfl⟩

/-- A function gets a body, in both runs. -/
theorem State.Like.putBody (hs : s1.Like p s2) (hfn : p.funs fn fn') {f g : Function}
    (hf : s1.funs.get? fn = some f) (hg : s2.funs.get? fn' = some g) (hbc : p.blocks b c) :
    State.Like p
      { s1 with context := { s1.context with funs := s1.funs.put fn { f with body := some ⟨b, fn⟩ } } }
      { s2 with context := { s2.context with funs := s2.funs.put fn' { g with body := some ⟨c, fn'⟩ } } } := by
  rw [Arena.put_eq_modify hf fun f => { f with body := some ⟨b, fn⟩ },
    Arena.put_eq_modify hg fun g => { g with body := some ⟨c, fn'⟩ }]
  have hput : ∀ {x y : Function} {h h' : FunId}, p.funs h h' → x.Like (s1.types.Alike s2.types) p y →
      (if h = fn then { x with body := some ⟨b, fn⟩ } else x).Like (s1.types.Alike s2.types) p
        (if h' = fn' then { y with body := some ⟨c, fn'⟩ } else y) := by
    intro x y h h' hh hxy
    -- where bodies count, the handles are the same
    have hsame : p.exact → (h = fn ↔ h' = fn') ∧ (⟨b, fn⟩ : Body) = ⟨c, fn'⟩ := fun hexact => by
      obtain ⟨hblock, hfuns⟩ := p.strict hexact
      unfold Pairing.blocks at hbc
      rw [hblock] at hbc
      rw [hfuns h h' hh, hfuns fn fn' hfn, Handle.Shifted.eq hbc]
      exact ⟨Iff.rfl, rfl⟩
    split <;> split
    · exact { hxy with body := fun hexact => congrArg some (hsame hexact).2 }
    · rename_i h1 h2
      exact { hxy with body := fun hexact => absurd ((hsame hexact).1.mp h1) h2 }
    · rename_i h1 h2
      exact { hxy with body := fun hexact => absurd ((hsame hexact).1.mpr h2) h1 }
    · exact hxy
  refine { hs with funs := fun h h' hh => ?_ }
  rw [Arena.get?_modify_eq_map, Arena.get?_modify_eq_map]
  exact optionRel_map (hs.funs h h' hh) fun x y => hput hh

/-- The body of a function, lowered in two runs. -/
theorem lowerFunBody_parallel (hl : p.Limits cfg1 cfg2) (hs : s1.Like p s2) (hfn : p.funs fn fn') (body : List Stmt) :
    Parallel p (lowerFunBody cfg1 fn body) s1 (lowerFunBody cfg2 fn' body) s2 fun _ _ _ _ => True := by
  simp only [Parallel, lowerFunBody, jointly_bind, jointly_get, jointly_ask, jointly_newBlock, jointly_setContext]
  intro f hf g hg
  have hf := get_eq_ok.mp hf
  have hg := get_eq_ok.mp hg
  have hfg := optionRel_some (hs.funs fn fn' hfn) hf hg
  have hentry := hs.blocks.next
  have hbegun := hs.addBlock.putBody hfn hf hg hentry
  have hon := hs.abreast hbegun rfl rfl
  refine Jointly.mono (parallel_inScope (Q := fun _ _ => Option.Rel p.blocks) hbegun fun _ _ h1 => ?_)
    fun last s1' last' s2' hr => ?_
  · rw [← hfg.span, ← hfg.file]
    have hparams := hfg.signature.params.imp fun _ _ hp => And.intro hp.1 (h1.alike hp.2)
    refine (bindParams_parallel hentry f.span 0 h1.like hparams).bind fun _ _ _ _ h2 _ => ?_
    exact parallel_inScope h2.like fun _ _ h => lowerStmts_parallel hl hfn body h.like (.some hentry)
  obtain ⟨h1, hlast⟩ := hr
  have hfg1 := hfg.mono fun _ _ => h1.alike
  refine Jointly.mono (finishBody_parallel hl h1.like hfg1 hlast) fun _ s1'' _ s2'' hr => ?_
  obtain ⟨h2, -⟩ := hr
  have hon := hon.trans (h1.trans h2)
  -- errors were counted in both runs alike
  have herrors : s1''.errors = s1.errors ↔ s2''.errors = s2.errors := by
    obtain ⟨n, hn1, hn2⟩ := hs.errors
    obtain ⟨m, hm1, hm2⟩ := h2.errors
    omega
  simp only [herrors]
  split
  · refine Jointly.mono (Jointly.of_whenever (inspectBody_whenever _ _ _) (inspectBody_whenever _ _ _)) ?_
    rintro _ _ _ _ ⟨⟨j1, rfl⟩, j2, rfl⟩
    exact ⟨⟨hon.journal j1 j2, hon.left, hon.right⟩, trivial⟩
  · exact (jointly_pure _ _).mpr ⟨hon, trivial⟩

end BlockCompiler.Lowering
