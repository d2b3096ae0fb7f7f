/-
  BlockCompiler.Proofs.ErrorLimit — lowering with a limit on errors.

  A run with a limit and one without go together until the limit is reached. From there on
  the first one reports nothing, while the other one only adds to what both have reported.
  The limit is looked at before each statement, at the end of a body and before each body;
  it is never looked at between declarations.

  (1) `Limited`: what a step with a limit and the same step without one have to do with each
      other. It follows the structure of steps (`Limited.bind`), and comes in where the limit is
      looked at (`Limited.poll`).
  (2) Statements, bodies and lists of bodies are limited (`limited_lowerStmts`,
      `limited_lowerFunBody`, `limited_lowerBodies`).
  (3) So the diagnostics of a module with a limit are the first ones of those without
      (`lowerModule_prefix`). Its errors may be more than the limit: those of the declarations
      are all there (`lowerModule_errors_eq`).
-/
import BlockCompiler.Proofs.Module
import BlockCompiler.Proofs.Reporting
import BlockCompiler.Proofs.TwoRuns

namespace BlockCompiler

open Surface (Expr TypeExpr Stmt Arm TypeDef FunDecl Module)

/-- The same settings without a limit on errors. -/
def Settings.unlimited (cfg : Settings) : Settings := { cfg with maxErrors := 0 }

namespace Lowering

/-! ## (1) Limited steps -/

/-- How a run with a limit, which comes first, compares to one without: both are the same, or
the first one has reached the limit with a part of the diagnostics. -/
def Trimmed {α : Type} (cfg : Settings) (a : α) (s₁ : State) (b : α) (s₂ : State) : Prop :=
  a = b ∧ s₁ = s₂ ∨ s₁.AtLimit cfg ∧ s₁.diags.toList <+: s₂.diags.toList

/-- No error was reported beyond the limit, and at the limit nothing was. -/
structure Bounded (cfg : Settings) (s s' : State) : Prop where
  quiet : s.AtLimit cfg → s.Quiet s'
  errors : cfg.maxErrors ≠ 0 → s'.errors ≤ max s.errors cfg.maxErrors

/-- The step `act` stops at the limit where `act₀`, which is the same step without a limit, goes
on. The states in which they start together satisfy `I`. -/
structure Limited {α : Type} (P : Diagnostic → Prop) (cfg : Settings) (I : State → Prop) (act act₀ : LowerM α) :
    Prop where
  trims : ∀ s, I s → Jointly act s act₀ s (Trimmed cfg)
  bounded : ∀ s, I s → Whenever act s fun _ s' => Bounded cfg s s'
  tells : ∀ s, Whenever act₀ s fun _ s' => s.Tells P s'

/-- There is room for another error. -/
def State.Below (cfg : Settings) (s : State) : Prop := ¬ s.AtLimit cfg

section

variable {α β : Type} {P P' : Diagnostic → Prop} {cfg : Settings} {I J : State → Prop} {s s' s'' s1 s2 : State}
  {file : FileId}

theorem State.Quiet.bounded (h : s.Quiet s') : Bounded cfg s s' :=
  ⟨fun _ => h, fun _ => h.errors ▸ Nat.le_max_left _ _⟩

theorem Bounded.trans (h : Bounded cfg s s') (h' : Bounded cfg s' s'') : Bounded cfg s s'' := by
  refine ⟨fun hat => ?_, fun hmax => ?_⟩
  · have hquiet := h.quiet hat
    exact hquiet.trans (h'.quiet (hquiet.atLimit.mpr hat))
  · have h1 := h.errors hmax
    have h2 := h'.errors hmax
    omega

/-- At the limit one run stands still, and the other one only adds diagnostics. -/
theorem jointly_atLimit {act1 act2 : LowerM α} (hat : s1.AtLimit cfg) (hpre : s1.diags.toList <+: s2.diags.toList)
    (h1 : Whenever act1 s1 fun _ s' => Bounded cfg s1 s') (h2 : Whenever act2 s2 fun _ s' => s2.Tells P s') :
    Jointly act1 s1 act2 s2 (Trimmed cfg) := by
  refine (Jointly.of_whenever h1 h2).mono fun a s b t h => Or.inr ?_
  obtain ⟨hbounded, htells⟩ := h
  have hquiet := hbounded.quiet hat
  refine ⟨hquiet.atLimit.mpr hat, ?_⟩
  rw [hquiet.diags]
  exact hpre.trans htells.isPrefix

theorem jointly_same (act : LowerM α) (s : State) : Jointly act s act s (Trimmed cfg) := by
  intro a s1 h1 b s2 h2
  rw [h1] at h2
  cases h2
  exact Or.inl ⟨rfl, rfl⟩

namespace Limited

variable {act act0 : LowerM α} {f f0 : α → LowerM β}

theorem of_silent (h : Silent act) : Limited P cfg I act act :=
  ⟨fun s _ => jointly_same act s, fun s _ => (h.whenever s).mono fun _ _ hq => hq.bounded,
    fun s => (h.whenever s).mono fun _ _ hq => hq.tells⟩

theorem mono (h : Limited P cfg Any act act0) (hP : ∀ d, P d → P' d) : Limited P' cfg I act act0 :=
  ⟨fun s _ => h.trims s trivial, fun s _ => h.bounded s trivial, fun s => (h.tells s).mono fun _ _ ht => ht.mono hP⟩

theorem andThen (h : Limited P cfg I act act0) (hJ : ∀ s, I s → Whenever act s fun _ s' => J s')
    (hf : ∀ a, Limited P cfg J (f a) (f0 a)) : Limited P cfg I (act >>= f) (act0 >>= f0) := by
  refine ⟨fun s hs => ?_, fun s hs => ?_, fun s => ?_⟩
  · rw [jointly_bind]
    intro a s1 h1 b s2 h2
    have hs1 := hJ s hs a s1 h1
    rcases (h.trims s hs).result h1 h2 with ⟨rfl, rfl⟩ | ⟨hat, hpre⟩
    · exact (hf a).trims s1 hs1
    · exact jointly_atLimit hat hpre ((hf a).bounded s1 hs1) ((hf b).tells s2)
  · rw [whenever_bind]
    intro a s1 h1
    have hbounded := h.bounded s hs a s1 h1
    exact ((hf a).bounded s1 (hJ s hs a s1 h1)).mono fun _ _ h2 => hbounded.trans h2
  · rw [whenever_bind]
    exact (h.tells s).mono fun a s1 h1 => ((hf a).tells s1).mono fun _ _ h2 => h1.trans h2

theorem bind (h : Limited P cfg I act act0) (hf : ∀ a, Limited P cfg Any (f a) (f0 a)) :
    Limited P cfg I (act >>= f) (act0 >>= f0) :=
  h.andThen (fun _ _ _ _ _ => trivial) hf

theorem inScope (h : Limited P cfg Any act act0) : Limited P cfg I (inScope act) (inScope act0) :=
  (of_silent fun _ => keeps_pushScope).bind fun _ => h.bind fun _ => (of_silent fun _ => keeps_popScope).bind fun _ =>
    of_silent fun _ => keeps_pure trivial

/-- After a silent step there is still room. -/
theorem after (h : Silent act) (hf : ∀ a, Limited P cfg (State.Below cfg) (f a) (f0 a)) :
    Limited P cfg (State.Below cfg) (act >>= f) (act >>= f0) :=
  (of_silent h).andThen (fun s hs => (h.whenever s).mono fun _ _ hq hat => hs (hq.atLimit.mp hat)) hf

/-- The limit is looked at: what follows is done only if there is room. -/
theorem poll {stop stop0 : LowerM α} (hstop : Silent stop) (h : Limited P cfg (State.Below cfg) act act0) :
    Limited P cfg I (do if ← limitReached cfg then stop else act)
      (do if ← limitReached cfg.unlimited then stop0 else act0) := by
  have hfree : ∀ s : State, ¬ s.AtLimit cfg.unlimited := fun s hat => hat.1 rfl
  refine ⟨fun s _ => ?_, fun s _ => ?_, fun s => ?_⟩
  · simp only [Jointly, whenever_bind, whenever_limitReached, hfree, decide_false, Bool.false_eq_true, if_false]
    by_cases hat : s.AtLimit cfg
    · rw [if_pos (decide_eq_true hat)]
      exact jointly_atLimit hat (List.prefix_refl _) ((hstop.whenever s).mono fun _ _ hq => hq.bounded) (h.tells s)
    · rw [if_neg (by simpa using hat)]
      exact h.trims s hat
  · rw [whenever_bind, whenever_limitReached]
    by_cases hat : s.AtLimit cfg
    · rw [if_pos (decide_eq_true hat)]
      exact (hstop.whenever s).mono fun _ _ hq => hq.bounded
    · rw [if_neg (by simpa using hat)]
      exact h.bounded s hat
  · simp only [whenever_bind, whenever_limitReached, hfree, decide_false, Bool.false_eq_true, if_false]
    exact h.tells s

end Limited

/-- Where there is room, one more error may be reported. -/
theorem limited_report {d : Diagnostic} (hd : P d) :
    Limited P cfg (State.Below cfg) (report cfg d) (report cfg.unlimited d) := by
  refine ⟨fun s _ => jointly_same _ s, fun s hs => ?_, fun s => ?_⟩
  · rw [whenever_report]
    refine ⟨fun hat => absurd hat hs, fun hmax => ?_⟩
    have hlt : s.errors < cfg.maxErrors := Nat.lt_of_not_le fun hle => hs ⟨hmax, hle⟩
    have hone : (s.reported cfg d).errors ≤ s.errors + 1 := by
      simp only [State.reported]
      split <;> omega
    omega
  · rw [whenever_report]
    exact State.tells_reported hd

/-! ### Steps that may reject -/

/-- The same for a step that may reject a statement. It does so before anything is reported. -/
structure LimitedT (cfg : Settings) (act act₀ : StmtM α) : Prop where
  limited : Limited Diagnostic.Inner cfg Any act.run act₀.run
  rejects : ∀ s, Answers act s (fun _ _ => True) fun d s' => s.Quiet s' ∧ d.Inner
  rejects₀ : ∀ s, Answers act₀ s (fun _ _ => True) fun d _ => d.Inner

/-- Steps that never reject. -/
def Lifted (cfg : Settings) (act act₀ : StmtM α) : Prop :=
  ∃ step step₀ : LowerM α, act = liftM step ∧ act₀ = liftM step₀ ∧ Limited Diagnostic.Inner cfg Any step step₀

theorem Examines.silent {act : StmtM α} (h : Examines act) : Silent act.run := fun s => Keeps.any (h s)

theorem Examines.limitedT {act : StmtM α} (h : Examines act) : LimitedT cfg act act :=
  ⟨.of_silent h.silent, fun s => (h.answers s).mono (fun _ _ _ => trivial) fun _ _ hd => hd,
    fun s => (h.answers s).mono (fun _ _ _ => trivial) fun _ _ hd => hd.2⟩

/-- Something is examined first. -/
theorem LimitedT.check {act : StmtM α} {f f0 : α → StmtM β} {Q : State → α → Prop}
    (h : ∀ s : State, KeepsT s.Quiet act (Q s)) (hf : ∀ a, LimitedT cfg (f a) (f0 a)) :
    LimitedT cfg (act >>= f) (act >>= f0) := by
  have h : Examines act := fun s => (h s).mono fun _ _ => trivial
  refine ⟨?_, fun s => ?_, fun s => ?_⟩
  · rw [ExceptT.run_bind, ExceptT.run_bind]
    refine (Limited.of_silent h.silent).bind fun r => ?_
    cases r with
    | ok a => exact (hf a).limited
    | error d => exact .of_silent fun _ => keeps_pure trivial
  · rw [answers_bind]
    refine (h.answers s).mono (fun a s1 h1 => ?_) fun _ _ hd => hd
    exact ((hf a).rejects s1).mono (fun _ _ _ => trivial) fun _ _ hd => ⟨h1.trans hd.1, hd.2⟩
  · rw [answers_bind]
    exact (h.answers s).mono (fun a s1 _ => (hf a).rejects₀ s1) fun _ _ hd => hd.2

theorem lifted_lift {step step0 : LowerM α} (h : Limited Diagnostic.Inner cfg Any step step0) :
    Lifted cfg (liftM step) (liftM step0) := ⟨step, step0, rfl, rfl, h⟩

theorem lifted_silent {step : LowerM α} (h : Silent step) : Lifted cfg (liftM step) (liftM step) :=
  lifted_lift (.of_silent h)

theorem lifted_pure (a : α) : Lifted cfg (pure a) (pure a) :=
  ⟨pure a, pure a, (liftM_pure a).symm, (liftM_pure a).symm, .of_silent fun _ => keeps_pure trivial⟩

theorem Lifted.bind {act act0 : StmtM α} {f f0 : α → StmtM β} (h : Lifted cfg act act0)
    (hf : ∀ a, Lifted cfg (f a) (f0 a)) : Lifted cfg (act >>= f) (act0 >>= f0) := by
  obtain ⟨step, step0, rfl, rfl, hstep⟩ := h
  choose next next0 hnext hnext0 hlimited using hf
  obtain rfl : f = fun a => liftM (next a) := funext hnext
  obtain rfl : f0 = fun a => liftM (next0 a) := funext hnext0
  exact ⟨step >>= next, step0 >>= next0, (liftM_bind step next).symm, (liftM_bind step0 next0).symm, hstep.bind hlimited⟩

theorem Lifted.limitedT {act act0 : StmtM α} (h : Lifted cfg act act0) : LimitedT cfg act act0 := by
  obtain ⟨step, step0, rfl, rfl, hstep⟩ := h
  have hok : ∀ a : α, Limited Diagnostic.Inner cfg Any (pure (.ok a) : LowerM (Except Diagnostic α)) (pure (.ok a)) :=
    fun a => .of_silent fun _ => keeps_pure trivial
  refine ⟨?_, fun s => (answers_lift _).mpr fun _ _ _ => trivial, fun s => (answers_lift _).mpr fun _ _ _ => trivial⟩
  have hrun := hstep.bind hok
  rw [← map_eq_pure_bind, ← map_eq_pure_bind] at hrun
  exact hrun

/-- What is rejected is dealt with where there is room, since nothing was reported before. -/
theorem LimitedT.bindRun {act act0 : StmtM α} (h : LimitedT cfg act act0) {k k0 : Except Diagnostic α → LowerM β}
    (hok : ∀ a, Limited Diagnostic.Inner cfg Any (k (.ok a)) (k0 (.ok a)))
    (herror : ∀ d : Diagnostic, d.Inner → Limited Diagnostic.Inner cfg (State.Below cfg) (k (.error d)) (k0 (.error d))) :
    Limited Diagnostic.Inner cfg (State.Below cfg) (act.run >>= k) (act0.run >>= k0) := by
  have hlater : ∀ r s1 s, act0.run s = .ok r s1 → Whenever (k0 r) s1 fun _ s' => s1.Tells Diagnostic.Inner s' := by
    intro r s1 s hrun
    cases r with
    | ok a => exact (hok a).tells s1
    | error d => exact (herror d (h.rejects₀ s _ _ hrun)).tells s1
  have hroom : ∀ {d : Diagnostic} {s s1 : State}, s.Below cfg → act.run s = .ok (.error d) s1 → s1.Below cfg ∧ d.Inner := by
    intro d s s1 hs hrun
    obtain ⟨hquiet, hd⟩ : s.Quiet s1 ∧ d.Inner := h.rejects s _ _ hrun
    exact ⟨fun hat => hs (hquiet.atLimit.mp hat), hd⟩
  refine ⟨fun s hs => ?_, fun s hs => ?_, fun s => ?_⟩
  · rw [jointly_bind]
    intro r s1 h1 r' s2 h2
    have htrimmed := (h.limited.trims s trivial).result h1 h2
    cases r with
    | ok a =>
      rcases htrimmed with ⟨rfl, rfl⟩ | ⟨hat, hpre⟩
      · exact (hok a).trims s1 trivial
      · exact jointly_atLimit hat hpre ((hok a).bounded s1 trivial) (hlater r' s2 s h2)
    | error d =>
      obtain ⟨hs1, hd⟩ := hroom hs h1
      rcases htrimmed with ⟨rfl, rfl⟩ | ⟨hat, -⟩
      · exact (herror d hd).trims s1 hs1
      · exact absurd hat hs1
  · rw [whenever_bind]
    intro r s1 h1
    have hbounded := h.limited.bounded s trivial r s1 h1
    cases r with
    | ok a => exact ((hok a).bounded s1 trivial).mono fun _ _ h2 => hbounded.trans h2
    | error d =>
      obtain ⟨hs1, hd⟩ := hroom hs h1
      exact ((herror d hd).bounded s1 hs1).mono fun _ _ h2 => hbounded.trans h2
  · rw [whenever_bind]
    intro r s1 h1
    have htells := h.limited.tells s r s1 h1
    exact (hlater r s1 s h1).mono fun _ _ h2 => htells.trans h2

end

/-! ## (2) Statements and bodies -/

section

variable {cfg : Settings} {file : FileId}

theorem armHeads_unlimited (value : Value) : ∀ (arms : List Arm) (earlier : List ArmHead),
    armHeads cfg.unlimited file value earlier arms = armHeads cfg file value earlier arms
  | [], _ => rfl
  | arm :: rest, earlier => by
    simp only [armHeads, armHeads_unlimited value rest]
    rfl

/-- A match, once its value is known. -/
theorem LimitedT.matched (e : Expr) {b : BlockId} {next next0 : Value → StmtM (Option BlockId)}
    (h : ∀ value, LimitedT cfg (next value) (next0 value)) :
    LimitedT cfg (do
        let value ← matchedValue cfg file e
        if value.ty = .invalid then return some b else next value)
      (do
        let value ← matchedValue cfg.unlimited file e
        if value.ty = .invalid then return some b else next0 value) := by
  refine LimitedT.check (fun _ => keepsT_matchedValue cfg file e) fun value => ?_
  by_cases hinvalid : value.ty = .invalid
  · simp only [if_pos hinvalid]
    exact Examines.limitedT fun _ => keepsT_pure trivial
  · simp only [if_neg hinvalid]
    exact h value

section

variable (cfg : Settings) (file : FileId) (fn : FunId)

mutual

theorem limitedT_lowerStmt : ∀ (x : Stmt) (b : BlockId),
    LimitedT cfg (lowerStmt cfg file fn x b) (lowerStmt cfg.unlimited file fn x b)
  | .letVar name ty init span, b => by
    simp only [lowerStmt]
    exact Examines.limitedT fun _ => keepsT_lowerLet cfg file trivial ty init span b
  | .assign name nameSpan value _, b => by
    simp only [lowerStmt]
    exact Examines.limitedT fun _ => keepsT_lowerAssign cfg file name nameSpan value b
  | .ret value span, b => by
    simp only [lowerStmt]
    exact Examines.limitedT fun _ => keepsT_lowerReturn cfg file fn value span b
  | .expr value _, b => by
    simp only [lowerStmt]
    exact Examines.limitedT fun _ => keepsT_lowerEffect (fun _ _ => trivial) cfg file value b
  | .block body _, b => by
    simp only [lowerStmt]
    exact (lifted_lift (limited_lowerStmts body (some b)).inScope).limitedT
  | .ifElse c thenBody elseBody _, b => by
    rcases elseBody with _ | elseBody
    all_goals
      simp only [lowerStmt]
      refine LimitedT.check (fun _ => keepsT_condition cfg file "If" c) fun c => Lifted.limitedT ?_
      refine (lifted_silent fun _ => keeps_newBlock).bind fun t => (lifted_silent fun _ => keeps_newBlock).bind fun f => ?_
      refine (lifted_silent fun _ => keeps_terminate _ _).bind fun _ => ?_
      refine (lifted_lift (limited_lowerStmts thenBody (some t)).inScope).bind fun thenEnd => ?_
    · exact (lifted_silent fun _ => keeps_joinAll _ _).bind fun _ => lifted_pure _
    · refine (lifted_lift (limited_lowerStmts elseBody (some f)).inScope).bind fun elseEnd => ?_
      exact lifted_silent fun _ => keeps_joinEnds _
  | .whileLoop c body _, b => by
    simp only [lowerStmt]
    refine LimitedT.check (fun _ => keepsT_condition cfg file "While" c) fun c => Lifted.limitedT ?_
    refine (lifted_silent fun _ => keeps_newBlock).bind fun head => (lifted_silent fun _ => keeps_newBlock).bind fun t => ?_
    refine (lifted_silent fun _ => keeps_newBlock).bind fun exit => ?_
    refine (lifted_silent fun _ => keeps_terminate _ _).bind fun _ => (lifted_silent fun _ => keeps_terminate _ _).bind fun _ => ?_
    refine (lifted_lift (limited_lowerStmts body (some t)).inScope).bind fun last => ?_
    exact (lifted_silent fun _ => keeps_joinAll _ _).bind fun _ => lifted_pure _
  | .matchOn e arms fallback _, b => by
    rcases fallback with _ | fallback
    all_goals
      simp only [lowerStmt, armHeads_unlimited]
      refine LimitedT.matched e fun value => LimitedT.check (fun _ => keepsT_armHeads cfg file value arms []) fun heads => ?_
      refine Lifted.limitedT ((lifted_silent fun _ => keeps_scrutinize (fun _ _ => trivial) _ _).bind fun scrutinee => ?_)
    · refine (lifted_silent fun _ => keeps_newBlock).bind fun j => ?_
      refine (lifted_lift (limited_lowerArms scrutinee arms heads)).bind fun r => ?_
      obtain ⟨targets, ends⟩ := r
      exact (lifted_silent fun _ => keeps_joinAll _ _).bind fun _ => (lifted_silent fun _ => keeps_terminate _ _).bind fun _ =>
        lifted_pure _
    · refine (lifted_lift (limited_lowerArms scrutinee arms heads)).bind fun r => ?_
      obtain ⟨targets, ends⟩ := r
      refine (lifted_silent fun _ => keeps_newBlock).bind fun f => ?_
      refine (lifted_lift (limited_lowerStmts fallback (some f)).inScope).bind fun last => ?_
      exact (lifted_silent fun _ => keeps_joinEnds _).bind fun _ => (lifted_silent fun _ => keeps_terminate _ _).bind fun _ =>
        lifted_pure _

theorem limited_lowerStmts :
    ∀ (body : List Stmt) (current : Option BlockId), Limited Diagnostic.Inner cfg Any
      (lowerStmts cfg file fn body current) (lowerStmts cfg.unlimited file fn body current)
  | [], current => by
    simp only [lowerStmts]
    exact .of_silent fun _ => keeps_pure trivial
  | x :: rest, none => by
    have hinner : (unreachableCode file x.span).Inner := show Code.unreachable ≠ Code.missingReturn by decide
    simp only [lowerStmts]
    exact .poll (fun _ => keeps_pure trivial) ((limited_report hinner).bind fun _ => .of_silent fun _ => keeps_pure trivial)
  | x :: rest, some b => by
    simp only [lowerStmts]
    refine .poll (fun _ => keeps_pure trivial) ((limitedT_lowerStmt x b).bindRun (fun next => ?_) fun d hd => ?_)
    · exact limited_lowerStmts rest next
    · exact (limited_report hd).bind fun _ => limited_lowerStmts rest (some b)

theorem limited_lowerArms (scrutinee : Value) :
    ∀ (arms : List Arm) (heads : List ArmHead), Limited Diagnostic.Inner cfg Any
      (lowerArms cfg file fn scrutinee arms heads) (lowerArms cfg.unlimited file fn scrutinee arms heads)
  | [], _ | _ :: _, [] => by
    simp only [lowerArms]
    exact .of_silent fun _ => keeps_pure trivial
  | ⟨_, binding, body, _⟩ :: arms, head :: heads => by
    simp only [lowerArms]
    refine (Limited.of_silent fun _ => keeps_newBlock).bind fun b => Limited.bind (Limited.inScope ?_) fun last => ?_
    · exact (Limited.of_silent fun _ => keeps_bindPayload _ _ _ fun _ _ => trivial).bind fun _ =>
        (limited_lowerStmts body (some b)).inScope
    · refine (limited_lowerArms scrutinee arms heads).bind fun r => ?_
      exact .of_silent fun _ => keeps_pure trivial

end

end

theorem limited_finishBody (f : Function) (last : Option BlockId) :
    Limited Any cfg Any (finishBody cfg f last) (finishBody cfg.unlimited f last) := by
  cases last with
  | none => exact .of_silent fun _ => keeps_pure trivial
  | some b =>
    unfold finishBody
    by_cases hunit : f.signature.result = .unit
    · simp only [if_pos hunit]
      exact .of_silent fun _ => keeps_terminate _ _
    · simp only [if_neg hunit]
      exact .poll (fun _ => keeps_pure trivial) (.after (fun _ => keeps_typeName _) fun _ => limited_report trivial)

theorem limited_lowerFunBody (fn : FunId) (body : List Stmt) :
    Limited Any cfg Any (lowerFunBody cfg fn body) (lowerFunBody cfg.unlimited fn body) := by
  simp only [lowerFunBody_eq]
  refine (Limited.of_silent fun _ => keeps_get.any).bind fun s => Limited.bind ?_ fun _ => ?_
  · have hset : ∀ change, Silent (setContext change) := fun _ _ => keeps_modify fun _ hq => ⟨hq.diags, hq.errors⟩
    unfold buildBody
    refine (Limited.of_silent fun _ => (keeps_ask _).any).bind fun f => (Limited.of_silent fun _ => keeps_newBlock).bind fun entry => ?_
    refine (Limited.of_silent (hset _)).bind fun _ => Limited.bind ?_ fun last => limited_finishBody f last
    refine Limited.inScope ((Limited.of_silent fun _ => keeps_bindParams _ _ _ _ fun _ _ => trivial).bind fun _ => Limited.inScope ?_)
    exact (limited_lowerStmts cfg f.file fn body (some entry)).mono fun _ _ => trivial
  · refine (Limited.of_silent fun _ => keeps_get.any).bind fun s' => ?_
    by_cases herr : s'.errors = s.errors
    · simp only [if_pos herr]
      exact .of_silent fun _ => keeps_inspectBody cfg fn
    · simp only [if_neg herr]
      exact .of_silent fun _ => keeps_pure trivial

theorem limited_lowerBodies : ∀ declared : List (FunId × FunDecl),
    Limited Any cfg Any (lowerBodies cfg declared) (lowerBodies cfg.unlimited declared)
  | [] => .of_silent fun _ => keeps_pure trivial
  | (fn, d) :: rest => by
    simp only [lowerBodies]
    refine .poll (fun _ => keeps_get.bind fun _ _ => keeps_note _ _ _ _) ?_
    cases d.body with
    | none => exact (limited_lowerBodies rest).mono fun _ _ => trivial
    | some body => exact ((limited_lowerFunBody fn body).mono fun _ _ => trivial).bind fun _ => limited_lowerBodies rest

end

/-! ## (3) Modules -/

/-- Declares what is in a module; nothing is lowered yet. -/
def declareModule (cfg : Settings) (m : Module) : LowerM (List (FunId × FunDecl)) := do
  note cfg .info "lower"
    s!"lowering module {m.name} ({m.types.length} types, {m.funs.length} functions)"
  lowerTypes cfg m.file m.types
  declareFuns cfg m.file m.funs

section

variable {cfg : Settings} {m : Module} {journal : Log.Journal} {s s0 s1 : State}

theorem lowerModule_eq (cfg : Settings) (m : Module) : lowerModule cfg m = (do
    let declared ← declareModule cfg m
    lowerBodies cfg declared
    let s ← get
    if s.errors = 0 then return .ok (declared.map (·.1)) else return .error s.diags.toList) := by
  simp only [lowerModule, declareModule, bind_assoc]

theorem declareTypes_unlimited (file : FileId) : ∀ defs : List TypeDef,
    declareTypes cfg.unlimited file defs = declareTypes cfg file defs
  | [] => rfl
  | d :: rest => by
    simp only [declareTypes, declareTypes_unlimited file rest]
    rfl

theorem defineTypes_unlimited (file : FileId) : ∀ declared : List (TypeId × TypeDef),
    defineTypes cfg.unlimited file declared = defineTypes cfg file declared
  | [] => rfl
  | (id, d) :: rest => by
    simp only [defineTypes, defineTypes_unlimited file rest]
    rfl

theorem rejectCycles_unlimited (file : FileId) : ∀ declared : List (TypeId × TypeDef),
    rejectCycles cfg.unlimited file declared = rejectCycles cfg file declared
  | [] => rfl
  | (id, d) :: rest => by
    simp only [rejectCycles, rejectCycles_unlimited file rest]
    rfl

theorem declareFuns_unlimited (file : FileId) : ∀ decls : List FunDecl,
    declareFuns cfg.unlimited file decls = declareFuns cfg file decls
  | [] => rfl
  | d :: rest => by
    simp only [declareFuns, declareFuns_unlimited file rest]
    rfl

/-- Declarations do not look at the limit. -/
theorem declareModule_unlimited (cfg : Settings) (m : Module) : declareModule cfg.unlimited m = declareModule cfg m := by
  simp only [declareModule, lowerTypes, declareTypes_unlimited, defineTypes_unlimited, rejectCycles_unlimited,
    declareFuns_unlimited]
  rfl

theorem lowerBodies_of_lowerModule {declared : List (FunId × FunDecl)} {r : Except (List Diagnostic) (List FunId)}
    (hdeclare : declareModule cfg m s0 = .ok declared s1) (hlower : lowerModule cfg m s0 = .ok r s)
    : lowerBodies cfg declared s1 = .ok ⟨⟩ s := by
  have hwhenever : Whenever (lowerModule cfg m) s0 fun _ s => lowerBodies cfg declared s1 = .ok ⟨⟩ s := by
    rw [lowerModule_eq, whenever_bind]
    intro declared' s1' h
    rw [hdeclare] at h
    cases h
    rw [whenever_bind]
    intro _ s2 hbodies
    simp only [whenever_bind, whenever_get]
    split
    · exact (whenever_pure _).mpr hbodies
    · exact (whenever_pure _).mpr hbodies
  exact hwhenever r s hlower

/-- The number of errors among the diagnostics. -/
def State.errorCount (s : State) : Nat := s.diags.toList.countP (·.isError)

theorem State.Counted.errorCount_eq (h : s.Counted) : s.errorCount = s.errors := h.symm

/-- The states in which lowering a module ends, with a limit (`s`) and without one (`s₀`), and
the one in which its declarations are done (`s₁`). -/
structure LimitedRun (cfg : Settings) (m : Module) (journal : Log.Journal) (s₁ s s₀ : State) : Prop where
  declares : ∃ declared, declareModule cfg m { journal } = .ok declared s₁
  lowers : ∃ r, lowerModule cfg m { journal } = .ok r s
  lowers₀ : ∃ r, lowerModule cfg.unlimited m { journal } = .ok r s₀
  counted₁ : s₁.Counted
  counted : s.Counted
  counted₀ : s₀.Counted
  trimmed : s = s₀ ∨ s.AtLimit cfg ∧ s.diags.toList <+: s₀.diags.toList
  bounded : Bounded cfg s₁ s
  tells : s₁.Tells Any s₀

theorem exists_limitedRun (cfg : Settings) (m : Module) (journal : Log.Journal) :
    ∃ s1 s s0, LimitedRun cfg m journal s1 s s0 := by
  have hdeclares : Ends (declareModule cfg m) (State.new journal) fun _ s => s.Complete := by
    simp only [declareModule, ends_bind, ends_note]
    refine (lowerTypes_ends (State.new_bare _) TypeTable.fresh_ne_named m.types).mono fun _ s1 h1 => ?_
    exact (declareFuns_complete h1.1 h1.2.2 m.funs).mono fun _ _ h2 => h2.1
  obtain ⟨declared, s1, hdeclare, hcomplete1⟩ := hdeclares
  obtain ⟨r, s, hlower, hcomplete, -⟩ := lowerModule_ends cfg m journal
  obtain ⟨r0, s0, hlower0, hcomplete0, -⟩ := lowerModule_ends cfg.unlimited m journal
  have hdeclare0 : declareModule cfg.unlimited m (State.new journal) = .ok declared s1 := by
    rw [declareModule_unlimited, hdeclare]
  have hbodies := lowerBodies_of_lowerModule hdeclare hlower
  have hbodies0 := lowerBodies_of_lowerModule hdeclare0 hlower0
  have hlimited : Limited Any cfg Any (lowerBodies cfg declared) _ := limited_lowerBodies declared
  have htrimmed := (hlimited.trims s1 trivial).result hbodies hbodies0
  exact ⟨s1, s, s0, ⟨declared, hdeclare⟩, ⟨r, hlower⟩, ⟨r0, hlower0⟩, hcomplete1.counted, hcomplete.counted,
    hcomplete0.counted, htrimmed.imp_left And.right, hlimited.bounded s1 trivial _ _ hbodies,
    hlimited.tells s1 _ _ hbodies0⟩

theorem LimitedRun.isPrefix (h : LimitedRun cfg m journal s1 s s0) : s.diags.toList <+: s0.diags.toList := by
  rcases h.trimmed with rfl | ⟨-, hpre⟩
  · exact List.prefix_refl _
  · exact hpre

/-- All errors of the declarations are there, and more only up to the limit. -/
theorem LimitedRun.errorCount_eq (h : LimitedRun cfg m journal s1 s s0) (hmax : cfg.maxErrors ≠ 0) :
    s.errorCount = min s0.errorCount (max cfg.maxErrors s1.errorCount) := by
  have hle : s.errorCount ≤ s0.errorCount := h.isPrefix.sublist.countP_le
  have hbounded := h.bounded.errors hmax
  have hdeclared : s1.errors ≤ s0.errors := by
    obtain ⟨new, -, herrors, -⟩ := h.tells
    omega
  have hearly : s1.errors ≤ s.errors := by
    rcases h.trimmed with rfl | ⟨hat, -⟩
    · exact hdeclared
    · by_cases hat1 : s1.AtLimit cfg
      · exact Nat.le_of_eq (h.bounded.quiet hat1).errors.symm
      · have hlt : s1.errors < cfg.maxErrors := Nat.lt_of_not_le fun hle => hat1 ⟨hmax, hle⟩
        have hlimit := hat.2
        omega
  rw [h.counted.errorCount_eq, h.counted₀.errorCount_eq] at hle
  rw [h.counted.errorCount_eq, h.counted₀.errorCount_eq, h.counted₁.errorCount_eq]
  rcases h.trimmed with rfl | ⟨hat, -⟩
  · omega
  · have hlimit := hat.2
    omega

/-- With a limit on errors the diagnostics of a module are the first ones of those without, and
there are as many errors among them as the limit allows, or all. -/
theorem lowerModule_prefix (cfg : Settings) (m : Module) (journal : Log.Journal) {n : Nat} (hn : 0 < n) :
    ∃ r s r₀ s₀, lowerModule { cfg with maxErrors := n } m { journal } = .ok r s ∧
      lowerModule { cfg with maxErrors := 0 } m { journal } = .ok r₀ s₀ ∧ s.diags.toList <+: s₀.diags.toList ∧
      min n s₀.errorCount ≤ s.errorCount := by
  obtain ⟨s₁, s, s₀, hrun⟩ := exists_limitedRun { cfg with maxErrors := n } m journal
  obtain ⟨r, hlower⟩ := hrun.lowers
  obtain ⟨r₀, hlower₀⟩ := hrun.lowers₀
  refine ⟨r, s, r₀, s₀, hlower, hlower₀, hrun.isPrefix, ?_⟩
  have heq := hrun.errorCount_eq (Nat.pos_iff_ne_zero.mp hn)
  simp only at heq
  omega

/-- A type that is defined three times, and a function with three statements that are rejected. -/
def faultyModule : Module where
  name := "faulty"
  file := 0
  types := [⟨"A", .bool .none, .none⟩, ⟨"A", .bool .none, .none⟩, ⟨"A", .bool .none, .none⟩]
  funs := [⟨"f", [], .unit .none, {},
    some [.expr (.name "x" .none) .none, .expr (.name "y" .none) .none, .expr (.name "z" .none) .none], .none⟩]

theorem faultyModule_prefix : 0 < 3 ∧ ∃ r s r₀ s₀, lowerModule { maxErrors := 3 } faultyModule {} = .ok r s ∧
    lowerModule {} faultyModule {} = .ok r₀ s₀ ∧ s.diags.toList <+: s₀.diags.toList ∧
    min 3 s₀.errorCount ≤ s.errorCount := ⟨by decide, lowerModule_prefix {} faultyModule #[] (by decide)⟩

/-- With a limit on errors a module has the errors of its declarations, however many they are,
and those of its bodies as far as the limit allows. -/
theorem lowerModule_errors_eq (cfg : Settings) (m : Module) (journal : Log.Journal) {n : Nat} (hn : 0 < n) :
    ∃ declared s₁ r s r₀ s₀, declareModule { cfg with maxErrors := n } m { journal } = .ok declared s₁ ∧
      lowerModule { cfg with maxErrors := n } m { journal } = .ok r s ∧
      lowerModule { cfg with maxErrors := 0 } m { journal } = .ok r₀ s₀ ∧
      s.errorCount = min s₀.errorCount (max n s₁.errorCount) := by
  obtain ⟨s₁, s, s₀, hrun⟩ := exists_limitedRun { cfg with maxErrors := n } m journal
  obtain ⟨declared, hdeclare⟩ := hrun.declares
  obtain ⟨r, hlower⟩ := hrun.lowers
  obtain ⟨r₀, hlower₀⟩ := hrun.lowers₀
  exact ⟨declared, s₁, r, s, r₀, s₀, hdeclare, hlower, hlower₀, hrun.errorCount_eq (Nat.pos_iff_ne_zero.mp hn)⟩

theorem faultyModule_errors : ∃ r s, lowerModule { maxErrors := 3 } faultyModule {} = .ok r s ∧ s.errorCount = 3 := by
  obtain ⟨declared, s₁, r, s, r₀, s₀, hdeclare, hlower, hlower₀, heq⟩ :=
    lowerModule_errors_eq {} faultyModule #[] (by decide : 0 < 3)
  have hdeclared : Ends (declareModule { maxErrors := 3 } faultyModule) {} fun _ s => s.errorCount = 2 := by
    decide +kernel
  have hall : Ends (lowerModule {} faultyModule) {} fun _ s => s.errorCount = 5 := by decide +kernel
  refine ⟨r, s, hlower, ?_⟩
  rw [heq, hdeclared.result hdeclare, hall.result hlower₀]
  decide

/-- The limit does not stop declarations: two errors where one is allowed. -/
theorem faultyModule_exceeds :
    Ends (lowerModule { maxErrors := 1 } faultyModule) {} fun _ s => s.errorCount = 2 := by decide +kernel

end

end Lowering

end BlockCompiler
