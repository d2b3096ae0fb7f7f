/-
  BlockCompiler.Proofs.LowererCalls — modules, declarations and bodies in any order.

  One lowerer can be given several modules, and single functions and bodies in between. What
  was reported stays, so a limit on errors may have been reached before a body is lowered.

  (1) Between two calls a state is sound and no scope is open (`State.Resting`), whatever the
      calls were and whether they stopped at a fault or not (`State.Driven.resting`).
  (2) A body that is lowered when the limit has been reached is given no statement and no error.
      It is verified as if it were complete. A function without a result returns, and moves;
      any other one does not (`lowerFunBody_atLimit_unit`, `lowerFunBody_atLimit_open`).
  (3) So lowering a body gives a result unless the limit was reached before and the function has
      a result (`lowerFunBody_driven`). In that case it does stop (`limit_stops_lowerFunBody`).
-/
import BlockCompiler.Proofs.Canonical
import BlockCompiler.Proofs.Module
import BlockCompiler.Proofs.Reporting

namespace BlockCompiler.Lowering

open Surface (Stmt FunDecl Module)
open State

/-! ## (1) Between two calls -/

/-- A sound state outside of all scopes. -/
structure State.Resting (s : State) : Prop where
  sound : s.Sound
  scopes : s.scopes = []

/-- What modules, declarations and bodies can make of a fresh state. The settings may be others
at each call. -/
inductive State.Driven : State → Prop
  | new (journal : Log.Journal) : Driven { journal }
  | lowerModule {s : State} (cfg : Settings) (m : Module) : Driven s → Driven ((Request.lowerModule m).perform cfg s)
  | declareFun {s : State} (cfg : Settings) (file : FileId) (d : FunDecl) : Driven s →
      Driven ((Request.declareFun file d).perform cfg s)
  | lowerFunBody {s : State} (cfg : Settings) (fn : FunId) (body : List Stmt) : Driven s →
      Driven ((Request.lowerFunBody fn body).perform cfg s)

section

variable {cfg : Settings} {fn : FunId} {f : Function} {body : List Stmt} {last : Option BlockId} {s s1 s' : State}

theorem State.Resting.journal (h : s.Resting) (journal : Log.Journal) : { s with journal }.Resting :=
  ⟨⟨h.sound.types, h.sound.vars, h.sound.signatures, h.sound.functions, h.sound.scopes⟩, h.scopes⟩

theorem BodyRun.resting (h : BodyRun cfg fn f body last s s1 s') (hs : s.Resting)
    (hf : s.funs.get? fn = some f) : s'.Resting :=
  ⟨Effects.sound (h.effects hs.sound hf) (hs.sound.begun hf), h.scopes_eq.trans hs.scopes⟩

theorem lowerModule_resting (hs : s.Resting) (m : Module) : Ends (lowerModule cfg m) s fun _ s' => s'.Resting := by
  have hnoted := hs.journal (s.journal.note cfg.gate .info "lower"
    s!"lowering module {m.name} ({m.types.length} types, {m.funs.length} functions)")
  simp only [lowerModule, ends_bind, ends_note]
  refine (lowerTypes_retypes hnoted.sound.types m.types).mono fun _ s1 h1 => ?_
  have hs1 : s1.Resting := ⟨h1.1.sound hnoted.sound, h1.1.scopes_eq.trans hs.scopes⟩
  refine (declareFuns_ends m.funs hs1.sound).mono fun declared s2 h2 => ?_
  have hs2 : s2.Resting := ⟨h2.sound, h2.scopes.trans hs1.scopes⟩
  refine (lowerBodies_keeps (fun h => h.sound) (fun journal h => h.journal journal) (fun h hf _ hrun => hrun.resting h hf)
    declared hs2 fun p hp => h2.exists_fun (List.mem_map_of_mem hp)).mono fun _ s3 hs3 => ?_
  simp only [ends_get]
  split
  · exact (ends_pure _).mpr hs3
  · exact (ends_pure _).mpr hs3

theorem declareFun_resting (hs : s.Resting) (file : FileId) (d : FunDecl) :
    Ends (declareFun cfg file d).run s fun _ s' => s'.Resting := by
  refine Ends.mono (declareFun_judges hs.sound d) fun r s1 h1 => ?_
  cases r with
  | ok fn =>
    have hadd : AddsFun s fn s1 := h1
    have henlarges := hadd.enlarges hs.sound
    exact ⟨henlarges.sound, henlarges.scopes.trans hs.scopes⟩
  | error e =>
    have hrejects : Rejects s e s1 := h1
    rw [hrejects.typing]
    exact ⟨hs.sound.withTyping hrejects.adds, hs.scopes⟩

/-! ## (2) Bodies at the limit -/

theorem State.AtLimit.started (h : s.AtLimit cfg) (fn : FunId) (f : Function) : (s.started fn f).AtLimit cfg :=
  (s.started_quiet fn f).atLimit.mpr h

/-- At the limit statements are left out. -/
theorem lowerStmts_atLimit {file : FileId} (h : s.AtLimit cfg) (fn : FunId) (body : List Stmt)
    (current : Option BlockId) : lowerStmts cfg file fn body current s = .ok current s := by
  have hends : Ends (lowerStmts cfg file fn body current) s fun last s' => last = current ∧ s' = s := by
    cases body with
    | nil => simp only [lowerStmts, ends_pure, and_self]
    | cons x rest =>
      simp only [lowerStmts, ends_bind, ends_limitReached, if_pos (decide_eq_true h), ends_pure, and_self]
  obtain ⟨_, _, hrun, rfl, rfl⟩ := hends
  exact hrun

section

variable (hs : s.Sound) (hf : s.funs.get? fn = some f) (hat : s.AtLimit cfg)
include hs hf hat

/-- At the limit a body is built of its entry only. -/
theorem buildBody_atLimit (body : List Stmt) :
    ∃ s', buildBody cfg fn body s = .ok ⟨⟩ s' ∧
      BodyRun cfg fn f body (some s.blocks.next) s (s.started fn f) s' ∧
      finishBody cfg f (some s.blocks.next) (s.started fn f).leave.leave = .ok ⟨⟩ s' := by
  obtain ⟨_, s', hbuild, last, s1, hbody, hlower, hfinish⟩ : Ends (buildBody cfg fn body) s _ := buildBody_runs hs hf body
  rw [lowerStmts_atLimit (hat.started fn f)] at hlower
  cases hlower
  exact ⟨s', hbuild, hbody, hfinish⟩

/-- A function without a result returns at once. -/
theorem lowerFunBody_atLimit_unit (hunit : f.signature.result = .unit) (body : List Stmt) :
    ∃ s1 s' journal, BodyRun cfg fn f body (some s.blocks.next) s s1 s' ∧
      lowerFunBody cfg fn body s = .ok ⟨⟩ { s' with journal } := by
  obtain ⟨s', hbuild, hbody, hfinish⟩ := buildBody_atLimit hs hf hat body
  have hyields := (s.begun_yields fn f).trans (hbody.stmts.moves_body hs hf).yields
  have hclosed : Ends (finishBody cfg f (some s.blocks.next)) (s.started fn f).leave.leave fun _ s' =>
      State.Yields s [] s' [] := by
    simp only [finishBody, if_pos hunit]
    rw [ends_terminate (hyields.owns.isOpen _ (by simp))]
    exact hyields.trans (.close hyields.owns _)
  obtain ⟨journal, hrun⟩ := lowerFunBody_of_build hs hf hbuild hbody fun _ => hclosed.result hfinish
  exact ⟨_, s', journal, hbody, hrun⟩

/-- A function with a result has no end, and the verifier finds its entry open. -/
theorem lowerFunBody_atLimit_open (hresult : f.signature.result ≠ .unit) (body : List Stmt) :
    ∃ s1 s', BodyRun cfg fn f body (some s.blocks.next) s s1 s' ∧
      lowerFunBody cfg fn body s = .error (.malformed f.name (.openBlock s.blocks.size)) s' := by
  obtain ⟨s', hbuild, hbody, hfinish⟩ := buildBody_atLimit hs hf hat body
  have hstop : Ends (finishBody cfg f (some s.blocks.next)) (s.started fn f).leave.leave fun _ s' =>
      s' = (s.started fn f).leave.leave := by
    have hlimit : (s.started fn f).leave.leave.AtLimit cfg := hat.started fn f
    simp only [finishBody, if_neg hresult, ends_bind, ends_limitReached, if_pos (decide_eq_true hlimit), ends_pure]
  obtain rfl := hstop.result hfinish
  refine ⟨_, _, hbody, ?_⟩
  -- everything is in order but the entry, which is open
  have hs' := Effects.sound (hbody.effects hs hf) (hs.begun hf)
  have hfn := (hbody.get?_fun hs hf fn).trans (if_pos rfl)
  obtain ⟨block, hblock, hopen⟩ := (hbody.stmts.moves_body hs hf).owns.isOpen s.blocks.next (by simp)
  have hstmts := (hbody.region hs hf s.blocks.next block (Nat.le_refl _) hblock).1
  have hverify := Context.verify_open hfn (hs'.signatures fn _ hfn) rfl rfl hblock hopen hstmts
  have hask : inspectBody cfg fn (s.started fn f).leave.leave =
      .error (.malformed f.name (.openBlock s.blocks.size)) (s.started fn f).leave.leave :=
    run_bind_error (ask_eq_error hverify) _
  have herr : (s.started fn f).leave.leave.errors = s.errors := (s.started_quiet fn f).errors
  rw [lowerFunBody_eq]
  refine (run_bind_ok rfl _).trans ((run_bind_ok hbuild _).trans ((run_bind_ok rfl _).trans ?_))
  rw [if_pos herr]
  exact hask

end

/-! ## (3) Calls in any order -/

theorem lowerFunBody_unknown (hf : s.funs.get? fn = none) (body : List Stmt) :
    ∃ e, lowerFunBody cfg fn body s = .error e s := by
  cases hget : s.funs.get fn with
  | ok f =>
    rw [Arena.get_eq_ok.mp hget] at hf
    cases hf
  | error e =>
    refine ⟨e, ?_⟩
    rw [lowerFunBody_eq]
    exact (run_bind_ok rfl _).trans (run_bind_error (run_bind_error (ask_eq_error hget) _) _)

/-- However lowering a body ends, it leaves a state in which the next call can start. -/
theorem lowerFunBody_keepsResting (cfg : Settings) (fn : FunId) (body : List Stmt) :
    Keeps State.Resting (lowerFunBody cfg fn body) Any := by
  intro s hs
  cases hf : s.funs.get? fn with
  | none =>
    obtain ⟨e, hrun⟩ : ∃ e, lowerFunBody cfg fn body s = .error e s := lowerFunBody_unknown hf body
    rw [hrun]
    exact hs
  | some f =>
    by_cases hat : s.AtLimit cfg
    · by_cases hunit : f.signature.result = .unit
      · obtain ⟨s1, s', journal, hbody, hrun⟩ := lowerFunBody_atLimit_unit hs.sound hf hat hunit body
        rw [hrun]
        exact ⟨(hbody.resting hs hf).journal journal, trivial⟩
      · obtain ⟨s1, s', hbody, hrun⟩ := lowerFunBody_atLimit_open hs.sound hf hat hunit body
        rw [hrun]
        exact hbody.resting hs hf
    · obtain ⟨_, _, hrun, last, s1, s', hbody, journal, rfl⟩ := lowerFunBody_runs hs.sound hf hat body
      rw [hrun]
      exact ⟨(hbody.resting hs hf).journal journal, trivial⟩

theorem keeps_of_ends {α : Type} {I : State → Prop} {act : LowerM α} (h : ∀ s, I s → Ends act s fun _ s' => I s') :
    Keeps I act Any := by
  intro s hs
  obtain ⟨a, s', hrun, hs'⟩ := h s hs
  rw [hrun]
  exact ⟨hs', trivial⟩

theorem Request.perform_keeps {I : State → Prop} {r : Request} (h : Keeps I (r.run cfg) Any) (hs : I s) :
    I (r.perform cfg s) := by
  have hrun := h s hs
  unfold Request.perform
  split
  · rename_i he
    rw [he] at hrun
    exact hrun.1
  · rename_i he
    rw [he] at hrun
    exact hrun

theorem State.Driven.resting (h : s.Driven) : s.Resting := by
  induction h with
  | new journal => exact ⟨(State.new_bare journal).opening.sound, rfl⟩
  | lowerModule cfg m _ ih =>
    refine Request.perform_keeps (keeps_of_ends fun s hs => ?_) ih
    exact (ends_bind _ _).mpr ((lowerModule_resting hs m).mono fun _ _ hs' => (ends_pure _).mpr hs')
  | declareFun cfg file d _ ih =>
    refine Request.perform_keeps (keeps_of_ends fun s hs => ?_) ih
    exact (ends_bind _ _).mpr ((declareFun_resting hs file d).mono fun _ _ hs' => (ends_pure _).mpr hs')
  | lowerFunBody cfg fn body _ ih => exact Request.perform_keeps (lowerFunBody_keepsResting cfg fn body) ih

end

/-- After any calls, the body of a declared function is lowered without a fault unless errors
have reached the limit before and the function has a result. Then its entry is left open, and
the verifier stops there. -/
theorem lowerFunBody_driven {s : State} (h : s.Driven) {fn : FunId} {f : Function}
    (hf : s.context.funs.get? fn = some f) (cfg : Settings) (body : List Stmt) :
    (¬ (s.AtLimit cfg ∧ f.signature.result ≠ TypeId.unit) → ∃ s', lowerFunBody cfg fn body s = .ok ⟨⟩ s') ∧
      (s.AtLimit cfg ∧ f.signature.result ≠ TypeId.unit →
        ∃ s', lowerFunBody cfg fn body s = .error (.malformed f.name (.openBlock s.context.blocks.size)) s') := by
  have hs := h.resting.sound
  refine ⟨fun hnot => ?_, fun hopen => ?_⟩
  · by_cases hat : s.AtLimit cfg
    · have hunit : f.signature.result = TypeId.unit := not_not.mp fun hne => hnot ⟨hat, hne⟩
      obtain ⟨s₁, s', journal, -, hrun⟩ := lowerFunBody_atLimit_unit hs hf hat hunit body
      exact ⟨_, hrun⟩
    · obtain ⟨_, s', hrun, -⟩ := lowerFunBody_runs hs hf hat body
      exact ⟨s', hrun⟩
  · obtain ⟨s₁, s', -, hrun⟩ := lowerFunBody_atLimit_open hs hf hopen.1 hopen.2 body
    exact ⟨s', hrun⟩

/-- A type is defined twice, which is one error, and then a function is declared. -/
def limitedState : State :=
  (Request.declareFun 0 ⟨"f", [], .int ⟨true, .w32⟩ .none, {}, none, .none⟩).perform { maxErrors := 1 }
    ((Request.lowerModule ⟨"m", 0, [⟨"A", .bool .none, .none⟩, ⟨"A", .bool .none, .none⟩], []⟩).perform
      { maxErrors := 1 } {})

theorem limitedState_driven : limitedState.Driven := .declareFun _ _ _ (.lowerModule _ _ (.new #[]))

/-- Without a limit the function gets its body, with the limit it does not. -/
theorem limitedState_lowers :
    (∃ s', lowerFunBody {} ⟨0⟩ [.ret (some (.int 1 none .none)) .none] limitedState = .ok ⟨⟩ s') ∧
      ∃ s', lowerFunBody { maxErrors := 1 } ⟨0⟩ [.ret (some (.int 1 none .none)) .none] limitedState =
        .error (.malformed "f" (.openBlock 0)) s' := by
  have hdeclared : (limitedState.funs.get? ⟨0⟩).map (fun f => (f.name, f.signature.result)) =
      some ("f", TypeId.i32) := by decide +kernel
  obtain ⟨f, hf, hpair⟩ := Option.map_eq_some_iff.mp hdeclared
  obtain ⟨hname, hresult⟩ := Prod.mk.inj hpair
  have hlimit : ¬ limitedState.AtLimit {} := by decide
  have hat : limitedState.AtLimit { maxErrors := 1 } := by decide +kernel
  have hsize : limitedState.blocks.size = 0 := by decide +kernel
  refine ⟨(lowerFunBody_driven limitedState_driven hf {} _).1 fun h => hlimit h.1, ?_⟩
  have hstop := (lowerFunBody_driven limitedState_driven hf { maxErrors := 1 }
    [.ret (some (.int 1 none .none)) .none]).2 ⟨hat, by rw [hresult]; decide⟩
  rwa [hname, hsize] at hstop

/-- A function that was declared, and a body that is in order: lowering it stops at a fault. -/
theorem limit_stops_lowerFunBody : limitedState.Driven ∧ (limitedState.context.funs.get? ⟨0⟩).isSome ∧
    ¬ Ends (lowerFunBody { maxErrors := 1 } ⟨0⟩ [.ret (some (.int 1 none .none)) .none]) limitedState fun _ _ => True :=
  ⟨limitedState_driven, by decide +kernel, by decide +kernel⟩

end BlockCompiler.Lowering
