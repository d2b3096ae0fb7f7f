/-
  BlockCompiler.Proofs.MissingReturn — functions that lack a return.

  Whether a body can run to its end shows in its statements (`BodyFallsThrough`). Lowering does
  not look at them for this: it reports a missing return if the last block is still open. A
  statement that is left out leaves its block open, a `return` as well.

  (1) A body that falls through leaves a block open, whatever else is wrong with it
      (`Run.continues`).
  (2) A body that leaves a block open falls through if the statements that were left out
      count for nothing (`Run.fallsThrough`): those that were rejected, and after an error
      matches as well, since their values may have failed.
  (3) So a missing return is always reported where there is one, and elsewhere only because
      of a statement that was left out (`lowerFunBody_missingReturn`). This happens: a single
      mistake can give two diagnostics (`rejectedReturn_reported_twice`).
-/
import BlockCompiler.Proofs.ErrorLimit
import BlockCompiler.Proofs.Simulation

namespace BlockCompiler.Lowering

open Surface (Expr TypeExpr Stmt Arm)
open State

mutual

/-- Control can go on behind the statement, if those in `skips` count for nothing. -/
def FallsThrough (skips : Stmt → Prop) : Stmt → Prop
  | .ret _ _ => False
  | .ifElse _ thenBody (some elseBody) _ => BodyFallsThrough skips thenBody ∨ BodyFallsThrough skips elseBody
  | .matchOn _ arms (some fallback) _ => ArmsFallThrough skips arms ∨ BodyFallsThrough skips fallback
  | .block body _ => BodyFallsThrough skips body
  | _ => True

def BodyFallsThrough (skips : Stmt → Prop) : List Stmt → Prop
  | [] => True
  | x :: rest => (skips x ∨ FallsThrough skips x) ∧ BodyFallsThrough skips rest

/-- Control can go on behind one of the arms. -/
def ArmsFallThrough (skips : Stmt → Prop) : List Arm → Prop
  | [] => False
  | ⟨_, _, body, _⟩ :: rest => BodyFallsThrough skips body ∨ ArmsFallThrough skips rest

end

/-- No statement at all. -/
def noStmt (_ : Stmt) : Prop := False

/-- The statement is a match. -/
def IsMatch (x : Stmt) : Prop := ∃ e arms fallback span, x = .matchOn e arms fallback span

/-- What was reported can be the reason to leave the statement out: it was rejected, or it is a
match whose value may have failed. -/
def LeftOut (cfg : Settings) (file : FileId) (sig : Signature) (reports : List Diagnostic) (x : Stmt) : Prop :=
  ∃ d ∈ reports, d.isError = true ∧ (RejectedWith cfg file sig x d ∨ IsMatch x)

section

variable {cfg : Settings} {file : FileId} {sig : Signature} {task : Task} {s s' F : State}

/-- Without an error nothing is left out. -/
theorem leftOut_eq_noStmt {reports : List Diagnostic} (h : ∀ d ∈ reports, d.isError = false) :
    LeftOut cfg file sig reports = noStmt := by
  funext x
  refine eq_false fun hleft => ?_
  obtain ⟨d, hd, herror, -⟩ := hleft
  rw [h d hd] at herror
  cases herror

theorem append_ne_nil {ends more : List BlockId} : ends ++ more ≠ [] ↔ ends ≠ [] ∨ more ≠ [] := by
  rw [ne_eq, List.append_eq_nil_iff, not_and_or]

theorem toList_ne_nil {last : Option BlockId} : last.toList ≠ [] ↔ last.isSome := by
  cases last <;> simp

theorem State.meet_isSome {ends : List BlockId} : (s.meet ends).1.isSome ↔ ends ≠ [] := by
  cases ends <;> simp [State.meet]

/-! ## (1) What falls through goes on -/

/-- Where the source falls through, a block is left open. -/
def Task.Continues : Task → Prop
  | .stmt x _ next => FallsThrough noStmt x → next.isSome
  | .refusal _ _ => True
  | .stmts body current next => current.isSome → BodyFallsThrough noStmt body → next.isSome
  | .arms _ list _ _ ends => ArmsFallThrough noStmt list → ends ≠ []

theorem Run.continues (h : Run cfg file sig task s s') : task.Continues := by
  induction h with
  | letVar | assign | effect | ifThen | whileLoop | matchFailed | matchOn => exact fun _ => rfl
  | ret => exact fun hfalls => absurd hfalls id
  | block _ ih => exact ih rfl
  | ifElse _ _ _ _ _ _ ihThen ihElse =>
    intro hfalls
    rw [State.meet_isSome, append_ne_nil, toList_ne_nil, toList_ne_nil]
    exact hfalls.imp (ihThen rfl) (ihElse rfl)
  | matchElse _ _ _ _ _ _ ihArms ih =>
    intro hfalls
    rw [State.meet_isSome, append_ne_nil, toList_ne_nil]
    exact hfalls.imp ihArms (ih rfl)
  | refused | refusedLet => trivial
  | done | limit | unreachable => exact fun hsome _ => hsome
  | step _ _ _ ih ihRest =>
    intro _ hfalls
    obtain ⟨hx, hrest⟩ := hfalls
    exact ihRest (ih (hx.resolve_left id)) hrest
  | skip _ _ _ _ _ ihRest => exact fun _ hfalls => ihRest rfl hfalls.2
  | noArms => exact fun hfalls => absurd hfalls id
  | arm _ _ _ _ ih ihRest =>
    intro hfalls
    rw [append_ne_nil, toList_ne_nil]
    exact hfalls.imp (ih rfl) ihRest

/-! ## (2) What goes on falls through -/

theorem State.Quiet.of_typing (h : s' = s.withTyping s'.typing) : s.Quiet s' := by
  rw [h]
  exact ⟨rfl, rfl⟩

theorem State.quiet_declare (s : State) (b : BlockId) (ty : TypeId) (name : String) (value : Option Value) :
    s.Quiet (s.declare b ty name value) := by
  cases value with
  | none => exact ⟨rfl, rfl⟩
  | some _ => exact ⟨rfl, rfl⟩

theorem State.quiet_joined (j : BlockId) : ∀ (ends : List BlockId) (s : State), s.Quiet (s.joined j ends)
  | [], s => .refl s
  | b :: rest, s => by
    have hclose : s.Quiet (s.close b (.jump j)) := ⟨rfl, rfl⟩
    exact hclose.trans (quiet_joined j rest _)

theorem State.quiet_meet (s : State) (ends : List BlockId) : s.Quiet (s.meet ends).2 := by
  cases ends with
  | nil => exact .refl s
  | cons b ends =>
    have hnew : s.Quiet s.addBlock := ⟨rfl, rfl⟩
    exact hnew.trans (quiet_joined _ _ _)

theorem State.quiet_withPayload (s : State) (b : BlockId) (scrutinee : Value) (head : ArmHead) (ty : TypeId)
    (binding : Option String) : s.Quiet (s.withPayload b scrutinee head ty binding) := by
  cases binding with
  | none => exact .refl s
  | some name => exact (quiet_declare s b ty name _).trans ⟨rfl, rfl⟩

theorem Matches.quiet_declare {e : Expr} {v : Value} {arms : List Arm} {heads : List ArmHead}
    (h : Matches cfg file sig.params s e v arms heads s') (b : BlockId) : s.Quiet (s'.declare b v.ty "match" (some v)) :=
  (Quiet.of_typing h.typing).trans (State.quiet_declare _ _ _ _ _)

theorem State.Tells.quiet {P : Diagnostic → Prop} {s'' : State} (h : s.Tells P s') (hq : s'.Quiet s'') :
    s.Tells P s'' := h.trans hq.tells

/-- Something may have been reported. -/
abbrev State.Told (s s' : State) : Prop := s.Tells (fun _ => True) s'

/-- A run takes back nothing that was reported. -/
theorem Run.told (h : Run cfg file sig task s s') : s.Told s' := by
  induction h with
  | letVar hi => exact ((Quiet.of_typing hi.typing).trans (quiet_declare _ _ _ _ _)).tells.quiet ⟨rfl, rfl⟩
  | assign _ hc | ret hc => exact (Quiet.of_typing hc.typing).tells.quiet ⟨rfl, rfl⟩
  | effect hc => exact ((Quiet.of_typing hc.typing).trans (quiet_declare _ _ _ _ _)).tells
  | block _ ih => exact ih
  | @ifThen s _ _ s3 _ _ _ _ _ _ _ _ ht _ _ hs2 _ ih | @whileLoop s _ _ s3 _ _ _ _ _ _ _ _ _ ht _ _ _ hs2 _ ih =>
    subst hs2
    have hbody : s.Told s3.leave := (Quiet.of_typing ht.typing).tells.trans ih
    exact hbody.quiet (quiet_joined _ _ _)
  | @ifElse s _ _ s3 s4 _ _ _ _ _ _ _ _ _ _ ht _ _ hs2 _ _ ihThen ihElse =>
    subst hs2
    have hthen : s.Told s3.leave.enter := (Quiet.of_typing ht.typing).tells.trans ihThen
    have hboth : s.Told s4.leave := hthen.trans ihElse
    exact hboth.quiet (quiet_meet _ _)
  | matchFailed hc _ => exact (Quiet.of_typing hc.typing).tells
  | @matchOn s _ _ s3 _ _ _ b _ _ _ _ _ _ hm _ hs2 _ _ ih =>
    subst hs2
    have harms : s.Told s3 := (hm.quiet_declare b).tells.trans ih
    exact (harms.quiet (quiet_joined _ _ _)).quiet ⟨rfl, rfl⟩
  | @matchElse s _ _ _ s4 _ _ _ _ b _ _ _ _ _ _ _ hm _ hs2 _ _ _ ihArms ih =>
    subst hs2
    have hcases : s.Told s4.leave := ((hm.quiet_declare b).tells.trans ihArms).trans ih
    exact (hcases.quiet (quiet_meet _ _)).quiet ⟨rfl, rfl⟩
  | refused | refusedLet => exact Quiet.tells ⟨rfl, rfl⟩
  | done | limit | noArms => exact (Quiet.refl _).tells
  | unreachable => exact tells_reported trivial
  | step _ _ _ ih ihRest => exact ih.trans ihRest
  | skip _ _ _ _ ih ihRest => exact (ih.trans (tells_reported trivial)).trans ihRest
  | @arm s _ _ scrutinee _ binding _ _ _ head _ b ty _ _ _ _ _ _ _ ih ihRest =>
    have hpayload : s.Told _ := (quiet_withPayload s.addBlock.enter b scrutinee head ty binding).tells
    exact (hpayload.trans ih).trans ihRest

/-- The diagnostic was reported on the way. -/
def State.News (s s' : State) (d : Diagnostic) : Prop := ∃ new, s'.diags.toList = s.diags.toList ++ new ∧ d ∈ new

theorem State.News.wider {s1 s2 : State} {d : Diagnostic} (h : s1.News s2 d) (hbefore : s.Told s1)
    (hbehind : s2.Told s') : s.News s' d := by
  obtain ⟨new, hnew, hd⟩ := h
  obtain ⟨pre, hpre, -⟩ := hbefore
  obtain ⟨post, hpost, -⟩ := hbehind
  refine ⟨pre ++ new ++ post, ?_, ?_⟩
  · rw [hpost, hnew, hpre]
    simp only [List.append_assoc]
  · exact List.mem_append_left _ (List.mem_append_right _ hd)

/-- All that was rejected on the way is in `skips`. -/
def Excuses (cfg : Settings) (file : FileId) (sig : Signature) (skips : Stmt → Prop) (s s' : State) : Prop :=
  ∀ d, s.News s' d → d.isError = true → ∀ x, RejectedWith cfg file sig x d → skips x

theorem Excuses.part {skips : Stmt → Prop} {s1 s2 : State} (h : Excuses cfg file sig skips s s')
    (hbefore : s.Told s1) (hbehind : s2.Told s') : Excuses cfg file sig skips s1 s2 :=
  fun d hd => h d (hd.wider hbefore hbehind)

/-- A task that leaves a block open falls through. -/
def Task.FallsThrough (skips : Stmt → Prop) : Task → Prop
  | .stmt x _ next => next.isSome → skips x ∨ Lowering.FallsThrough skips x
  | .refusal _ _ => True
  | .stmts body current next => next.isSome → current.isSome ∧ BodyFallsThrough skips body
  | .arms _ list _ _ ends => ends ≠ [] → ArmsFallThrough skips list

/-- What leaves a block open falls through, but for what was rejected on the way. A match may
be left out only if it is in `skips`, or if there was no error. -/
theorem Run.fallsThrough {skips : Stmt → Prop} (hmax : cfg.maxErrors = 0) (h : Run cfg file sig task s s') :
    ((¬ ∀ x, IsMatch x → skips x) → task.Leads F sig s s') → Excuses cfg file sig skips s s' →
      task.FallsThrough skips := by
  induction h with
  | letVar | assign | effect | ifThen | whileLoop | matchOn => exact fun _ _ _ => Or.inr trivial
  | ret =>
    intro _ _ hnext
    cases hnext
  | @block s s1 body span b next hrun ih =>
    intro hl hskips hnext
    refine Or.inr (ih (fun hdrop => ?_) hskips hnext).2
    obtain ⟨hl, hF⟩ := hl hdrop
    exact Task.leads_scoped hl hF
  | @ifElse s s1 s2 s3 s4 _ _ _ _ _ t f _ thenEnd elseEnd ht hteq hfeq hs2 hthen helse ihThen ihElse =>
    intro hl hskips hnext
    have hparts : (¬ ∀ x, IsMatch x → skips x) → BranchesLead sig F s2 s3 s4 t f thenEnd elseEnd := by
      intro hdrop
      obtain ⟨hl, hF⟩ := hl hdrop
      exact ht.branchesLead hteq hfeq hs2 hthen helse hl hF
    have hbefore : s.Told s2 := by
      rw [hs2]
      exact (Quiet.of_typing ht.typing).tells
    have hbehind : s4.Told _ := (quiet_meet s4.leave (thenEnd.toList ++ elseEnd.toList)).tells
    rw [State.meet_isSome, append_ne_nil, toList_ne_nil, toList_ne_nil] at hnext
    refine Or.inr (hnext.imp (fun hend => ?_) fun hend => ?_)
    · refine (ihThen (fun hdrop => ?_) (hskips.part hbefore (helse.told.trans hbehind)) hend).2
      exact Task.leads_scoped (hparts hdrop).leads (hparts hdrop).ext
    · refine (ihElse (fun hdrop => ?_) (hskips.part (hbefore.trans hthen.told) hbehind) hend).2
      exact Task.leads_scoped (hparts hdrop).leadsElse (hparts hdrop).extElse
  | @matchFailed s s1 e arms fallback span b v hc hty =>
    intro hl _ _
    by_cases hdrop : ∀ x, IsMatch x → skips x
    · exact Or.inl (hdrop _ ⟨e, arms, fallback, span, rfl⟩)
    · -- a value fails only after an error
      obtain ⟨hl, hF⟩ := hl hdrop
      exact absurd hty (hc.clean (hl.after (hc.moves hl.holds.owns) hF).clean)
  | @matchElse s s1 s2 s3 s4 _ _ _ _ b f _ scrutinee _ _ ends last hm hscr hs2 harms hf hrun ihArms ih =>
    intro hl hskips hnext
    have hparts : (¬ ∀ x, IsMatch x → skips x) → CasesLead sig F s2 s3 s4 scrutinee b f ends last := by
      intro hdrop
      obtain ⟨hl, hF⟩ := hl hdrop
      exact hm.casesLead hscr hs2 harms hf hrun hl hF
    have hbefore : s.Told s2 := by
      rw [hs2]
      exact (hm.quiet_declare b).tells
    have hbehind : s4.Told _ := (quiet_meet s4.leave (ends ++ last.toList)).tells
    rw [State.meet_isSome, append_ne_nil, toList_ne_nil] at hnext
    refine Or.inr (hnext.imp (fun hend => ?_) fun hend => ?_)
    · refine ihArms (fun hdrop => ?_) (hskips.part hbefore (hrun.told.trans hbehind)) hend
      exact ⟨(hparts hdrop).leads.left (A := []), (hparts hdrop).fits, (hparts hdrop).ext⟩
    · refine (ih (fun hdrop => ?_) (hskips.part (hbefore.trans harms.told) hbehind) hend).2
      exact Task.leads_scoped (hparts hdrop).leadsElse (hparts hdrop).extElse
  | refused | refusedLet => exact fun _ _ => trivial
  | done => exact fun _ _ hnext => ⟨hnext, trivial⟩
  | limit hat => exact absurd hmax hat.1
  | unreachable =>
    intro _ _ hnext
    cases hnext
  | @step _ s1 _ _ _ _ next _ _ hx hrest ih ihRest =>
    intro hl hskips hlast
    have hrestLeads : (¬ ∀ x, IsMatch x → skips x) → s1.Leads sig next.toList F := fun hdrop =>
      Run.leads_step hx hrest (hl hdrop).1 (hl hdrop).2
    obtain ⟨hnext, hfalls⟩ := ihRest (fun hdrop => ⟨hrestLeads hdrop, (hl hdrop).2⟩)
      (hskips.part hx.told (Quiet.refl _).tells) hlast
    have hfirst := ih (fun hdrop => ⟨(hl hdrop).1, (hrestLeads hdrop).ext⟩)
      (hskips.part (Quiet.refl _).tells hrest.told) hnext
    exact ⟨rfl, hfirst, hfalls⟩
  | @skip s s1 s2 x rest b last d _ hrejected hx hrest _ ihRest =>
    intro hl hskips hlast
    have hreported : s.Told (s1.reported cfg d) := hx.told.trans (tells_reported trivial)
    obtain ⟨-, hfalls⟩ := ihRest (fun hdrop => absurd (hl hdrop).2 (Run.not_leads_skip hx hrest (hl hdrop).1))
      (hskips.part hreported (Quiet.refl _).tells) hlast
    have hnews : s1.News (s1.reported cfg d) d := ⟨[d], by simp [State.reported], List.mem_singleton_self d⟩
    exact ⟨rfl, Or.inl (hskips d (hnews.wider hx.told hrest.told) hx.refusal.1 x hrejected), hfalls⟩
  | noArms => exact fun _ _ hends => absurd rfl hends
  | @arm s s1 s2 scrutinee _ binding _ _ _ head _ b ty last _ _ hb hn hrun hrest ih ihRest =>
    intro hl hskips hends
    have hparts : (¬ ∀ x, IsMatch x → skips x) →
        ArmLeads sig F (s.addBlock.enter.withPayload b scrutinee head ty binding) s1 scrutinee b last := by
      intro hdrop
      obtain ⟨hl, hfits, hF⟩ := hl hdrop
      exact Run.armLeads hb hn hrun hrest hl hfits hF
    have hbefore : s.Told _ := (quiet_withPayload s.addBlock.enter b scrutinee head ty binding).tells
    rw [append_ne_nil, toList_ne_nil] at hends
    refine hends.imp (fun hend => ?_) fun hend => ?_
    · refine (ih (fun hdrop => ?_) (hskips.part hbefore hrest.told) hend).2
      exact Task.leads_scoped (hparts hdrop).leads (hparts hdrop).ext
    · refine ihRest (fun hdrop => ?_) (hskips.part (hbefore.trans hrun.told) (Quiet.refl _).tells) hend
      exact ⟨(hparts hdrop).leadsRest.left (A := []), (hparts hdrop).fits, (hl hdrop).2.2⟩

end

/-! ## (3) Bodies -/

section

variable {cfg : Settings} {fn : FunId} {f : Function} {body : List Stmt} {last : Option BlockId} {s s1 s' : State}
  {inner : List Diagnostic}

/-- Where a body that must return a value ends, a missing return is reported for an open block. -/
theorem Finish.reports (h : Finish cfg f last s s') (hresult : f.signature.result ≠ .unit)
    (hlimit : ¬ s.AtLimit cfg) : ∃ missing : Option Diagnostic, s'.diags.toList = s.diags.toList ++ missing.toList ∧
      (∀ d ∈ missing, d.code = Code.missingReturn) ∧ (missing.isSome ↔ last.isSome) := by
  cases h with
  | left => exact ⟨none, by simp, by simp, by simp⟩
  | unit hunit => exact absurd hunit hresult
  | limit hat => exact absurd hat hlimit
  | @missing _ b ty =>
    refine ⟨some (missingReturn f.file f ty), by simp [State.reported], ?_, by simp⟩
    intro d hd
    cases hd
    rfl

theorem State.clean_of_scopes (h : s.scopes = []) : s.Clean := by
  intro scope hscope
  rw [h] at hscope
  cases hscope

/-- Statements that leave a block open fall through, but for what was left out because of errors
among `inner`, the reports on the way. -/
theorem BodyRun.fallsThrough (h : BodyRun cfg fn f body last s s1 s') (hs : s.Sound)
    (hf : s.funs.get? fn = some f) (hclean : s.Clean) (hmax : cfg.maxErrors = 0)
    (hdiags : s1.diags.toList = (s.started fn f).diags.toList ++ inner)
    (herrors : s1.errors = (s.started fn f).errors + inner.countP (·.isError)) (hlast : last.isSome) :
    BodyFallsThrough (LeftOut cfg f.file f.signature inner) body := by
  have hstart : Moves cfg f.signature _ _ _ (s.started fn f) _ := hs.moves_started hf
  have hh := hstart.holds (hs.holds_begun hf)
  have hstmts := h.stmts.moves hh
  refine (h.stmts.fallsThrough (F := s1) hmax (fun hdrop => ?_) ?_ hlast).2
  · -- after an error every match counts as left out
    have hnone : inner.countP (·.isError) = 0 := by
      rw [List.countP_eq_zero]
      intro d hd herror
      exact hdrop fun x hx => ⟨d, hd, herror, Or.inr hx⟩
    have herr : s1.errors = s.errors := by
      rw [herrors, hnone, Nat.add_zero, (s.started_quiet fn f).errors]
    exact ⟨leads_started hs hf hclean (hstmts.extends hh) herr, .refl (hstmts.holds hh).sound⟩
  · intro d hnews herror x hrejected
    obtain ⟨new, hnew, hd⟩ := hnews
    obtain rfl : inner = new := List.append_cancel_left (hdiags.symm.trans hnew)
    exact ⟨d, hd, herror, Or.inl hrejected⟩

/-- Without a limit on errors, a function that must return a value gets a missing return
reported, behind all else, if its body falls through. If it gets one, its body falls through as
far as it was not left out because of errors. So where the statements have no error, it gets one
exactly if its body falls through. -/
theorem lowerFunBody_missingReturn (hs : s.Sound) (hscopes : s.scopes = []) (hmax : cfg.maxErrors = 0)
    (hf : s.context.funs.get? fn = some f) (hresult : f.signature.result ≠ TypeId.unit) (body : List Stmt) :
    ∃ s' inner, ∃ missing : Option Diagnostic, lowerFunBody cfg fn body s = .ok ⟨⟩ s' ∧
      s'.diags.toList = s.diags.toList ++ inner ++ missing.toList ∧
      (∀ d ∈ inner, d.code ≠ Code.missingReturn) ∧ (∀ d ∈ missing, d.code = Code.missingReturn) ∧
      (BodyFallsThrough noStmt body → missing.isSome) ∧
      (missing.isSome → BodyFallsThrough (LeftOut cfg f.file f.signature inner) body) ∧
      ((∀ d ∈ inner, d.isError = false) → (missing.isSome ↔ BodyFallsThrough noStmt body)) := by
  have hlimit : ∀ s : State, ¬ s.AtLimit cfg := fun s hat => hat.1 hmax
  obtain ⟨_, s', hbuild, last, s₁, hbody, hlower, -⟩ : Ends (buildBody cfg fn body) s _ := buildBody_runs hs hf body
  obtain ⟨journal, hrun⟩ := lowerFunBody_of_build hs hf hbuild hbody (hbody.yields hs hf (hlimit s))
  have hunlimited : cfg.unlimited = cfg := by
    rw [Settings.unlimited, ← hmax]
  have htells := (limited_lowerStmts cfg f.file fn body (some s.blocks.next)).tells (s.started fn f)
  rw [hunlimited] at htells
  obtain ⟨inner, hdiags, herrors, hinner⟩ := htells last s₁ hlower
  obtain ⟨missing, hreports, hcode, hopen⟩ := hbody.finish.reports hresult (hlimit _)
  have hgoesOn : BodyFallsThrough noStmt body → missing.isSome := fun hfalls =>
    hopen.mpr (hbody.stmts.continues rfl hfalls)
  have hends : missing.isSome → BodyFallsThrough (LeftOut cfg f.file f.signature inner) body := fun hmissing =>
    hbody.fallsThrough hs hf (clean_of_scopes hscopes) hmax hdiags herrors (hopen.mp hmissing)
  refine ⟨_, inner, missing, hrun, ?_, hinner, hcode, hgoesOn, hends, fun hnone => ⟨fun hmissing => ?_, hgoesOn⟩⟩
  · rw [← (s.started_quiet fn f).diags, ← hdiags]
    exact hreports
  · rw [← leftOut_eq_noStmt hnone]
    exact hends hmissing

end

/-- A value is returned on one of two paths. -/
def conditionalReturn : List Stmt :=
  [.ifElse (.bool true .none) [.ret (some (.name "x" .none)) .none] none .none]

theorem conditionalReturn_reported : ∃ s' reports missing,
    lowerFunBody {} ⟨0⟩ conditionalReturn (.taking .fresh TypeId.i32) = .ok ⟨⟩ s' ∧
      s'.diags.toList = reports ++ [missing] ∧ missing.code = Code.missingReturn := by
  have hsound : (State.taking .fresh TypeId.i32).Sound := .taking TypeTable.fresh_sound ⟨by decide, by decide⟩
  have hmax : ({} : Settings).maxErrors = 0 := rfl
  have hf : (State.taking .fresh TypeId.i32).funs.get? ⟨0⟩ = some _ := rfl
  obtain ⟨s', inner, missing, hrun, hdiags, -, hcode, hmissing, -⟩ :=
    lowerFunBody_missingReturn hsound rfl hmax hf (by decide) conditionalReturn
  have hfalls : BodyFallsThrough noStmt conditionalReturn := ⟨Or.inr trivial, trivial⟩
  obtain ⟨d, rfl⟩ := Option.isSome_iff_exists.mp (hmissing hfalls)
  exact ⟨s', inner, d, hrun, hdiags, hcode d rfl⟩

/-- A value is returned that nobody has declared. -/
def rejectedReturn : List Stmt := [.ret (some (.name "y" .none)) .none]

/-- The body returns on its only path, and it has one mistake. Its name is reported, and a
missing return on top. -/
theorem rejectedReturn_reported_twice : ¬ BodyFallsThrough noStmt rejectedReturn ∧
    Ends (lowerFunBody {} ⟨0⟩ rejectedReturn) (.taking .fresh TypeId.i32) fun _ s' =>
      s'.diags.toList.map (·.code) = [Code.undeclared, Code.missingReturn] := by
  constructor
  · intro hfalls
    exact hfalls.1.elim id id
  · decide +kernel

end BlockCompiler.Lowering
