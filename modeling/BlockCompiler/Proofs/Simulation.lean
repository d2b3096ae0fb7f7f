/-
  BlockCompiler.Proofs.Simulation — the blocks of a body walk like its statements.

  (1) By induction on a run: each statement, list of statements and arm is followed by the
      blocks that it was lowered to (`Run.simulates`).
  (2) So a function whose body is lowered without an error is walked like its source
      (`lowerFunBody_walk`). For a parameter of the type `invalid` this is not so: matching on
      it is no error, and leaves nothing behind (`invalid_match_dropped`).
-/
import BlockCompiler.Proofs.Follow
import BlockCompiler.Proofs.Module

namespace BlockCompiler.Lowering

open Surface (Expr TypeExpr Stmt Arm)
open State

variable {b f : BlockId} {e : Expr} {s2 s3 s4 : State} {span : Span} {c scrutinee v value : Value} {arms : List Arm}
  {heads : List ArmHead} {targets : List (VariantId × BlockId)} {ends : List BlockId} {ty : TypeId} {head : ArmHead}
  {written : TypeExpr} {x : Stmt}

/-! ## (1) Runs -/

/-- A task is on the way to `F`, without an error. -/
def Task.Leads (F : State) (sig : Signature) : Task → State → State → Prop
  | .stmt _ b _, s, s' => s.Leads sig [b] F ∧ s'.Extends F
  | .refusal _ _, _, _ => True
  | .stmts _ current _, s, s' => s.Leads sig current.toList F ∧ s'.Extends F
  | .arms scrutinee _ _ _ _, s, s' => s.Leads sig [] F ∧ Fits sig.params s scrutinee.ty (some scrutinee) ∧ s'.Extends F

/-- What a task was lowered to goes along with it. -/
def Task.Simulates (F : State) (file : FileId) (sig : Signature) (task : Task) (s s' : State) : Prop :=
  task.Leads F sig s s' → match task with
    | .stmt x b next => ∀ ds held, Follows F sig.params file (walkStmt x ds) (s.front b ds held) next.toList s'
    | .refusal _ _ => True
    | .stmts body current next => ∀ b, current = some b → ∀ ds held,
        Follows F sig.params file (walkStmts body ds) (s.front b ds held) next.toList s'
    | .arms scrutinee list _ targets ends => ∀ e v x span, scrutinee = .var x v.ty span →
        Mirrors (F.site sig.params) file e v → ∀ d ds held, held x = some v →
        FollowsArm F sig.params file e v list targets ends s' d ds held

section

variable {cfg : Settings} {file : FileId} {sig : Signature} {task : Task} {s s1 s' F : State}
  {body elseBody rest thenBody : List Stmt} {t j exit : BlockId} {last elseEnd thenEnd : Option BlockId}
  {D : List BlockId} {name : String} {binding : Option String} {d : Diagnostic}

/-- A list of statements in a scope of its own. -/
theorem Task.leads_scoped (hl : s.Leads sig (t :: D) F) (hF : s1.leave.Extends F) :
    (Task.stmts body (some t) last).Leads F sig s.enter s1 := by
  have henter : Lowering.Moves {} sig 0 s (t :: D) s.enter (t :: D) := .single .enter hl.holds.owns rfl
  exact ⟨(hl.after henter hl.ext.enter).left (A := [t]), hF.of_leave⟩

theorem Task.Simulates.scoped (h : (Task.stmts body (some t) last).Simulates F file sig s.enter s1)
    (hl : s.Leads sig (t :: D) F) (hF : s1.leave.Extends F) (ds : List Nat) (held : Holdings) :
    Follows F sig.params file (walkStmts body ds) (s.front t ds held) last.toList s1.leave :=
  h (Task.leads_scoped hl hF) t rfl ds held

/-- It leaves the other open blocks as they are. -/
theorem Run.get?_scoped (h : Run cfg file sig (.stmts body (some t) last) s.enter s1) (hh : s.Holds sig 0 (t :: D))
    (hb : b ∈ D) : s1.leave.blocks.get? b = s.blocks.get? b := by
  have hscoped := Task.Moves.scoped (D := []) h.moves (hh.left (A := [t]))
  refine hscoped.kept b (hh.mem (.tail _ hb)).2 ?_
  rintro hmem
  obtain rfl := List.mem_singleton.mp hmem
  exact (List.nodup_cons.mp hh.owns.nodup).1 hb

/-- A branch in an open block, to two new ones. -/
theorem Tests.advance {params : List Parameter} {term : Terminator} (h : Tests cfg file params s e c s1)
    (ho : s.IsOpen b) (hF : (s1.addBlock.addBlock.close b term).Extends F) (ds : List Nat) (held : Holdings) :
    F.advance (s.front b ds held) = (s.front b ds held).leave term := by
  have hopen : s1.IsOpen b := ho.of_typing h.typing
  have hadv := advance_closed hopen.addBlock.addBlock hF ds held
  rwa [front_addBlock, front_addBlock, front_eq h.blocks_eq] at hadv

theorem simulates_letVar {ty : Option TypeExpr} {init : Option Expr} {id : TypeId} {value : Option Value}
    (hi : Initial cfg file sig.params s ty init id value s1) :
    (Task.stmt (.letVar name ty init span) b (some b)).Simulates F file sig s
      ((s1.declare b id name value).bind name s1.vars.next) := by
  rintro ⟨hl, hF⟩ ds held
  have h1 : Moves cfg sig 0 s [b] s1 [b] := .typing hi.typing hi.adds hl.holds.owns
  have hh1 := h1.holds hl.holds
  have hdecl : Moves cfg sig 0 s1 [b] (s1.declare b id name value) [b] := hh1.declare (.head _) name hi.fits
  have hF2 := hF.of_bind
  have hl1 := hl.after h1 ((hdecl.extends hh1).trans hF2)
  have hpath := path_declare hh1.sound hi.fits.lt hh1.isOpen hF2 ds held
  rw [State.front_eq (blocks_of_typing hi.typing)] at hpath
  cases hi with
  | declared _ => exact .goesOn (.head _) hpath (.cons .live .nil)
  | inferred hc | both _ hc _ =>
    exact .goesOn (.head _) hpath (agrees_declare (hc.gives hl1.clean (hl1.ext.site _)) name held)

theorem simulates_assign {nameSpan : Span} {v : VarId} {var : Variable} (hlookup : Scope.lookup? s.scopes name = some v)
    (hc : Checks cfg file sig.params s e value s1) (hvar : s1.vars.get? v = some var) :
    (Task.stmt (.assign name nameSpan e span) b (some b)).Simulates F file sig s (s1.append b (.store v value)) := by
  rintro ⟨hl, hF⟩ ds held
  have h1 : Moves cfg sig 0 s [b] s1 [b] := hc.moves hl.holds.owns
  have hh1 := h1.holds hl.holds
  have hl1 := hl.after h1 ((Extends.append hh1.sound hh1.isOpen _).trans hF)
  have hm := hc.gives hl1.clean (hl1.ext.site _)
  have hname : var.name = name := by
    obtain ⟨scope, hscope, hmem⟩ := mem_of_lookup? hlookup
    obtain ⟨var', hvar', hname⟩ := hl.holds.sound.scopes scope hscope _ hmem
    cases ((h1.extends hl.holds).vars v var' hvar').symm.trans hvar
    exact hname
  have hpath := path_store hh1.isOpen hF hvar ds held
  rw [State.front_eq hc.blocks_eq, hm.shownIn_eq, hname] at hpath
  exact .goesOn (.head _) hpath (.cons (.store (.expr hm)) .nil)

theorem simulates_ret {e : Option Expr} (hr : Returns cfg file sig.params span s e value s1) :
    (Task.stmt (.ret e span) b none).Simulates F file sig s (s1.close b (.ret value)) := by
  rintro ⟨hl, hF⟩ ds held
  have h1 : Moves cfg sig 0 s [b] s1 [b] := .typing hr.typing (hr.adds hl.holds.sound) hl.holds.owns
  have hh1 := h1.holds hl.holds
  have hl1 := hl.after h1 ((Extends.close hh1.sound hh1.isOpen _).trans hF)
  have hadv := advance_closed hh1.isOpen hF ds held
  rw [State.front_eq (blocks_of_typing hr.typing)] at hadv
  cases hr with
  | value hc => exact .stops hadv (.returned (.expr (hc.gives hl1.clean (hl1.ext.site _))))
  | unit => exact .stops hadv (.returned .unit)

theorem simulates_effect (hc : Checks cfg file sig.params s e value s1) :
    (Task.stmt (.expr e span) b (some b)).Simulates F file sig s (s1.declare b value.ty "_" (some value)) := by
  rintro ⟨hl, hF⟩ ds held
  have h1 : Moves cfg sig 0 s [b] s1 [b] := hc.moves hl.holds.owns
  have hh1 := h1.holds hl.holds
  have hdecl : Moves cfg sig 0 s1 [b] _ [b] := hh1.declare (.head _) "_" hc.fits
  have hl1 := hl.after h1 ((hdecl.extends hh1).trans hF)
  have hpath := path_declare hh1.sound hc.fits.lt hh1.isOpen hF ds held
  rw [State.front_eq hc.blocks_eq] at hpath
  exact .goesOn (.head _) hpath (agrees_declare (hc.gives hl1.clean (hl1.ext.site _)) "_" held)

theorem simulates_ifThen (ht : Tests cfg file sig.params s e c s1)
    (hteq : t = s1.blocks.next) (hjeq : j = s1.addBlock.blocks.next)
    (hs2 : s2 = s1.addBlock.addBlock.close b (.branch c t j))
    (hrun : Run cfg file sig (.stmts body (some t) last) s2.enter s3)
    (ih : (Task.stmts body (some t) last).Simulates F file sig s2.enter s3) :
    (Task.stmt (.ifElse e body none span) b (some j)).Simulates F file sig s (s3.leave.joined j last.toList) := by
  rintro ⟨hl, hF⟩ ds held
  have h1 : Moves cfg sig 0 s [b] s2 [t, j] := hs2 ▸ ht.moves_branch hl.holds hteq hjeq
  have hh2 := h1.holds hl.holds
  have h2 : Moves cfg sig 0 s2 [t, j] s3.leave (last.toList ++ [j]) := Task.Moves.scoped hrun.moves hh2
  have hh3 := h2.holds hh2
  have hF3 := (extends_joined j last.toList hh3.sound hh3.owns).trans hF
  have hF2 := (h2.extends hh2).trans hF3
  have hl2 := hl.after h1 hF2
  have htfill : s2.filled t = 0 := by rw [hs2, filled_close, filled_addBlock, filled_addBlock, hteq, filled_next]
  have hjfill : s3.leave.filled j = 0 := by
    rw [filled_of_get?_eq (hrun.get?_scoped hh2 (.head _)), hs2, filled_close, filled_addBlock, hjeq, filled_next]
  have hjfill' : (s3.leave.joined j last.toList).filled j = 0 := by rw [filled_joined, hjfill]
  subst hs2
  have hm := ht.gives hl2.clean (hl2.ext.site _)
  rw [walkStmt]
  refine Follows.test (ht.advance hl.holds.isOpen hF2 ds held) hm fun holds rest _ => ?_
  cases holds with
  | true =>
    rw [if_pos rfl, if_pos rfl, enter_eq_front htfill]
    exact (ih.scoped hl2 hF3 rest held).joined hh3 hF hjfill'
  | false =>
    rw [if_neg Bool.false_ne_true, if_neg Bool.false_ne_true, enter_eq_front hjfill']
    exact .goesOn (.head _) .here .nil

/-- Both branches of a conditional lead to `F`, and so does what comes behind them. -/
structure BranchesLead (sig : Signature) (F s₂ s₃ s₄ : State) (t f : BlockId) (thenEnd elseEnd : Option BlockId) :
    Prop where
  leads : s₂.Leads sig [t, f] F
  ext : s₃.leave.Extends F
  leadsElse : s₃.leave.Leads sig (f :: thenEnd.toList) F
  extElse : s₄.leave.Extends F
  holds : s₄.leave.Holds sig 0 (thenEnd.toList ++ elseEnd.toList ++ [])

section

variable (ht : Tests cfg file sig.params s e c s1) (hteq : t = s1.blocks.next) (hfeq : f = s1.addBlock.blocks.next)
  (hs2 : s2 = s1.addBlock.addBlock.close b (.branch c t f))
  (hthen : Run cfg file sig (.stmts thenBody (some t) thenEnd) s2.enter s3)
  (helse : Run cfg file sig (.stmts elseBody (some f) elseEnd) s3.leave.enter s4)
include ht hteq hfeq hs2 hthen helse

theorem Tests.branchesLead
    (hl : s.Leads sig [b] F) (hF : (s4.leave.meet (thenEnd.toList ++ elseEnd.toList)).2.Extends F) :
    BranchesLead sig F s2 s3 s4 t f thenEnd elseEnd := by
  have h1 : Moves cfg sig 0 s [b] s2 [t, f] := hs2 ▸ ht.moves_branch hl.holds hteq hfeq
  have hh2 := h1.holds hl.holds
  have h2 : Moves cfg sig 0 s2 [t, f] s3.leave (f :: thenEnd.toList) :=
    (Task.Moves.scoped hthen.moves hh2).perm List.perm_append_comm
  have hh3 := h2.holds hh2
  have h3 : Moves cfg sig 0 s3.leave (f :: thenEnd.toList) s4.leave (thenEnd.toList ++ elseEnd.toList ++ []) := by
    rw [List.append_nil]
    exact (Task.Moves.scoped helse.moves hh3).perm List.perm_append_comm
  have hh4 := h3.holds hh3
  have hF4 := hh4.extends_meet.trans hF
  have hF3 := (h3.extends hh3).trans hF4
  have hl2 := hl.after h1 ((h2.extends hh2).trans hF3)
  exact ⟨hl2, hF3, hl2.after h2 hF3, hF4, hh4⟩

theorem simulates_ifElse
    (ihThen : (Task.stmts thenBody (some t) thenEnd).Simulates F file sig s2.enter s3)
    (ihElse : (Task.stmts elseBody (some f) elseEnd).Simulates F file sig s3.leave.enter s4) :
    (Task.stmt (.ifElse e thenBody (some elseBody) span) b
      (s4.leave.meet (thenEnd.toList ++ elseEnd.toList)).1).Simulates F file sig s
      (s4.leave.meet (thenEnd.toList ++ elseEnd.toList)).2 := by
  rintro ⟨hl, hF⟩ ds held
  have hparts := ht.branchesLead hteq hfeq hs2 hthen helse hl hF
  have htfill : s2.filled t = 0 := by rw [hs2, filled_close, filled_addBlock, filled_addBlock, hteq, filled_next]
  have hffill : s3.leave.filled f = 0 := by
    rw [filled_of_get?_eq (hthen.get?_scoped hparts.leads.holds (.head _)), hs2, filled_close, filled_addBlock, hfeq,
      filled_next]
  subst hs2
  have hm := ht.gives hparts.leads.clean (hparts.leads.ext.site _)
  rw [walkStmt]
  refine Follows.test (ht.advance hl.holds.isOpen hparts.leads.ext ds held) hm fun holds rest _ => ?_
  cases holds with
  | true =>
    rw [if_pos rfl, if_pos rfl, enter_eq_front htfill]
    have hfollows := (ihThen.scoped hparts.leads hparts.ext rest held).kept (fun _ h => h) fun b hb =>
      helse.get?_scoped hparts.leadsElse.holds hb
    exact hfollows.meet (fun _ h => List.mem_append_left _ h) hparts.holds hF fun _ => filled_meeting
  | false =>
    rw [if_neg Bool.false_ne_true, if_neg Bool.false_ne_true, enter_eq_front hffill]
    exact (ihElse.scoped hparts.leadsElse hparts.extElse rest held).meet
      (fun _ h => List.mem_append_right _ h) hparts.holds hF fun _ => filled_meeting

end

/-- The rounds of a loop, from its head on. -/
theorem follows_loop {head : BlockId} {round : List Nat → Outcome}
    (hadv : ∀ ds held, F.advance ⟨head, 0, ds, held⟩ = Spot.leave ⟨head, 0, ds, held⟩ (.branch c t exit))
    (hm : Mirrors (F.site sig.params) file e c) (hexit : s'.filled exit = 0)
    (hround : ∀ ds held, Follows F sig.params file (round ds) ⟨t, 0, ds, held⟩ ends s1)
    (hback : ∀ b ∈ ends, ∀ ds held, F.context.Path (s1.front b ds held) [] ⟨head, 0, ds, held⟩) :
    ∀ (rounds : Nat) (ds : List Nat) (held : Holdings), ds.length < rounds →
      Follows F sig.params file (Outcome.loop e round rounds ds) ⟨head, 0, ds, held⟩ [exit] s'
  | n + 1, ds, held, hlt => by
    rw [Outcome.loop]
    refine Follows.test (hadv ds held) hm fun holds rest hrest => ?_
    cases holds with
    | true =>
      rw [if_pos rfl, if_pos rfl]
      refine (hround rest held).andThen fun b hb rest' held' hle => ?_
      have hlt' : rest'.length < n := by
        simp only at hle hrest
        omega
      exact (follows_loop hadv hm hexit hround hback n rest' held' hlt').coming (hback b hb rest' held')
    | false =>
      rw [if_neg Bool.false_ne_true, if_neg Bool.false_ne_true, enter_eq_front hexit]
      exact .goesOn (.head _) .here .nil

theorem simulates_while {head : BlockId} (ht : Tests cfg file sig.params s e c s1) (hheq : head = s1.blocks.next)
    (hteq : t = s1.addBlock.blocks.next) (hexit : exit = s1.addBlock.addBlock.blocks.next)
    (hs2 : s2 = (s1.addBlock.addBlock.addBlock.close b (.jump head)).close head (.branch c t exit))
    (hrun : Run cfg file sig (.stmts body (some t) last) s2.enter s3)
    (ih : (Task.stmts body (some t) last).Simulates F file sig s2.enter s3) :
    (Task.stmt (.whileLoop e body span) b (some exit)).Simulates F file sig s (s3.leave.joined head last.toList) := by
  rintro ⟨hl, hF⟩ ds held
  have hhead := (ht.moves_head hl.holds hheq hteq hexit).holds hl.holds
  have h1 : Moves cfg sig 0 s [b] s2 [t, exit] := hs2 ▸ ht.moves_loop hl.holds hheq hteq hexit
  have hh2 := h1.holds hl.holds
  have h2 : Moves cfg sig 0 s2 [t, exit] s3.leave (last.toList ++ [exit]) := Task.Moves.scoped hrun.moves hh2
  have hh3 := h2.holds hh2
  have hF3 := (extends_joined head last.toList hh3.sound hh3.owns).trans hF
  have hF2 := (h2.extends hh2).trans hF3
  have hl2 := hl.after h1 hF2
  have htfill : s2.filled t = 0 := by
    rw [hs2, filled_close, filled_close, filled_addBlock, filled_addBlock, hteq, filled_next]
  have hexitfill : (s3.leave.joined head last.toList).filled exit = 0 := by
    rw [filled_joined, filled_of_get?_eq (hrun.get?_scoped hh2 (.head _)), hs2, filled_close, filled_close,
      filled_addBlock, hexit, filled_next]
  -- the head has nothing but its branch
  have hheadfill : (s1.addBlock.addBlock.addBlock.close b (.jump head)).filled head = 0 := by
    rw [filled_close, filled_addBlock, filled_addBlock, filled_addBlock, hheq, filled_next]
  subst hs2
  have hFmid := (Extends.close hhead.sound hhead.isOpen _).trans hF2
  have hm := ht.gives hl2.clean (hl2.ext.site _)
  have hbopen : s1.IsOpen b := hl.holds.isOpen.of_typing ht.typing
  have hjump := advance_closed hbopen.addBlock.addBlock.addBlock hFmid ds held
  rw [front_addBlock, front_addBlock, front_addBlock, front_eq ht.blocks_eq] at hjump
  have hadv : ∀ ds held, F.advance ⟨head, 0, ds, held⟩ = Spot.leave ⟨head, 0, ds, held⟩ (.branch c t exit) := by
    intro ds held
    have hat := advance_closed hhead.isOpen hF2 ds held
    rwa [front_of_empty hheadfill] at hat
  have hround : ∀ ds held, Follows F sig.params file (walkStmts body ds) ⟨t, 0, ds, held⟩ last.toList s3.leave := by
    intro ds held
    have hfollows := ih.scoped hl2 hF3 ds held
    rwa [front_of_empty htfill] at hfollows
  have hback : ∀ b' ∈ last.toList, ∀ ds held, F.context.Path (s3.leave.front b' ds held) [] ⟨head, 0, ds, held⟩ :=
    fun b' hb' ds held => path_joined ds held last.toList hh3.sound hh3.owns hF hb'
  rw [walkStmt]
  exact Follows.coming (.step hjump) (follows_loop hadv hm hexitfill hround hback _ ds held (Nat.lt_succ_self _))

/-- A match, once its switch is there: the matched value is held by the variable that the
switch looks at. -/
theorem Matches.follows {fallback : BlockId} {other : List Nat → Outcome}
    (h : Matches cfg file sig.params s e v arms heads s1) (hscr : scrutinee = .var s1.vars.next v.ty v.span)
    (hl : s.Leads sig [b] F) (hF : (s1.declare b v.ty "match" (some v)).Extends F)
    (hadv : ∀ ds held, F.advance ((s1.declare b v.ty "match" (some v)).front b ds held) =
      ((s1.declare b v.ty "match" (some v)).front b ds held).leave (.switch scrutinee targets fallback))
    (harms : Mirrors (F.site sig.params) file e v → ∀ d rest held, held s1.vars.next = some v →
      FollowsArm F sig.params file e v arms targets ends s' d rest held)
    (hother : ∀ rest held, Follows F sig.params file (other rest) ⟨fallback, 0, rest, held⟩ ends s') (ds : List Nat)
    (held : Holdings) :
    Follows F sig.params file
      (Outcome.pick e (fun d rest => (walkArms e arms d rest).getD ((other rest).after [.pick (.expr e) none])) ds)
      (s.front b ds held) ends s' := by
  have h1 : Moves cfg sig 0 s [b] s1 [b] := h.moves hl.holds.owns
  have hh1 := h1.holds hl.holds
  have hdecl : Moves cfg sig 0 s1 [b] _ [b] := hh1.declare (.head _) "match" h.fits
  have hl1 := hl.after h1 ((hdecl.extends hh1).trans hF)
  have hm := h.gives hl1.clean (hl1.ext.site _)
  have hpath := path_declare hh1.sound h.fits.lt hh1.isOpen hF ds held
  rw [front_eq h.blocks_eq] at hpath
  have hholds : declaredHoldings held s1.vars.next (some v) s1.vars.next = some v := if_pos rfl
  refine Follows.after hpath (agrees_declare hm "match" held) ?_
  refine Follows.pick (hadv ds _) ?_ hm (fun d rest => harms hm d rest _ hholds) fun rest => hother rest _
  rw [hscr]
  exact congrArg (Option.getD · _) hholds

theorem simulates_match (hm : Matches cfg file sig.params s e v arms heads s1)
    (hscr : scrutinee = .var s1.vars.next v.ty v.span) (hs2 : s2 = s1.declare b v.ty "match" (some v))
    (hj : j = s2.blocks.next) (hrun : Run cfg file sig (.arms scrutinee arms heads targets ends) s2.addBlock s3)
    (ih : (Task.arms scrutinee arms heads targets ends).Simulates F file sig s2.addBlock s3) :
    (Task.stmt (.matchOn e arms none span) b (some j)).Simulates F file sig s
      ((s3.joined j ends).close b (.switch scrutinee targets j)) := by
  rintro ⟨hl, hF⟩ ds held
  have h1 : Moves cfg sig 0 s [b] s2 [b] := hs2 ▸ hm.moves_declare hl.holds
  have hh2 := h1.holds hl.holds
  have hnew : Moves cfg sig 0 s2 [b] s2.addBlock [j, b] := hj ▸ .addBlock hh2.owns
  have hhnew := hnew.holds hh2
  have hfits : Fits sig.params s2 scrutinee.ty (some scrutinee) := by
    rw [hscr, hs2]
    exact hm.fits_scrutinee
  have hfits' := hfits.extends (hnew.extends hh2) fun _ h => h
  obtain ⟨harms, -⟩ := hrun.moves hhnew.nil hfits'
  have h2 : Moves cfg sig 0 s2.addBlock [j, b] s3 (ends ++ [j, b]) := harms.frame hhnew.owns
  have hh3 := h2.holds hhnew
  obtain ⟨hlo, hlt⟩ := hh3.mem (b := j) (by simp)
  have hjoin : Moves cfg sig 0 s3 (ends ++ [j, b]) (s3.joined j ends) [j, b] := hh3.joined hlo hlt
  have hbopen := hjoin.owns.isOpen b (by simp)
  have hFj := (Extends.close (hjoin.holds hh3).sound hbopen _).trans hF
  have hF3 := (hjoin.extends hh3).trans hFj
  have hFnew := (h2.extends hhnew).trans hF3
  have hF2 := (hnew.extends hh2).trans hFnew
  have hlnew := (hl.after h1 hF2).after hnew hFnew
  -- the arms leave the block of the match and the join alone
  have hkept : ∀ d ∈ [j, b], s3.filled d = s2.filled d := fun d hd => by
    rw [filled_of_get?_eq (harms.kept d (hhnew.mem hd).2 (by simp)), filled_addBlock]
  have hjfill : ((s3.joined j ends).close b (.switch scrutinee targets j)).filled j = 0 := by
    rw [filled_close, filled_joined, hkept j (by simp), hj, filled_next]
  have hadv : ∀ ds held, F.advance (s2.front b ds held) =
      (s2.front b ds held).leave (.switch scrutinee targets j) := by
    intro ds held
    have hat := advance_closed hbopen hF ds held
    rwa [front_of_filled (by rw [filled_joined, hkept b (by simp)] : _ = s2.filled b)] at hat
  have hother : ∀ rest held, Follows F sig.params file (.goesOn [] rest) ⟨j, 0, rest, held⟩ [j]
      ((s3.joined j ends).close b (.switch scrutinee targets j)) := by
    intro rest held
    rw [← front_of_empty hjfill]
    exact .goesOn (.head _) .here .nil
  subst hs2
  rw [walkStmt]
  exact hm.follows hscr hl hF2 hadv
    (fun hmirrors d rest held hheld => (ih ⟨hlnew.left (A := []), hfits', hF3⟩ e v _ _ hscr hmirrors d rest held
      hheld).imp fun _ _ h => h.joined hh3 hFj hjfill) hother ds held

/-- The arms of a match and its fallback lead to `F`, and so does what comes behind them. -/
structure CasesLead (sig : Signature) (F s₂ s₃ s₄ : State) (scrutinee : Value) (b f : BlockId) (ends : List BlockId)
    (last : Option BlockId) : Prop where
  leads : s₂.Leads sig [b] F
  fits : Fits sig.params s₂ scrutinee.ty (some scrutinee)
  ext : s₃.Extends F
  arms : State.Yields s₂ [] s₃ ends
  leadsElse : s₃.addBlock.Leads sig (f :: (ends ++ [b])) F
  extElse : s₄.leave.Extends F
  holds : s₄.leave.Holds sig 0 ((ends ++ last.toList) ++ [b])
  isOpen : (s₄.leave.meet (ends ++ last.toList)).2.IsOpen b
  extEnds : (s₄.leave.meet (ends ++ last.toList)).2.Extends F

section

variable (hm : Matches cfg file sig.params s e v arms heads s1) (hscr : scrutinee = .var s1.vars.next v.ty v.span)
  (hs2 : s2 = s1.declare b v.ty "match" (some v))
  (harms : Run cfg file sig (.arms scrutinee arms heads targets ends) s2 s3) (hf : f = s3.blocks.next)
  (hrun : Run cfg file sig (.stmts body (some f) last) s3.addBlock.enter s4)
include hm hscr hs2 harms hf hrun

theorem Matches.casesLead
    (hl : s.Leads sig [b] F)
    (hF : ((s4.leave.meet (ends ++ last.toList)).2.close b (.switch scrutinee targets f)).Extends F) :
    CasesLead sig F s2 s3 s4 scrutinee b f ends last := by
  have h1 : Moves cfg sig 0 s [b] s2 [b] := hs2 ▸ hm.moves_declare hl.holds
  have hh2 := h1.holds hl.holds
  have hfits : Fits sig.params s2 scrutinee.ty (some scrutinee) := by
    rw [hscr, hs2]
    exact hm.fits_scrutinee
  obtain ⟨hcases, -⟩ := harms.moves hh2.nil hfits
  have h2 : Moves cfg sig 0 s2 [b] s3 (ends ++ [b]) := hcases.frame hh2.owns
  have hh3 := h2.holds hh2
  have hnew : Moves cfg sig 0 s3 (ends ++ [b]) s3.addBlock (f :: (ends ++ [b])) := hf ▸ .addBlock hh3.owns
  have hhnew := hnew.holds hh3
  have h3 : Moves cfg sig 0 s3.addBlock (f :: (ends ++ [b])) s4.leave ((ends ++ last.toList) ++ [b]) :=
    (Task.Moves.scoped hrun.moves hhnew).perm (by simpa using List.perm_append_comm_assoc last.toList ends [b])
  have hh4 := h3.holds hhnew
  have hmeet : Moves cfg sig 0 s4.leave _ (s4.leave.meet (ends ++ last.toList)).2 _ := hh4.meet
  have hbopen := hmeet.owns.isOpen b (by simp)
  have hFm := (Extends.close (hmeet.holds hh4).sound hbopen _).trans hF
  have hF4 := (hmeet.extends hh4).trans hFm
  have hFnew := (h3.extends hhnew).trans hF4
  have hF3 := (hnew.extends hh3).trans hFnew
  have hl2 := hl.after h1 ((h2.extends hh2).trans hF3)
  exact ⟨hl2, hfits, hF3, hcases.yields, (hl2.after h2 hF3).after hnew hFnew, hF4, hh4, hbopen, hFm⟩

theorem simulates_matchElse
    (ihArms : (Task.arms scrutinee arms heads targets ends).Simulates F file sig s2 s3)
    (ih : (Task.stmts body (some f) last).Simulates F file sig s3.addBlock.enter s4) :
    (Task.stmt (.matchOn e arms (some body) span) b (s4.leave.meet (ends ++ last.toList)).1).Simulates F file sig s
      ((s4.leave.meet (ends ++ last.toList)).2.close b (.switch scrutinee targets f)) := by
  rintro ⟨hl, hF⟩ ds held
  have hparts := hm.casesLead hscr hs2 harms hf hrun hl hF
  have howns3 := (hparts.arms.frame (D := [b]) hparts.leads.holds.owns).owns
  -- neither the arms nor the fallback touch the block of the match, nor the fallback the ends of the arms
  have hkept : ∀ d ∈ ends ++ [b], s4.leave.blocks.get? d = s3.blocks.get? d := fun d hd =>
    (hrun.get?_scoped hparts.leadsElse.holds hd).trans (Arena.get?_insert_of_lt (howns3.isOpen d hd).lt)
  have hbfill : (s4.leave.meet (ends ++ last.toList)).2.filled b = s2.filled b := by
    rw [filled_meet, filled_of_get?_eq (hkept b (by simp)),
      filled_of_get?_eq (hparts.arms.kept b hparts.leads.holds.isOpen.lt (by simp))]
  have hjfill : ∀ j ∈ (s4.leave.meet (ends ++ last.toList)).1.toList,
      ((s4.leave.meet (ends ++ last.toList)).2.close b (.switch scrutinee targets f)).filled j = 0 :=
    fun j hj => (filled_close _ b j _).trans (filled_meeting hj)
  have hffill : s3.addBlock.filled f = 0 := by rw [filled_addBlock, hf, filled_next]
  have hadv : ∀ ds held, F.advance (s2.front b ds held) =
      (s2.front b ds held).leave (.switch scrutinee targets f) := by
    intro ds held
    have hat := advance_closed hparts.isOpen hF ds held
    rwa [front_of_filled hbfill] at hat
  have hother : ∀ rest held, Follows F sig.params file (walkStmts body rest) ⟨f, 0, rest, held⟩
      (s4.leave.meet (ends ++ last.toList)).1.toList
      ((s4.leave.meet (ends ++ last.toList)).2.close b (.switch scrutinee targets f)) := by
    intro rest held
    rw [← front_of_empty hffill]
    exact (ih.scoped hparts.leadsElse hparts.extElse rest held).meet (fun _ h => List.mem_append_right _ h)
      hparts.holds hparts.extEnds hjfill
  subst hs2
  rw [walkStmt]
  refine hm.follows hscr hl hparts.leads.ext hadv (fun hmirrors d rest held hheld => ?_) hother ds held
  refine (ihArms ⟨hparts.leads.left (A := []), hparts.fits, hparts.ext⟩ e v _ _ hscr hmirrors d rest held
    hheld).imp fun _ _ h => ?_
  exact (h.kept (fun _ h => h) fun d hd => hkept d (List.mem_append_left _ hd)).meet
    (fun _ h => List.mem_append_left _ h) hparts.holds hparts.extEnds hjfill

end

/-- The payload of an arm gets its name. -/
theorem path_payload {x : VarId} {held : Holdings} (binding : Option String) (hs : s.Sound) (hb : b = s.blocks.next)
    (hscr : scrutinee = .var x v.ty span) (hheld : held x = some v) (hm : Mirrors (F.site sig.params) file e v)
    (hn : Names s.types file v.ty written head.variant ty)
    (hnF : Names F.types file v.ty written head.variant ty)
    (hF : (s.addBlock.enter.withPayload b scrutinee head ty binding).Extends F) (ds : List Nat) :
    ∃ actions held', F.context.Path ⟨b, 0, ds, held⟩ actions
        ((s.addBlock.enter.withPayload b scrutinee head ty binding).front b ds held') ∧
      List.Forall₂ (Action.Agrees (F.site sig.params) file) (payloadActions e written binding) actions := by
  have hempty : s.addBlock.enter.filled b = 0 := by
    change s.addBlock.filled b = 0
    rw [filled_addBlock, hb, filled_next]
  rw [← front_of_empty hempty ds held]
  cases binding with
  | none => exact ⟨[], held, .here, .nil⟩
  | some name =>
    obtain ⟨⟨variants, ⟨id, -, hsum⟩, hd⟩, -⟩ := hn
    have hty := (hs.types.proper_mention hsum rfl (List.mem_of_getElem? hd)).1
    have hopen : s.addBlock.IsOpen b := hb ▸ (Yields.addBlock (owns_nil s)).owns.isOpen _ (.head _)
    refine ⟨_, _, path_declare hs.addBlock.enter hty hopen hF.of_bind ds held, ?_⟩
    have hheldIn : scrutinee.heldIn held = v := by
      rw [hscr]
      exact congrArg (Option.getD · _) hheld
    simp only [declareActions, Value.shownIn, hheldIn]
    exact .cons .live (.cons (.store (.payload hm hnF)) .nil)

/-- An arm leads to `F`, and so do the arms behind it. -/
structure ArmLeads (sig : Signature) (F s s₁ : State) (scrutinee : Value) (b : BlockId) (last : Option BlockId) :
    Prop where
  leads : s.Leads sig [b] F
  ext : s₁.leave.Extends F
  leadsRest : s₁.leave.leave.Leads sig last.toList F
  fits : Fits sig.params s₁.leave.leave scrutinee.ty (some scrutinee)

section

variable (hb : b = s.blocks.next) (hn : Names s.types file scrutinee.ty written head.variant ty)
  (hrun : Run cfg file sig (.stmts body (some b) last) (s.addBlock.enter.withPayload b scrutinee head ty binding).enter s1)
  (hrest : Run cfg file sig (.arms scrutinee arms heads targets ends) s1.leave.leave s2)
include hb hn hrun hrest

theorem Run.armLeads
    (hl : s.Leads sig [] F) (hfits : Fits sig.params s scrutinee.ty (some scrutinee)) (hF : s2.Extends F) :
    ArmLeads sig F (s.addBlock.enter.withPayload b scrutinee head ty binding) s1 scrutinee b last := by
  have hpayload : Moves cfg sig 0 s [] _ [b] := hl.holds.payload hb hfits hn binding
  have hhb := hpayload.holds hl.holds
  have hbody : Moves cfg sig 0 _ [b] s1.leave last.toList :=
    (Task.Moves.scoped (D := []) hrun.moves hhb).perm (by rw [List.append_nil])
  have harm : Moves cfg sig 0 s [] s1.leave.leave last.toList :=
    (hpayload.trans hbody).trans (.single .leave hbody.owns rfl)
  have hh1 := harm.holds hl.holds
  have hfits1 := hfits.extends (harm.extends hl.holds) fun _ h => by rwa [SameDepth.leave_arm hrun.keeps]
  obtain ⟨hothers, -⟩ := hrest.moves hh1.nil hfits1
  have hF1 := (hothers.extends hh1.nil).trans hF
  have hFp := (hbody.extends hhb).trans hF1.of_leave
  exact ⟨hl.after hpayload hFp, hF1.of_leave, hl.after harm hF1, hfits1⟩

theorem simulates_arm
    (ih : (Task.stmts body (some b) last).Simulates F file sig
      (s.addBlock.enter.withPayload b scrutinee head ty binding).enter s1)
    (ihRest : (Task.arms scrutinee arms heads targets ends).Simulates F file sig s1.leave.leave s2) :
    (Task.arms scrutinee (⟨written, binding, body, span⟩ :: arms) (head :: heads) ((head.variant, b) :: targets)
      (last.toList ++ ends)).Simulates F file sig s s2 := by
  rintro ⟨hl, hfits, hF⟩ e v x xspan hscr hm d ds held hheld
  have hparts := Run.armLeads hb hn hrun hrest hl hfits hF
  cases d with
  | zero =>
    have hnv : Names s.types file v.ty written head.variant ty := by rwa [hscr] at hn
    have hnF := hnv.grows hl.ext.types.grows
    refine ⟨written, ty, (walkStmts body ds).after (payloadActions e written binding), ?_, hnF, ?_⟩
    · rw [walkArms, Outcome.after_after]
      rfl
    · obtain ⟨actions, held', hpath, hag⟩ := path_payload binding hl.holds.sound hb hscr hheld hm hnv hnF hparts.leads.ext ds
      refine Follows.after hpath hag ?_
      refine (ih.scoped hparts.leads hparts.ext ds held').kept (fun _ h => List.mem_append_left _ h) fun b' hb' => ?_
      obtain ⟨hothers, -⟩ := hrest.moves hparts.leadsRest.holds.nil hparts.fits
      exact hothers.kept b' (hparts.leadsRest.holds.mem hb').2 (by simp)
  | succ d =>
    have hfollows := ihRest ⟨hparts.leadsRest.left (A := []), hparts.fits, hF⟩ e v x xspan hscr hm d ds held hheld
    exact hfollows.imp fun _ _ h => h.kept (fun _ hmem => List.mem_append_right _ hmem) fun _ _ => rfl

end

/-- A statement was refused because of an error. -/
theorem Run.refusal (h : Run cfg file sig (.refusal x d) s s1) : d.isError = true ∧ s1.errors = s.errors := by
  cases h with
  | refused _ hd | refusedLet _ hd => exact ⟨hd, rfl⟩

/-- A statement and those behind it lead to `F`. -/
theorem Run.leads_step {next : Option BlockId} (hx : Run cfg file sig (.stmt x b next) s s1)
    (hrest : Run cfg file sig (.stmts rest next last) s1 s2) (hl : s.Leads sig [b] F) (hF : s2.Extends F) :
    s1.Leads sig next.toList F := by
  have h1 : Moves cfg sig 0 s [b] s1 next.toList := hx.moves hl.holds
  have h2 : Moves cfg sig 0 s1 next.toList s2 last.toList := hrest.moves (h1.holds hl.holds)
  exact hl.after h1 ((h2.extends (h1.holds hl.holds)).trans hF)

/-- What comes behind a refused statement does not lead to `F`: there is an error more. -/
theorem Run.not_leads_skip (hx : Run cfg file sig (.refusal x d) s s1)
    (hrest : Run cfg file sig (.stmts rest (some b) last) (s1.reported cfg d) s2) (hl : s.Leads sig [b] F) :
    ¬ s2.Extends F := by
  intro hF
  obtain ⟨hd, herr⟩ := hx.refusal
  have h1 : Moves cfg sig 0 s [b] (s1.reported cfg d) [b] := hx.moves _ hl.holds.owns
  have hh1 := h1.holds hl.holds
  have h2 : Moves cfg sig 0 (s1.reported cfg d) [b] s2 last.toList := hrest.moves hh1
  have hle := ((h2.extends hh1).trans hF).errors
  have hmore : (s1.reported cfg d).errors = s1.errors + 1 := if_pos hd
  have := hl.errors
  omega

/-- Whatever was lowered without an error walks like the source. -/
theorem Run.simulates (hlimit : ¬ F.AtLimit cfg) (h : Run cfg file sig task s s') :
    task.Simulates F file sig s s' := by
  induction h with
  | letVar hi => exact simulates_letVar hi
  | assign hlookup hc hvar _ => exact simulates_assign hlookup hc hvar
  | ret hr _ => exact simulates_ret hr
  | effect hc => exact simulates_effect hc
  | @block s s1 body span b next _ ih =>
    rintro ⟨hl, hF⟩ ds held
    rw [walkStmt]
    exact ih.scoped hl hF ds held
  | ifThen ht hteq hjeq hs2 hrun ih => exact simulates_ifThen ht hteq hjeq hs2 hrun ih
  | ifElse ht hteq hfeq hs2 hthen helse ihThen ihElse =>
    exact simulates_ifElse ht hteq hfeq hs2 hthen helse ihThen ihElse
  | whileLoop ht hheq hteq hexit hs2 hrun ih => exact simulates_while ht hheq hteq hexit hs2 hrun ih
  | matchFailed hc hty =>
    rintro ⟨hl, hF⟩
    exact absurd hty (hc.clean (hl.after (hc.moves hl.holds.owns) hF).clean)
  | matchOn hm hscr hs2 hj hrun ih => exact simulates_match hm hscr hs2 hj hrun ih
  | matchElse hm hscr hs2 harms hf hrun ihArms ih => exact simulates_matchElse hm hscr hs2 harms hf hrun ihArms ih
  | refused | refusedLet => exact fun _ => trivial
  | done =>
    rintro - b rfl ds held
    exact .goesOn (.head _) .here .nil
  | limit hat =>
    rintro ⟨hl, -⟩
    exact absurd ⟨hat.1, hl.errors ▸ hat.2⟩ hlimit
  | unreachable =>
    rintro - b hb
    cases hb
  | step _ hx hrest ih ihRest =>
    rintro ⟨hl, hF⟩ _ ⟨⟩ ds held
    have hl1 := Run.leads_step hx hrest hl hF
    rw [walkStmts]
    refine (ih ⟨hl, hl1.ext⟩ ds held).andThen fun b' hb' rest held' _ => ?_
    exact ihRest ⟨hl1, hF⟩ b' (Option.mem_toList.mp hb') rest held'
  | skip _ _ hx hrest _ _ =>
    rintro ⟨hl, hF⟩
    exact absurd hF (Run.not_leads_skip hx hrest hl)
  | noArms =>
    rintro - e v x span - - d ds held -
    rfl
  | arm hb hn hrun hrest ih ihRest => exact simulates_arm hb hn hrun hrest ih ihRest

end

/-! ## (2) Bodies -/

/-- The arguments are stored one after the other. -/
theorem path_params {file : FileId} {sig : Signature} {F : State} {entry : BlockId} (ds : List Nat) :
    ∀ (rest : List Parameter) (index : Nat) {s : State}, s.Holds sig 0 [entry] → sig.params.drop index = rest →
    (∀ p ∈ sig.params, s.types.Proper p.ty) → (s.withParams entry span index rest).Extends F → ∀ held,
    ∃ actions held', F.context.Path (s.front entry ds held) actions
        ((s.withParams entry span index rest).front entry ds held') ∧
      List.Forall₂ (Action.Agrees (F.site sig.params) file) (paramActions index rest) actions
  | [], _, _, _, _, _, _, held => ⟨[], held, .here, .nil⟩
  | { ty := _, name := none } :: rest, index, s, hh, hdrop, hp, hF, held => by
    refine path_params ds rest (index + 1) hh ?_ hp hF held
    rw [← List.drop_drop, hdrop]
    rfl
  | { ty, name := some name } :: rest, index, s, hh, hdrop, hp, hF, held => by
    have hget := getElem?_of_drop hdrop
    have hfits := fits_param hh.sound hget hp span
    have hbound : Moves {} sig 0 s [entry] _ [entry] := hh.bound (.head _) name hfits
    have hh1 := hbound.holds hh
    have hproper := fun p hmem => (hp p hmem).grows (hbound.extends hh).types.grows
    have hdrop' : sig.params.drop (index + 1) = rest := by
      rw [← List.drop_drop, hdrop]
      rfl
    have hrest : Moves {} sig 0 _ [entry] (s.withParams entry span index ({ ty, name := some name } :: rest)) [entry] :=
      hh1.withParams rest (index + 1) hdrop' hproper
    have hF1 := ((hrest.extends hh1).trans hF).of_bind
    obtain ⟨actions, held', hpath, hag⟩ := path_params ds rest (index + 1) hh1 hdrop' hproper hF _
    have hgives : Origin.Gives (F.site sig.params) file (.argument index) (.arg index ty span) :=
      .argument (p := { ty, name := some name }) hget
    exact ⟨_, held', (path_declare hh.sound hfits.lt hh.isOpen hF1 ds held).trans hpath, .cons .live (.cons (.store hgives) hag)⟩

section

variable {cfg : Settings} {fn : FunId} {f : Function} {body : List Stmt} {last : Option BlockId} {s s1 s' : State}

theorem Finish.extends (h : Finish cfg f last s s') (hs : s.Sound) (ho : s.Owns last.toList) : s.Extends s' := by
  cases h with
  | left | limit => exact .refl hs
  | @unit _ b _ => exact .close hs (ho.isOpen b (.head _)) _
  | @missing _ b ty =>
    have hreport : Effects cfg f.signature 0 s (s.reported cfg (missingReturn f.file f ty)) := .single .report
    exact Effects.extends hreport hs

/-- Where the end of a body is reached without an error, nothing is returned. -/
theorem Finish.advance (h : Finish cfg f last s s') (hs : s.Sound) (ho : s.Owns last.toList) (hlimit : ¬ s.AtLimit cfg)
    (herr : s'.errors = s.errors) (hb : b ∈ last.toList) (ds : List Nat) (held : Holdings) :
    s'.advance (s.front b ds held) = .ends (.returned (.unit .unit ⟨f.span.stop, f.span.stop⟩)) := by
  cases h with
  | left => cases hb
  | unit =>
    obtain rfl := List.mem_singleton.mp hb
    exact advance_closed (ho.isOpen b hb) (.refl (hs.changeBlock b _)) ds held
  | limit hat => exact absurd hat hlimit
  | missing =>
    have hmore : s.errors + 1 = s.errors := herr
    omega

theorem State.leads_started {F : State} (hs : s.Sound) (hf : s.funs.get? fn = some f) (hclean : s.Clean)
    (hF : (s.started fn f).Extends F) (herr : F.errors = s.errors) :
    (s.started fn f).Leads f.signature [s.blocks.next] F := by
  have hstart : Moves {} f.signature _ _ _ (s.started fn f) _ := hs.moves_started hf
  have hle : s.errors ≤ (s.started fn f).errors := (hstart.extends (hs.holds_begun hf)).errors
  have hle' := hF.errors
  have herr' : (s.started fn f).errors = s.errors := by omega
  exact ⟨(Ready.started hs hf).holds hstart.owns, Effects.clean hstart.effects (hs.begun hf) herr' hclean, hF,
    herr.trans herr'.symm⟩

section

variable (h : BodyRun cfg fn f body last s s1 s') (hs : s.Sound) (hf : s.funs.get? fn = some f) (hclean : s.Clean)
  (hlimit : ¬ s.AtLimit cfg) (herr : s'.errors = s.errors) (ds : List Nat) (held : Holdings)
include h hs hf hclean hlimit herr held

/-- The blocks of a body without an error go along with it. -/
theorem BodyRun.follows :
    Follows s' f.signature.params f.file ((walkStmts body ds).after (paramActions 0 f.signature.params))
      ⟨s.blocks.next, 0, ds, held⟩ last.toList s1 := by
  have hh := (h.stmts.moves_body hs hf).holds (hs.holds_begun hf)
  have hF := (h.finish.extends hh.sound hh.owns).of_leave.of_leave
  have hstart : Moves cfg f.signature _ _ _ (s.started fn f) _ := hs.moves_started hf
  have hhstart := hstart.holds (hs.holds_begun hf)
  have hFstart := ((h.stmts.moves hhstart).extends hhstart).trans hF
  have hhenter : (s.begun fn f).enter.Holds f.signature 0 [s.blocks.next] :=
    ⟨(hs.begun hf).enter, hhstart.result_ne, Nat.zero_le _, .single (isOpen_of_get?_eq (hs.holds_begun hf).isOpen rfl),
      fun _ _ => Nat.zero_le _⟩
  have hempty : (s.begun fn f).enter.filled s.blocks.next = 0 := by
    change s.addBlock.filled s.blocks.next = 0
    rw [filled_addBlock, filled_next]
  have hproper : ∀ p ∈ f.signature.params, (s.begun fn f).enter.types.Proper p.ty := fun p hp =>
    hs.signatures fn f hf p.ty (.tail _ (List.mem_map_of_mem hp))
  obtain ⟨actions, held', hpath, hag⟩ :=
    path_params ds f.signature.params 0 hhenter rfl hproper hFstart.of_enter held
  rw [front_of_empty hempty] at hpath
  refine Follows.after hpath hag ?_
  have hlimit' : ¬ s'.AtLimit cfg := fun hat => hlimit ⟨hat.1, herr ▸ hat.2⟩
  have hl := State.leads_started hs hf hclean hFstart herr
  exact h.stmts.simulates hlimit' ⟨hl, hF⟩ _ rfl ds held'

/-- So do the walks as a whole. -/
theorem BodyRun.walks : ∃ walk n, s'.walk n ⟨s.blocks.next, 0, ds, held⟩ = some walk ∧
      (walkBody f.signature.params body ds).Agrees (s'.site f.signature.params) f.file walk := by
  have hfollows := h.follows hs hf hclean hlimit herr ds held
  rw [walkBody]
  split
  · rename_i actions rest ho
    rw [ho] at hfollows
    obtain ⟨b, hb, actions', held', hpath, hag⟩ := hfollows
    have hstmts := h.stmts.moves_body hs hf
    have hh := hstmts.holds (hs.holds_begun hf)
    have hbefore : s.errors ≤ s1.leave.leave.errors := (hstmts.extends (hs.holds_begun hf)).errors
    have hbehind := (h.finish.extends hh.sound hh.owns).errors
    have herr1 : s1.leave.leave.errors = s.errors := by omega
    have hadv := h.finish.advance hh.sound hh.owns (fun hat => hlimit ⟨hat.1, herr1 ▸ hat.2⟩) (herr.trans herr1.symm) hb
    obtain ⟨n, hn⟩ := hpath.walk (hadv rest held')
    exact ⟨_, n, hn, hag, .returned .unit⟩
  · rename_i walk ho
    rw [ho] at hfollows
    obtain ⟨actions', w', ending, hpath, hadv, hag⟩ := hfollows
    obtain ⟨n, hn⟩ := hpath.walk hadv
    exact ⟨_, n, hn, hag⟩

end

/-- A function whose body is lowered without an error walks like its source. -/
theorem lowerFunBody_walk (hs : s.Sound) (hf : s.context.funs.get? fn = some f) (hmax : cfg.maxErrors = 0)
    (hscopes : s.scopes = []) (hrun : lowerFunBody cfg fn body s = .ok ⟨⟩ s') (herr : s'.errors = s.errors)
    (decisions : List Nat) :
    ∃ f' graph walk n, s'.context.funs.get? fn = some f' ∧ f'.body = some graph ∧
      (∀ steps, n ≤ steps → s'.context.walk steps ⟨graph.entry, 0, decisions, fun _ => none⟩ = some walk) ∧
      (walkBody f.signature.params body decisions).Agrees (s'.context.site f.signature.params) f.file walk := by
  have hlimit : ¬ s.AtLimit cfg := fun hat => hat.1 hmax
  have hclean : s.Clean := by
    rw [State.Clean, hscopes]
    exact List.forall_mem_nil _
  obtain ⟨last, s₁, s₂, hbody, journal, rfl⟩ := (lowerFunBody_runs hs hf hlimit body).result hrun
  obtain ⟨walk, n, hwalk, hagrees⟩ := hbody.walks hs hf hclean hlimit herr decisions fun _ => none
  have hfn := (hbody.get?_fun hs hf fn).trans (if_pos rfl)
  exact ⟨_, _, walk, n, hfn, rfl, fun _ hle => Context.walk_of_le hwalk hle, hagrees⟩

end

/-- Nothing but one function, which takes a value of a type. -/
def State.taking (types : TypeTable) (ty : TypeId) : State :=
  State.addFun { context := { types } } ⟨"f", ⟨[⟨ty, some "x"⟩], TypeId.i32⟩, 0, .none, none, {}⟩

theorem State.Sound.taking {types : TypeTable} (ht : types.Sound) (hty : types.Proper ty) :
    (State.taking types ty).Sound := by
  have hbare : State.Bare { context := { types } } := ⟨ht, rfl, rfl, rfl, rfl, rfl, rfl⟩
  exact hbare.opening.sound.addFun
    (List.forall_mem_cons.mpr ⟨ht.proper_prim (by decide), List.forall_mem_singleton.mpr hty⟩)

/-- The primitive types, and one that is a number or a truth value. -/
def sampleTypes : TypeTable := (TypeTable.fresh.insert (.sum [TypeId.i32, TypeId.bool])).2

def sampleBody : List Stmt :=
  [.whileLoop (.bool true .none)
    [.matchOn (.name "x" .none) [⟨.int ⟨true, .w32⟩ .none, some "n", [.ret (some (.name "n" .none)) .none], .none⟩]
      (some [.expr (.name "x" .none) .none]) .none] .none,
   .ret (some (.int 0 none .none)) .none]

theorem sampleBody_walk : ∃ s', lowerFunBody {} ⟨0⟩ sampleBody (.taking sampleTypes ⟨13⟩) = .ok ⟨⟩ s' ∧
    ∃ f' graph walk n, s'.context.funs.get? ⟨0⟩ = some f' ∧ f'.body = some graph ∧
      (∀ steps, n ≤ steps → s'.context.walk steps ⟨graph.entry, 0, [0, 1, 0, 0], fun _ => none⟩ = some walk) ∧
      (walkBody [⟨⟨13⟩, some "x"⟩] sampleBody [0, 1, 0, 0]).Agrees (s'.context.site [⟨⟨13⟩, some "x"⟩]) 0 walk := by
  have htypes : sampleTypes.Sound := TypeTable.fresh_sound.insert (by simp) (by decide) (by decide)
  have hsound : (State.taking sampleTypes ⟨13⟩).Sound := .taking htypes ⟨by decide +kernel, by decide⟩
  have hrun : (match lowerFunBody {} ⟨0⟩ sampleBody (.taking sampleTypes ⟨13⟩) with
      | .ok _ s => s.errors == 0
      | .error _ _ => false) = true := by decide +kernel
  split at hrun
  · rename_i s' h
    exact ⟨s', h, lowerFunBody_walk hsound rfl rfl rfl h (eq_of_beq hrun) [0, 1, 0, 0]⟩
  · cases hrun

/-- One number is returned if the value matches nothing, and another one behind the match. -/
def fallbackBody : List Stmt :=
  [.matchOn (.name "x" .none) [] (some [.ret (some (.int 1 none .none)) .none]) .none,
   .ret (some (.int 2 none .none)) .none]

/-- A match on a value of the type `invalid` is no error, but there is nothing of it in the
blocks. -/
theorem invalid_match_dropped : ∃ s', lowerFunBody {} ⟨0⟩ fallbackBody (.taking .fresh TypeId.invalid) = .ok ⟨⟩ s' ∧
    s'.errors = 0 ∧ ¬ ∃ f' graph walk n, s'.context.funs.get? ⟨0⟩ = some f' ∧ f'.body = some graph ∧
      (∀ steps, n ≤ steps → s'.context.walk steps ⟨graph.entry, 0, [0], fun _ => none⟩ = some walk) ∧
      (walkBody [⟨TypeId.invalid, some "x"⟩] fallbackBody [0]).Agrees
        (s'.context.site [⟨TypeId.invalid, some "x"⟩]) 0 walk := by
  obtain ⟨s', hrun, herr, hgraph, actions, hblocks⟩ : ∃ s',
      lowerFunBody {} ⟨0⟩ fallbackBody (.taking .fresh TypeId.invalid) = .ok ⟨⟩ s' ∧ s'.errors = 0 ∧
      (s'.funs.get? ⟨0⟩).bind (·.body) = some ⟨⟨0⟩, ⟨0⟩⟩ ∧
      ∃ actions, s'.walk 3 ⟨⟨0⟩, 0, [0], fun _ => none⟩ =
        some ⟨actions, .returned (.int 2 TypeId.i32 .none)⟩ := ⟨_, rfl, rfl, rfl, _, rfl⟩
  refine ⟨s', hrun, herr, ?_⟩
  rintro ⟨f', graph, walk, n, hf', hbody, hwalk, -, hending⟩
  obtain rfl : (⟨⟨0⟩, ⟨0⟩⟩ : Body) = graph := by
    rw [hf', Option.bind_some, hbody] at hgraph
    exact (Option.some.inj hgraph).symm
  have heq := (Context.walk_of_le hblocks (Nat.le_add_left 3 n)).symm.trans (hwalk (n + 3) (Nat.le_add_right n 3))
  obtain rfl := Option.some.inj heq
  -- the source returns the other number
  cases hending with
  | returned hgives =>
    cases hgives with
    | expr hmirrors => cases hmirrors

end BlockCompiler.Lowering
