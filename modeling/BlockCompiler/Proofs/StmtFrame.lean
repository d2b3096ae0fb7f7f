/-
  BlockCompiler.Proofs.StmtFrame — what lowering a statement leaves alone, in whatever state.

  (1) What is checked changes types and the journal only, and types are only added
      (`State.Learns`). All that can reject a statement is checked before anything is built, so
      a rejected statement leaves the rest of the state as it was; only the name of a rejected
      variable is bound (`Undone`, `rejected_stmt_changes_nothing`).
  (2) However lowering ends, what was there stays: types, variables, functions and the statements
      of blocks (`State.Preserves`).
  (3) A lowering that goes on has closed the block it was given, unless it goes on there; other
      blocks are as they were (`State.Framed`). Scopes are left as they were found, but for the
      names that a statement adds to the innermost one (`lowering_frame`).
-/
import BlockCompiler.Proofs.Builds
import BlockCompiler.Proofs.Stmt

namespace BlockCompiler.Lowering

open Surface (Expr TypeExpr Stmt Arm)
open TypeTable (Grows insert_grows)
open State

/-! ## (1) Rejected statements -/

/-- A rejected statement leaves blocks, functions and diagnostics as they were, and types are only
added. So do variables and scopes stay, unless it is a variable that is rejected: then one
variable of the type `invalid` is added, and its name is bound in the innermost scope. -/
theorem rejected_stmt_changes_nothing {cfg : Settings} {file : FileId} {fn : FunId} {x : Stmt} {b : BlockId}
    {s s' : State} {d : Diagnostic} (h : (lowerStmt cfg file fn x b).run s = .ok (.error d) s') :
    s'.context.blocks = s.context.blocks ∧ s'.context.funs = s.context.funs ∧ s'.functions = s.functions ∧
      s'.diags = s.diags ∧ s'.errors = s.errors ∧ s.context.types.Grows s'.context.types ∧
      (∀ name ty init span, x = .letVar name ty init span →
        s'.context.vars = s.context.vars.insert { ty := TypeId.invalid, name } ∧
        ∃ scope rest, s.scopes = scope :: rest ∧ s'.scopes = ((name, s.vars.next) :: scope) :: rest) ∧
      ((∀ name ty init span, x ≠ .letVar name ty init span) →
        s'.vars = s.vars ∧ s'.scopes = s.scopes) := by
  have hundone : Undone s x s' := (lowerStmt_builds cfg file fn x b s _ _ h).2
  have hlearns : s.Learns s' → s'.blocks = s.blocks ∧ s'.funs = s.funs ∧
      s'.functions = s.functions ∧ s'.diags = s.diags ∧ s'.errors = s.errors ∧
      s.types.Grows s'.types ∧ s'.vars = s.vars ∧ s'.scopes = s.scopes := by
    intro hl
    refine ⟨?_, ?_, ?_, ?_, ?_, hl.grows, ?_, ?_⟩ <;> rw [hl.typing] <;> rfl
  cases x with
  | letVar name ty init span =>
    obtain ⟨s₁, hl, hsc, rfl⟩ := hundone
    obtain ⟨scope, rest, hscopes⟩ := List.exists_cons_of_ne_nil hsc
    have hs₁ : s₁.scopes = scope :: rest := by rw [hl.typing]; exact hscopes
    have hvars : s₁.vars = s.vars := by rw [hl.typing]; rfl
    refine ⟨?_, ?_, ?_, ?_, ?_, hl.grows, fun name' ty' init' span' heq => ?_, fun hne => absurd rfl (hne _ _ _ _)⟩
    case refine_6 =>
      cases heq
      refine ⟨congrArg (fun vars : Arena .variable Variable => vars.insert { ty := TypeId.invalid, name }) hvars,
        scope, rest, hscopes, ?_⟩
      simp only [State.poisoned, State.bind, State.addVar, hs₁, hvars]
    all_goals
      rw [hl.typing]
      rfl
  | _ =>
    obtain ⟨hblocks, hfuns, hfunctions, hdiags, herrors, hgrows, hvars, hscopes⟩ := hlearns hundone
    refine ⟨hblocks, hfuns, hfunctions, hdiags, herrors, hgrows, fun _ _ _ _ heq => ?_, fun _ => ⟨hvars, hscopes⟩⟩
    cases heq

/-- A scope without names and an open block. -/
def emptyScope : State := ({} : State).enter.addBlock

/-- `let x: *i32 = y`, where `y` is not known. -/
def rejectedLet : Stmt := .letVar "x" (some (.ptr (.int ⟨true, .w32⟩ .none) .none)) (some (.name "y" .none)) .none

theorem rejectedLet_changes_nothing : ∃ d s', (lowerStmt {} 0 ⟨0⟩ rejectedLet ⟨0⟩).run emptyScope = .ok (.error d) s' ∧
    s'.context.blocks = emptyScope.context.blocks ∧ s'.diags = #[] ∧
    s'.context.vars = emptyScope.context.vars.insert ⟨TypeId.invalid, "x"⟩ ∧ s'.scopes = [[("x", ⟨0⟩)]] := by
  have hrun : ∃ d s', (lowerStmt {} 0 ⟨0⟩ rejectedLet ⟨0⟩).run emptyScope = .ok (.error d) s' := ⟨_, _, rfl⟩
  obtain ⟨d, s', hrun⟩ := hrun
  obtain ⟨hblocks, -, -, hdiags, -, -, hlet, -⟩ := rejected_stmt_changes_nothing hrun
  obtain ⟨hvars, scope, rest, hscopes, hbound⟩ := hlet _ _ _ _ rfl
  cases hscopes
  exact ⟨d, s', hrun, hblocks, hdiags, hvars, hbound⟩

/-! ## (2) What was there stays -/

/-- Types, variables, functions and the statements of blocks are those that were there, and maybe
more. -/
structure State.Preserves (s s' : State) : Prop where
  types : s.types.Grows s'.types
  vars : ∀ v var, s.vars.get? v = some var → s'.vars.get? v = some var
  funs : s'.funs = s.funs
  functions : s'.functions = s.functions
  stmts : ∀ b block, s.blocks.get? b = some block → ∃ block', s'.blocks.get? b = some block' ∧
    block.stmts.toList <+: block'.stmts.toList

namespace State.Preserves

variable {s s1 : State}

theorem refl (s : State) : s.Preserves s :=
  ⟨Grows.refl _, fun _ _ h => h, rfl, rfl, fun _ block h => ⟨block, h, List.prefix_refl _⟩⟩

theorem changeBlock (h : s.Preserves s1) {b : BlockId} {f : Block → Block}
    (hf : ∀ block, block.stmts.toList <+: (f block).stmts.toList) : s.Preserves (s1.changeBlock b f) := by
  refine { h with stmts := fun b' block hb => ?_ }
  obtain ⟨block', hb', hprefix⟩ := h.stmts b' block hb
  simp only [State.changeBlock, Arena.get?_modify]
  split
  · rename_i heq
    rw [← heq, hb']
    exact ⟨f block', rfl, hprefix.trans (hf block')⟩
  · exact ⟨block', hb', hprefix⟩

instance (s : State) : KeptByLowering Any s.Preserves where
  typing s₁ := ⟨fun h _ _ => { h with types := h.types.trans (insert_grows _ _) }, fun _ h => { h with }⟩
  scopes _ h := { h with }
  addBlock h := by
    refine { h with stmts := fun b block hb => ?_ }
    obtain ⟨block', hb', hprefix⟩ := h.stmts b block hb
    exact ⟨block', (Arena.get?_insert_of_lt (Arena.get?_lt hb')).trans hb', hprefix⟩
  addVar h _ := { h with vars := fun v var hv => get?_addVar (h.vars v var hv) }
  append h := h.changeBlock fun block => ⟨[_], by rw [Array.toList_push]⟩
  close h _ := h.changeBlock fun block => List.prefix_refl _
  report _ _ _ _ h := { h with }

end State.Preserves

/-! ## (3) The block that is written to -/

namespace State

/-- What lowering into the block `b` has done, if it goes on at `next`: other blocks are as they
were, `next` is open and is `b` or new, and `b` is closed unless it is `next`. -/
structure Framed (s : State) (b : BlockId) (next : Option BlockId) (s' : State) : Prop extends s.Preserves s' where
  others : ∀ b', b'.index < s.blocks.size → b' ≠ b → s'.blocks.get? b' = s.blocks.get? b'
  goesOn : ∀ n, next = some n → s'.IsOpen n ∧ (n = b ∨ s.blocks.size ≤ n.index)
  closed : next ≠ some b → s'.IsClosed b

theorem Framed.of_yields {s s' : State} {b : BlockId} {next : Option BlockId} (hp : s.Preserves s') (ho : s.IsOpen b)
    (h : Yields s [b] s' next.toList) : s.Framed b next s' := by
  refine { hp with others := fun b' hlt hne => h.kept b' hlt (by simpa using hne), goesOn := ?_, closed := fun hne => ?_ }
  · rintro n rfl
    refine ⟨h.owns.isOpen n (by simp), ?_⟩
    simpa using h.origin n (by simp)
  · refine h.closed b (.inl (.head _)) (Nat.lt_of_lt_of_le ho.lt h.size_le) fun hmem => hne ?_
    simpa using hmem

end State

section

variable {cfg : Settings} {file : FileId} {fn : FunId} {s s' : State} {b : BlockId}

theorem lowerStmt_framed (ho : s.IsOpen b) (x : Stmt) : Answers (lowerStmt cfg file fn x b) s
    (fun next s' => s.SameDepth s' ∧ s.Framed b next s') fun _ s' => s.SameDepth s' ∧ s.Framed b (some b) s' := by
  have hkeeps : KeepsT s.Preserves (lowerStmt cfg file fn x b) Any :=
    keepsT_lowerStmt (fun _ _ => trivial) cfg file fn x b fun _ _ => trivial
  intro r s' hrun
  have hpreserves : s.Preserves s' := by
    have hkept := hkeeps s (.refl s)
    rw [hrun] at hkept
    exact hkept.1
  have hanswer := lowerStmt_builds cfg file fn x b s r s' hrun
  cases r with
  | ok next =>
    have hbuilds : Builds (.line b next) s s' := hanswer
    exact ⟨Widens.sameDepth hbuilds.widens, .of_yields hpreserves ho (hbuilds.covers (.single ho)).yields⟩
  | error d =>
    have hdrops : Drops s x d s' := hanswer
    rcases hdrops.2.idle with hidle | ⟨name, s1, hidle, rfl⟩
    · exact ⟨.of_eq hidle.scopes, .of_yields hpreserves ho (.of_blocks_eq (.single ho) hidle.blocks)⟩
    · refine ⟨.trans (.of_eq hidle.scopes) ?_, .of_yields hpreserves ho (.of_blocks_eq (.single ho) hidle.blocks)⟩
      exact SameDepth.bind (s1.addVar .invalid name) name s1.vars.next

theorem lowerBlock_framed (ho : s.IsOpen b) (body : List Stmt) : Whenever (lowerBlock cfg file fn body b) s
    fun next s' => s'.scopes = s.scopes ∧ s.Framed b next s' := by
  have hkeeps : Keeps s.Preserves (lowerBlock cfg file fn body b) Any :=
    keeps_inScope (keeps_lowerStmts (fun _ _ => trivial) cfg file fn body _ fun _ _ => trivial)
  have hbuilds : Whenever (lowerBlock cfg file fn body b) s fun next s' =>
      s'.scopes = s.scopes ∧ Yields s [b] s' next.toList :=
    whenever_inScope ((lowerStmts_builds cfg file fn body b s.enter).mono fun next s1 hb =>
      ⟨Widens.leave_eq hb.widens, (Part.Covers.scoped hb.covers (.single ho)).yields⟩)
  intro next s' hrun
  obtain ⟨hscopes, hyields⟩ := hbuilds next s' hrun
  have hkept := hkeeps s (.refl s)
  rw [hrun] at hkept
  exact ⟨hscopes, .of_yields hkept.1 ho hyields⟩

theorem checking_learns (e : Expr) :
    Whenever (checking cfg file fun env => lowerExpr env e) s fun _ s' => s.Learns s' :=
  (Keeps.whenever (keepsT_checkedExpr cfg file e) (Learns.refl s)).mono fun _ _ h => h.1

end

/-- Lowering a statement or a block into the open block `b` leaves everything alone but `b`, and
scopes as it found them, but for the names that a statement adds to the innermost one. Lowering an
expression only adds types. In a sound state all three give a result. -/
theorem lowering_frame {s : State} {b : BlockId} (ho : s.IsOpen b) (cfg : Settings) (file : FileId) (fn : FunId) :
    (∀ x r s', (lowerStmt cfg file fn x b).run s = .ok r s' → s.SameDepth s' ∧
      (∀ next, r = .ok next → s.Framed b next s') ∧ ∀ d, r = .error d → s.Framed b (some b) s') ∧
    (∀ body next s', lowerBlock cfg file fn body b s = .ok next s' → s'.scopes = s.scopes ∧ s.Framed b next s') ∧
    (∀ e r s', checking cfg file (fun env => lowerExpr env e) s = .ok r s' → s.Learns s') ∧
    ∀ sig, s.Ready fn sig → (∀ x, ∃ r s', (lowerStmt cfg file fn x b).run s = .ok r s') ∧
      (∀ body, ∃ next s', lowerBlock cfg file fn body b s = .ok next s') ∧
      ∀ e, ∃ r s', checking cfg file (fun env => lowerExpr env e) s = .ok r s' := by
  refine ⟨fun x r s' hrun => ?_, fun body next s' hrun => lowerBlock_framed ho body next s' hrun,
    fun e r s' hrun => checking_learns e r s' hrun, fun sig hr => ⟨fun x => ?_, fun body => ?_, fun e => ?_⟩⟩
  · have hframed := lowerStmt_framed ho x r s' hrun
    cases r with
    | ok next =>
      refine ⟨hframed.1, fun n hn => ?_, fun d hd => ?_⟩
      · cases hn
        exact hframed.2
      · cases hd
    | error d =>
      refine ⟨hframed.1, fun n hn => ?_, fun d' hd => hframed.2⟩
      cases hn
  · obtain ⟨r, s', hrun, -⟩ := lowerStmt_runs cfg file fn sig x hr (.single ho)
    exact ⟨r, s', hrun⟩
  · have hends : Ends (lowerBlock cfg file fn body b) s fun _ _ => True :=
      inScope_runs (D := []) hr (.single ho) (fun hr ho => lowerStmts_runs cfg file fn sig body hr ho)
        fun _ _ _ _ _ => trivial
    obtain ⟨next, s', hrun, -⟩ := hends
    exact ⟨next, s', hrun⟩
  · have hjudges : Judges (checked cfg file fun env => lowerExpr env e) s (Checks cfg file sig.params s e) (Rejects s) :=
      checked_lowerExpr sig.params hr.sound e
    obtain ⟨r, s', hrun, -⟩ := hjudges
    exact ⟨r, s', hrun⟩

/-- `if true { let x = 1; }`, which goes on in a new block. -/
def plainIf : Stmt := .ifElse (.bool true .none) [.letVar "x" none (some (.int 1 none .none)) .none] none .none

theorem plainIf_frame : ∃ s', (lowerStmt {} 0 ⟨0⟩ plainIf ⟨0⟩).run emptyScope = .ok (.ok (some ⟨2⟩)) s' ∧
    emptyScope.SameDepth s' ∧ s'.IsOpen ⟨2⟩ ∧ s'.IsClosed ⟨0⟩ := by
  have ho : emptyScope.IsOpen ⟨0⟩ := ⟨{}, rfl, rfl⟩
  have hrun : ∃ s', (lowerStmt {} 0 ⟨0⟩ plainIf ⟨0⟩).run emptyScope = .ok (.ok (some ⟨2⟩)) s' := ⟨_, rfl⟩
  obtain ⟨s', hrun⟩ := hrun
  obtain ⟨hdepth, hframed, -⟩ := (lowering_frame ho {} 0 ⟨0⟩).1 plainIf _ s' hrun
  exact ⟨s', hrun, hdepth, ((hframed _ rfl).goesOn _ rfl).1, (hframed _ rfl).closed (by decide)⟩

end BlockCompiler.Lowering
