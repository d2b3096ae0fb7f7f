/-
  BlockCompiler.Proofs.Builds — how lowering builds a graph, in whatever state.

  `Run` follows the source, and needs a sound state. `Builds part s s'` forgets the source and
  needs nothing: it says which blocks, variables and edges a lowering that ended has made. A
  `line` starts in an open block and goes on in another one, or nowhere; the `arms` of a match
  start in new blocks and end in the blocks that are left open. Values are plain
  (`Value.Plain`): they read variables in force, and no argument and no payload.

  (1) The rules.
  (2) Lowering that ends builds, and what is rejected has only added types (`lowerStmt_builds`,
      `lowerStmts_builds`).
  (3) What building does to open blocks (`Builds.covers`), to scopes (`Builds.widens`) and to
      the rest of the state (`Builds.onward`).
-/
import BlockCompiler.Proofs.Development
import BlockCompiler.Proofs.Ways

namespace BlockCompiler.Lowering

open State.Covers (of_size_eq)
open Surface (Expr TypeExpr Stmt Arm)
open TypeTable (Grows insert_grows)
open State

variable {s s' s'' : State} {x : VarId}
  {scrutinee : Value} {head : ArmHead} {binding : Option String} {b : BlockId} {last : Option BlockId}

/-! ## (1) The rules -/

namespace State

/-- Only types, the log and the diagnostics changed. -/
structure Idle (s s' : State) : Prop where
  blocks : s'.blocks = s.blocks
  vars : s'.vars = s.vars
  funs : s'.funs = s.funs
  scopes : s'.scopes = s.scopes
  errors : s.errors ≤ s'.errors

theorem Idle.refl (s : State) : s.Idle s := ⟨rfl, rfl, rfl, rfl, Nat.le_refl _⟩

theorem Idle.trans {s' : State} (h : s.Idle s') (h' : s'.Idle s'') : s.Idle s'' :=
  ⟨h'.blocks.trans h.blocks, h'.vars.trans h.vars, h'.funs.trans h.funs, h'.scopes.trans h.scopes,
    Nat.le_trans h.errors h'.errors⟩

theorem Idle.reported (s : State) (cfg : Settings) (d : Diagnostic) : s.Idle (s.reported cfg d) := by
  refine ⟨rfl, rfl, rfl, rfl, ?_⟩
  simp only [State.reported]
  split <;> omega

theorem Idle.inForce (h : s.Idle s') : s'.InForce x ↔ s.InForce x := by
  unfold InForce
  rw [h.scopes]

/-- Only types and the journal changed, and types were only added. -/
structure Learns (s s' : State) : Prop where
  typing : s' = s.withTyping s'.typing
  grows : s.types.Grows s'.types

theorem Learns.refl (s : State) : s.Learns s := ⟨rfl, Grows.refl _⟩

theorem Learns.idle (h : s.Learns s') : s.Idle s' := by
  rw [h.typing]
  exact ⟨rfl, rfl, rfl, rfl, Nat.le_refl _⟩

instance (s : State) : KeptByChecking s.Learns where
  typing s₁ := by
    have hsame : ∀ {st st' : Typing}, s.Learns (s₁.withTyping st) → s₁.withTyping st' = s.withTyping st' := by
      intro st st' h
      have he := congrArg (fun s₂ : State => s₂.withTyping st') h.typing
      exact he
    exact ⟨fun h _ _ => ⟨hsame h, h.grows.trans (insert_grows _ _)⟩, fun _ h => ⟨hsame h, h.grows⟩⟩

end State

/-- What is built. -/
inductive Part where
  /-- From the block `b` on, and where control goes on behind it. -/
  | line (b : BlockId) (next : Option BlockId)
  | arms (scrutinee : Value) (targets : List (VariantId × BlockId)) (ends : List BlockId)

inductive Builds : Part → State → State → Prop
  | idle {s s' : State} {b : BlockId} : s.Idle s' → Builds (.line b (some b)) s s'
  /-- A rejected variable. -/
  | poison {cfg : Settings} {s : State} {b : BlockId} {name : String} {d : Diagnostic} : d.isError = true →
      Builds (.line b (some b)) s ((s.poisoned name).reported cfg d)
  | seq {s s₁ s₂ : State} {b c : BlockId} {next : Option BlockId} : Builds (.line b (some c)) s s₁ →
      Builds (.line c next) s₁ s₂ → Builds (.line b next) s s₂
  /-- What follows a line that does not go on is not built. -/
  | stop {s s₁ s₂ : State} {b : BlockId} : Builds (.line b none) s s₁ → s₁.Idle s₂ → Builds (.line b none) s s₂
  | letVar {s : State} {b : BlockId} {ty : TypeId} {name : String} {value : Option Value} :
      (∀ v ∈ value, v.Plain s.InForce) →
      Builds (.line b (some b)) s ((s.declare b ty name value).bind name s.vars.next)
  | effect {s : State} {b : BlockId} {v : Value} : v.Plain s.InForce →
      Builds (.line b (some b)) s (s.declare b v.ty "_" (some v))
  | assign {s : State} {b : BlockId} {x : VarId} {v : Value} : s.InForce x → v.Plain s.InForce →
      Builds (.line b (some b)) s (s.append b (.store x v))
  | ret {s : State} {b : BlockId} {v : Value} : v.Plain s.InForce → Builds (.line b none) s (s.close b (.ret v))
  | block {s s₁ : State} {b : BlockId} {next : Option BlockId} : Builds (.line b next) s.enter s₁ →
      Builds (.line b next) s s₁.leave
  | ifThen {s s₁ s₂ : State} {b t j : BlockId} {c : Value} {last : Option BlockId} : c.Plain s.InForce →
      t = s.blocks.next → j = s.addBlock.blocks.next →
      s₁ = s.addBlock.addBlock.close b (.branch c t j) → Builds (.line t last) s₁.enter s₂ →
      Builds (.line b (some j)) s (s₂.leave.joined j last.toList)
  | ifElse {s s₁ s₂ s₃ : State} {b t f : BlockId} {c : Value} {thenEnd elseEnd : Option BlockId} :
      c.Plain s.InForce → t = s.blocks.next → f = s.addBlock.blocks.next →
      s₁ = s.addBlock.addBlock.close b (.branch c t f) → Builds (.line t thenEnd) s₁.enter s₂ →
      Builds (.line f elseEnd) s₂.leave.enter s₃ →
      Builds (.line b (s₃.leave.meet (thenEnd.toList ++ elseEnd.toList)).1) s
        (s₃.leave.meet (thenEnd.toList ++ elseEnd.toList)).2
  | loop {s s₁ s₂ : State} {b head t exit : BlockId} {c : Value} {last : Option BlockId} : c.Plain s.InForce →
      head = s.blocks.next → t = s.addBlock.blocks.next →
      exit = s.addBlock.addBlock.blocks.next →
      s₁ = (s.addBlock.addBlock.addBlock.close b (.jump head)).close head (.branch c t exit) →
      Builds (.line t last) s₁.enter s₂ → Builds (.line b (some exit)) s (s₂.leave.joined head last.toList)
  | matchOn {s s₁ s₂ : State} {b j : BlockId} {v scrutinee : Value} {targets : List (VariantId × BlockId)}
      {ends : List BlockId} : v.Plain s.InForce → scrutinee = .var s.vars.next v.ty v.span →
      s₁ = s.declare b v.ty "match" (some v) → j = s₁.blocks.next →
      Builds (.arms scrutinee targets ends) s₁.addBlock s₂ →
      Builds (.line b (some j)) s ((s₂.joined j ends).close b (.switch scrutinee targets j))
  | matchElse {s s₁ s₂ s₃ : State} {b f : BlockId} {v scrutinee : Value} {targets : List (VariantId × BlockId)}
      {ends : List BlockId} {last : Option BlockId} : v.Plain s.InForce →
      scrutinee = .var s.vars.next v.ty v.span → s₁ = s.declare b v.ty "match" (some v) →
      Builds (.arms scrutinee targets ends) s₁ s₂ → f = s₂.blocks.next →
      Builds (.line f last) s₂.addBlock.enter s₃ →
      Builds (.line b (s₃.leave.meet (ends ++ last.toList)).1) s
        ((s₃.leave.meet (ends ++ last.toList)).2.close b (.switch scrutinee targets f))
  | noArms {s : State} {scrutinee : Value} : Builds (.arms scrutinee [] []) s s
  | arm {s s₁ s₂ : State} {scrutinee : Value} {binding : Option String} {head : ArmHead} {b : BlockId} {ty : TypeId}
      {last : Option BlockId} {targets : List (VariantId × BlockId)} {ends : List BlockId} :
      b = s.blocks.next →
      Builds (.line b last) (s.addBlock.enter.withPayload b scrutinee head ty binding).enter s₁ →
      Builds (.arms scrutinee targets ends) s₁.leave.leave s₂ →
      Builds (.arms scrutinee ((head.variant, b) :: targets) (last.toList ++ ends)) s s₂

/-! ## (2) Lowering builds -/

section

variable {cfg : Settings} {file : FileId} {s : State}

/-- A value was lowered. -/
def Evaluates (s : State) (v : Value) (s' : State) : Prop := s.Learns s' ∧ v.Plain s'.InForce

theorem inForce_of_seen (h : s.Learns s') (hx : Seen s.Learns x) : s'.InForce x := by
  obtain ⟨s1, h1, hx⟩ := hx
  exact h.idle.inForce.mpr (h1.idle.inForce.mp hx)

/-- A part of a statement was rejected. -/
def Fails (s : State) (d : Diagnostic) (s' : State) : Prop := d.isError = true ∧ s.Learns s'

theorem evaluates_of_keepsT {act : StmtM Value} (h : KeepsT s.Learns act (Value.Plain (Seen s.Learns))) :
    Answers act s (Evaluates s) (Fails s) :=
  (h.answers (.refl s)).mono (fun _ _ h => ⟨h.1, h.2.mono fun _ => inForce_of_seen h.1⟩) fun _ _ h => ⟨h.2.isError, h.1⟩

@[simp] theorem whenever_typeName (id : TypeId) (Q : String → State → Prop) :
    Whenever (typeName id) s Q ↔ ∀ name, s.types.name id = .ok name → Q name s := by
  simp only [typeName, whenever_onTyping, whenever_nameOf]
  exact Iff.rfl

/-! ### Steps on the graph -/

variable {b : BlockId}

theorem whenever_inScope {α : Type} {act : LowerM α} {Q : α → State → Prop}
    (h : Whenever act s.enter fun a s' => Q a s'.leave) : Whenever (inScope act) s Q := by
  simp only [inScope, whenever_bind, whenever_pushScope, whenever_popScope, whenever_pure]
  exact h.mono fun a s1 h1 _ => h1

theorem whenever_scrutinize {value : Value} {Q : Value → State → Prop}
    (h : Q (.var s.vars.next value.ty value.span) (s.declare b value.ty "match" (some value))) :
    Whenever (scrutinize value b) s Q := by
  simp only [scrutinize, whenever_bind, whenever_newVar, whenever_emit, whenever_pure]
  exact fun _ _ => h

theorem whenever_bindPayload {Q : PUnit → State → Prop} (h : ∀ ty, Q ⟨⟩ (s.withPayload b scrutinee head ty binding)) :
    Whenever (bindPayload b scrutinee head binding) s Q := by
  cases binding with
  | none => exact (whenever_pure _).mpr (h .invalid)
  | some name =>
    simp only [bindPayload, whenever_bind, whenever_ask, whenever_newVar, whenever_emit, whenever_bindName]
    exact fun ty _ _ _ _ => h ty

theorem whenever_joinAll (join : BlockId) {Q : PUnit → State → Prop} : ∀ (ends : List BlockId) {s : State},
    Q ⟨⟩ (s.joined join ends) → Whenever (joinAll join ends) s Q
  | [], _, h => (whenever_pure _).mpr h
  | b :: rest, s, h => by
    simp only [joinAll, whenever_bind, whenever_terminate]
    exact fun _ => whenever_joinAll join rest h

theorem whenever_joinEnds {ends : List BlockId} {Q : Option BlockId → State → Prop}
    (h : Q (s.meet ends).1 (s.meet ends).2) : Whenever (joinEnds ends) s Q := by
  cases ends with
  | nil => exact (whenever_pure _).mpr h
  | cons e ends =>
    simp only [joinEnds, whenever_bind, whenever_newBlock]
    exact whenever_joinAll _ _ ((whenever_pure _).mpr h)

/-! ### Statements -/

/-- What a rejected statement has done: the name of a variable is bound all the same. -/
def Undone (s : State) : Stmt → State → Prop
  | .letVar name _ _ _, s' => ∃ s₁, s.Learns s₁ ∧ s.scopes ≠ [] ∧ s' = s₁.poisoned name
  | _, s' => s.Learns s'

theorem Undone.idle {x : Stmt} (h : Undone s x s') : s.Idle s' ∨ ∃ name s1, s.Idle s1 ∧ s' = s1.poisoned name := by
  cases x with
  | letVar name ty init span =>
    obtain ⟨s1, hs1, -, heq⟩ := h
    exact .inr ⟨name, s1, hs1.idle, heq⟩
  | _ => exact .inl (Learns.idle h)

/-- The statement was rejected. -/
def Drops (s : State) (x : Stmt) (d : Diagnostic) (s' : State) : Prop := d.isError = true ∧ Undone s x s'

theorem Builds.after {s1 s2 : State} {next : Option BlockId} (h : s.Idle s1) (hb : Builds (.line b next) s1 s2) :
    Builds (.line b next) s s2 := .seq (.idle h) hb

theorem lowerLet_builds (name : String) (ty : Option TypeExpr) (init : Option Expr) (span : Span) :
    Answers (lowerLet cfg file name ty init span b) s (fun next s' => Builds (.line b next) s s')
      (Drops s (.letVar name ty init span)) := by
  simp only [lowerLet, answers_bind, answers_attempt]
  refine ((keepsT_letValue cfg file name ty init span).answers (Learns.refl s)).mono (fun r s1 h1 => ?_)
    fun d s1 h1 => ?_
  · obtain ⟨id, value⟩ := r
    have hbuilds : Builds (.line b (some b)) s ((s1.declare b id name value).bind name s1.vars.next) :=
      .after h1.1.idle (.letVar fun v hv => (h1.2 v hv).mono fun _ => inForce_of_seen h1.1)
    cases value with
    | none =>
      simp only [answers_bind, answers_pure, answers_lift, whenever_newVar, whenever_emit, whenever_bindName]
      exact fun _ _ => hbuilds
    | some e =>
      simp only [answers_bind, answers_pure, answers_lift, whenever_newVar, whenever_emit, whenever_bindName]
      exact fun _ _ _ => hbuilds
  · simp only [poison, answers_lift, whenever_bind, whenever_newVar, whenever_bindName, answers_throw]
    exact fun hscopes => ⟨h1.2.isError, s1, h1.1, h1.1.idle.scopes ▸ hscopes, rfl⟩

theorem lowerAssign_builds (name : String) (nameSpan : Span) (e : Expr) :
    Answers (lowerAssign cfg file name nameSpan e b) s (fun next s' => Builds (.line b next) s s') (Fails s) := by
  simp only [lowerAssign, answers_bind, answers_lift, whenever_lookup?]
  split
  · exact (answers_throw _).mpr ⟨rfl, .refl s⟩
  · rename_i x hx
    simp only [answers_bind]
    refine (evaluates_of_keepsT (keepsT_checkedExpr cfg file e)).mono (fun v s1 h => ?_) fun _ _ h => h
    have hforce : s1.InForce x := by
      obtain ⟨scope, hscope, hmem⟩ := mem_of_lookup? hx
      exact h.1.idle.inForce.mpr ⟨scope, hscope, name, hmem⟩
    rw [answers_lift, whenever_ask]
    intro var _
    split
    · simp only [answers_bind, answers_pure, answers_lift, whenever_emit]
      exact fun _ => .after h.1.idle (.assign hforce h.2)
    · simp only [answers_bind, answers_lift, answers_throw]
      exact ((keeps_mismatch _ _ _ _ _).whenever h.1).mono fun d s2 h2 => ⟨h2.2.isError, h2.1⟩

theorem lowerReturn_builds (fn : FunId) (value : Option Expr) (span : Span) :
    Answers (lowerReturn cfg file fn value span b) s (fun next s' => Builds (.line b next) s s') (Fails s) := by
  simp only [lowerReturn, answers_bind, answers_lift, whenever_ask]
  intro f _
  have hfinish : ∀ v s1, Evaluates s v s1 → Answers (if assignable f.signature.result v.ty then do
        terminate b (.ret v)
        return none
      else do throw (← mismatch file v.span "return type" f.signature.result v.ty) : StmtM (Option BlockId)) s1
      (fun next s' => Builds (.line b next) s s') (Fails s) := by
    intro v s1 h
    split
    · simp only [answers_bind, answers_pure, answers_lift, whenever_terminate]
      exact fun _ => .after h.1.idle (.ret h.2)
    · simp only [answers_bind, answers_lift, answers_throw]
      exact ((keeps_mismatch _ _ _ _ _).whenever h.1).mono fun d s2 h2 => ⟨h2.2.isError, h2.1⟩
  cases value with
  | none => exact hfinish _ s ⟨.refl s, .leaf rfl trivial⟩
  | some e =>
    simp only [answers_bind]
    exact (evaluates_of_keepsT (keepsT_checkedExpr cfg file e)).mono (fun v s1 h => hfinish v s1 h) fun _ _ h => h

theorem lowerStmts_none (fn : FunId) (body : List Stmt) :
    Whenever (lowerStmts cfg file fn body none) s fun next s' => next = none ∧ s.Idle s' := by
  cases body with
  | nil =>
    simp only [lowerStmts, whenever_pure]
    exact ⟨trivial, .refl s⟩
  | cons x rest =>
    simp only [lowerStmts, whenever_bind, whenever_limitReached]
    split
    · exact (whenever_pure _).mpr ⟨rfl, .refl s⟩
    · simp only [whenever_bind, whenever_report, whenever_pure]
      exact ⟨trivial, .reported s cfg _⟩

section

variable (cfg : Settings) (file : FileId) (fn : FunId)

mutual

theorem lowerStmt_builds : ∀ (x : Stmt) (b : BlockId) (s : State),
    Answers (lowerStmt cfg file fn x b) s (fun next s' => Builds (.line b next) s s') (Drops s x)
  | .letVar name ty init span, b, s => by
    rw [lowerStmt]
    exact lowerLet_builds name ty init span
  | .assign name nameSpan value _, b, s => by
    rw [lowerStmt]
    exact lowerAssign_builds name nameSpan value
  | .ret value span, b, s => by
    rw [lowerStmt]
    exact lowerReturn_builds fn value span
  | .expr value _, b, s => by
    simp only [lowerStmt, lowerEffect, answers_bind]
    refine (evaluates_of_keepsT (keepsT_checkedExpr cfg file value)).mono (fun v s1 h => ?_) fun _ _ h => h
    simp only [answers_lift, whenever_newVar, whenever_emit, answers_pure]
    exact fun _ _ => .after h.1.idle (.effect h.2)
  | .block body _, b, s => by
    rw [lowerStmt, answers_lift]
    exact whenever_inScope ((lowerStmts_builds body b s.enter).mono fun _ _ h => .block h)
  | .ifElse c thenBody elseBody _, b, s => by
    rcases elseBody with _ | elseBody
    all_goals
      simp only [lowerStmt, answers_bind]
      refine (evaluates_of_keepsT (keepsT_condition cfg file "If" c)).mono (fun v s1 h => ?_) fun _ _ h => h
      simp only [answers_lift, whenever_newBlock, whenever_terminate]
      intro _
      refine whenever_inScope ((lowerStmts_builds thenBody _ _).mono fun thenEnd s2 h2 => ?_)
    · refine whenever_joinAll _ _ ((answers_pure _).mpr ?_)
      exact .after h.1.idle (.ifThen h.2 rfl rfl rfl h2)
    · refine whenever_inScope ((lowerStmts_builds elseBody _ _).mono fun elseEnd s3 h3 => ?_)
      refine whenever_joinEnds ?_
      exact .after h.1.idle (.ifElse h.2 rfl rfl rfl h2 h3)
  | .whileLoop c body _, b, s => by
    simp only [lowerStmt, answers_bind]
    refine (evaluates_of_keepsT (keepsT_condition cfg file "While" c)).mono (fun v s1 h => ?_) fun _ _ h => h
    simp only [answers_lift, whenever_newBlock, whenever_terminate]
    intro _ _
    refine whenever_inScope ((lowerStmts_builds body _ _).mono fun last s2 h2 => ?_)
    refine whenever_joinAll _ _ ((answers_pure _).mpr ?_)
    exact .after h.1.idle (.loop h.2 rfl rfl rfl rfl h2)
  | .matchOn e arms fallback _, b, s => by
    rcases fallback with _ | fallback
    all_goals
      simp only [lowerStmt, answers_bind]
      refine (evaluates_of_keepsT (keepsT_matchedValue cfg file e)).mono (fun v s1 h => ?_) fun _ _ h => h
      split
      · exact (answers_pure _).mpr (.idle h.1.idle)
      simp only [answers_bind]
      refine ((keepsT_armHeads cfg file v arms []).answers h.1).mono (fun heads s2 h2 => ?_) fun _ _ h' =>
        ⟨h'.2.isError, h'.1⟩
      have hplain : v.Plain s2.InForce := h.2.mono fun x hx => h2.1.idle.inForce.mpr (h.1.idle.inForce.mp hx)
      simp only [answers_lift, whenever_newBlock]
      refine whenever_scrutinize ?_
      refine (lowerArms_builds _ arms heads _).mono fun r s3 h3 => ?_
    · refine whenever_joinAll _ _ ?_
      simp only [whenever_terminate, answers_pure]
      exact fun _ => .after h2.1.idle (.matchOn hplain rfl rfl rfl h3)
    · refine whenever_inScope ((lowerStmts_builds fallback _ _).mono fun last s4 h4 => ?_)
      refine whenever_joinEnds ?_
      simp only [whenever_terminate, answers_pure]
      exact fun _ => .after h2.1.idle (.matchElse hplain rfl rfl h3 rfl h4)

theorem lowerStmts_builds :
    ∀ (body : List Stmt) (b : BlockId) (s : State),
      Whenever (lowerStmts cfg file fn body (some b)) s fun next s' => Builds (.line b next) s s'
  | [], b, s => by
    simp only [lowerStmts, whenever_pure]
    exact .idle (.refl s)
  | x :: rest, b, s => by
    simp only [lowerStmts, whenever_bind, whenever_limitReached]
    split
    · exact (whenever_pure _).mpr (.idle (.refl s))
    · simp only [whenever_bind]
      refine Whenever.mono (lowerStmt_builds x b s) fun r s1 h1 => ?_
      cases r with
      | error d =>
        have hdrops : Drops s x d s1 := h1
        simp only [whenever_bind, whenever_report]
        refine (lowerStmts_builds rest b _).mono fun next s2 h2 => ?_
        rcases hdrops.2.idle with hidle | ⟨name, s0, hidle, rfl⟩
        · exact .after (hidle.trans (.reported s1 cfg d)) h2
        · exact .after hidle (.seq (.poison hdrops.1) h2)
      | ok next =>
        have hbuilds : Builds (.line b next) s s1 := h1
        cases next with
        | none =>
          refine (lowerStmts_none fn rest).mono fun last s2 h2 => ?_
          obtain ⟨rfl, hidle⟩ := h2
          exact .stop hbuilds hidle
        | some c => exact (lowerStmts_builds rest c s1).mono fun _ _ h2 => .seq hbuilds h2

theorem lowerArms_builds (scrutinee : Value) :
    ∀ (arms : List Arm) (heads : List ArmHead) (s : State),
      Whenever (lowerArms cfg file fn scrutinee arms heads) s fun r s' => Builds (.arms scrutinee r.1 r.2) s s'
  | [], _, s | _ :: _, [], s => by
    simp only [lowerArms, whenever_pure]
    exact .noArms
  | ⟨_, binding, body, _⟩ :: arms, head :: heads, s => by
    simp only [lowerArms, whenever_bind, whenever_newBlock, whenever_pure]
    refine whenever_inScope ?_
    simp only [whenever_bind]
    refine whenever_bindPayload fun ty => whenever_inScope ?_
    refine (lowerStmts_builds body _ _).mono fun last s1 h1 => ?_
    exact (lowerArms_builds scrutinee arms heads _).mono fun r s2 h2 => .arm rfl h1 h2

end

end

end

/-! ## (3) What building keeps -/

section

variable {part : Part} {s s' : State}

/-- What building does to open blocks, and from where new blocks are reached. -/
def Part.Covers : Part → State → State → Prop
  | .line b next, s, s' => s.Owns [b] → State.Covers s [b] [b] s' next.toList
  | .arms _ targets ends, s, s' => State.Covers s [] (targets.map (·.2)) s' ends ∧ (targets.map (·.2)).Nodup ∧
      ∀ target ∈ targets, s.IsNew s' target.2

/-- A line in a scope of its own. -/
theorem Part.Covers.scoped (h : (Part.line b last).Covers s.enter s') (ho : s.Owns [b]) :
    State.Covers s [b] [b] s'.leave last.toList := by
  have h1 : State.Yields s [b] s.enter [b] := .of_blocks_eq ho rfl
  exact ((of_size_eq h1 rfl).andThen (h h1.owns)).same rfl

/-- The block of an arm, with its payload, up to the end of the arm. -/
theorem Part.Covers.arm {ty : TypeId} (hb : b = s.blocks.next)
    (h : (Part.line b last).Covers (s.addBlock.enter.withPayload b scrutinee head ty binding).enter s') :
    State.Covers s.addBlock [b] [b] s'.leave.leave last.toList := by
  have h1 : State.Yields s [] s.addBlock [b] := hb ▸ .addBlock (owns_nil s)
  have h2 : State.Yields s.addBlock [b] s.addBlock.enter [b] := .of_blocks_eq h1.owns rfl
  have h3 := h2.trans (.withPayload h2.owns (.head _) scrutinee head ty binding)
  have h4 : State.Yields s.addBlock [b] (s.addBlock.enter.withPayload b scrutinee head ty binding).enter [b] :=
    h3.same rfl
  exact ((of_size_eq h4 (size_withPayload _ _ _ _ _ _)).andThen (h h4.owns)).same rfl

theorem Builds.covers (h : Builds part s s') : part.Covers s s' := by
  induction h with
  | idle h => exact fun ho => .of_size_eq (.of_blocks_eq ho h.blocks) (by rw [h.blocks])
  | poison _ => exact fun ho => .of_size_eq (.of_blocks_eq ho rfl) rfl
  | seq _ _ ih ih' =>
    intro ho
    have h1 := ih ho
    exact h1.andThen (ih' h1.owns)
  | stop _ hidle ih => exact fun ho => (ih ho).same hidle.blocks
  | letVar _ =>
    intro ho
    exact .of_size_eq ((State.Yields.declare ho (.head _) _ _ _).same rfl) (size_declare _ _ _ _ _)
  | effect _ => exact fun ho => .of_size_eq (.declare ho (.head _) _ _ _) (size_declare _ _ _ _ _)
  | assign _ _ => exact fun ho => .of_size_eq (.append ho (.head _) _) (size_append _ _ _)
  | ret _ => exact fun ho => (of_size_eq (.refl ho) rfl).close _ (by simp [Terminator.successors])
  | block _ ih => exact fun ho => ih.scoped ho
  | @ifThen s s1 s2 b t j c last _ ht hj hs1 _ ih =>
    intro ho
    have h1 : State.Covers s [b] [b] s1 ([t] ++ [j]) := hs1 ▸ .branch ho c ht hj
    have h2 := h1.trans (ih.scoped h1.owns.left) fun _ => .inl
    refine h2.joined ⟨Nat.le_trans (Nat.le_succ _) (Nat.le_of_eq (by simp [hj])), ?_⟩
    exact (h2.owns.isOpen j (by simp)).lt
  | @ifElse s s1 s2 s3 b t f c thenEnd elseEnd _ ht hf hs1 _ _ ihThen ihElse =>
    intro ho
    have h1 : State.Covers s [b] [b] s1 ([t] ++ [f]) := hs1 ▸ .branch ho c ht hf
    have h2 := (h1.trans (ihThen.scoped h1.owns.left) fun _ => .inl).perm List.perm_append_comm
    have h3 := (h2.trans (ihElse.scoped h2.owns.left) fun _ => .inl).perm List.perm_append_comm
    exact h3.andThen (.meet h3.owns)
  | @loop s s1 s2 b head t exit c last _ hhead ht hexit hs1 _ ih =>
    intro ho
    have h1 : State.Covers s [b] [b] s1 ([t] ++ [exit]) := hs1 ▸ .loop ho c hhead ht hexit
    have h2 := h1.trans (ih.scoped h1.owns.left) fun _ => .inl
    have hlt : head.index < s1.enter.blocks.size := by simp [hhead, hs1, State.enter]; omega
    exact h2.joined ⟨Nat.le_of_eq (by simp [hhead]), Nat.lt_of_lt_of_le hlt (ih.scoped h1.owns.left).size_le⟩
  | @matchOn s s1 s2 b j v scrutinee targets ends _ _ hs1 hj _ ih =>
    intro ho
    have h1 : State.Yields s [b] s1 [b] := hs1 ▸ .declare ho (.head _) _ _ _
    have hsize : s1.blocks.size = s.blocks.size := hs1 ▸ size_declare _ _ _ _ _
    obtain ⟨harms, -, hrange⟩ := ih
    have hle := harms.size_le
    have h2 : State.Covers s1 [] [j] s1.addBlock [j] := hj ▸ .addBlock s1
    have hj' : s1.IsNew s2 j := ⟨Nat.le_of_eq (by simp [hj]), Nat.lt_of_lt_of_le (by simp [hj]) hle⟩
    have h3 := (h2.mono (T := targets.map (·.2) ++ [j]) (by simp)).trans (C := []) harms fun _ hx =>
      .inr (List.mem_append_left _ hx)
    refine (of_size_eq h1 hsize).andThen ((h3.joined hj').switch h1.owns scrutinee fun x hx => ?_)
    have hx : s1.IsNew s2 x := by
      rcases List.mem_append.mp hx with hx | hx
      · obtain ⟨target, htarget, rfl⟩ := List.mem_map.mp hx
        exact ⟨Nat.le_trans h2.size_le (hrange target htarget).1, (hrange target htarget).2⟩
      · exact List.mem_singleton.mp hx ▸ hj'
    exact ⟨hx.1, (size_joined j ends s2).symm ▸ hx.2⟩
  | @matchElse s s1 s2 s3 b f v scrutinee targets ends last _ _ hs1 _ hf _ ihArms ih =>
    intro ho
    have h1 : State.Yields s [b] s1 [b] := hs1 ▸ .declare ho (.head _) _ _ _
    have hsize : s1.blocks.size = s.blocks.size := hs1 ▸ size_declare _ _ _ _ _
    obtain ⟨harms, -, hrange⟩ := ihArms
    have h2 : State.Covers s1 [] (f :: targets.map (·.2)) s2.addBlock ([f] ++ ends) := harms.grow hf
    have h3 := h2.trans (ih.scoped h2.owns.left) fun _ => .inl
    have h4 := (h3.perm List.perm_append_comm).mono (T := targets.map (·.2) ++ [f]) (by simp)
    have h5 := h4.andThen (.meet h4.owns)
    have hle := (Nat.le_trans (ih.scoped h2.owns.left).size_le (State.Covers.meet h4.owns).size_le)
    rw [size_addBlock] at hle
    refine (of_size_eq h1 hsize).andThen (h5.switch h1.owns scrutinee fun x hx => ?_)
    rcases List.mem_append.mp hx with hx | hx
    · obtain ⟨target, htarget, rfl⟩ := List.mem_map.mp hx
      exact ⟨(hrange target htarget).1, Nat.lt_of_lt_of_le (hrange target htarget).2 (by omega)⟩
    · rw [List.mem_singleton.mp hx, hf]
      exact ⟨harms.size_le, Nat.lt_of_lt_of_le (Nat.lt_succ_self _) hle⟩
  | noArms => exact ⟨.of_size_eq (.refl (owns_nil _)) rfl, List.nodup_nil, by simp⟩
  | @arm s s1 s2 scrutinee binding head b ty last targets ends hb _ _ ih ihArms =>
    obtain ⟨hrest, hnodup, hrange⟩ := ihArms
    have h1 : State.Covers s [] [b] s.addBlock [b] := hb ▸ .addBlock s
    have hbody := ih.arm hb
    have h2 := (h1.andThen hbody).mono (T := b :: targets.map (·.2)) (by simp)
    have h3 := h2.trans (C := []) hrest fun _ hx => .inr (.tail _ hx)
    have hlt : b.index < s.addBlock.blocks.size := by simp [hb]
    have hlt1 : b.index < s1.leave.leave.blocks.size := Nat.lt_of_lt_of_le hlt hbody.size_le
    refine ⟨h3.perm List.perm_append_comm, ?_, fun target htarget => ?_⟩
    · rw [List.map_cons, List.nodup_cons]
      refine ⟨fun hmem => ?_, hnodup⟩
      obtain ⟨target, htarget, heq : target.2 = b⟩ := List.mem_map.mp hmem
      have := (hrange target htarget).1
      rw [heq] at this
      omega
    · have hle := h2.size_le
      have hle' := hrest.size_le
      rcases List.mem_cons.mp htarget with rfl | htarget
      · exact ⟨Nat.le_of_eq (by simp [hb]), Nat.lt_of_lt_of_le hlt1 hle'⟩
      · exact ⟨Nat.le_trans hle (hrange target htarget).1, (hrange target htarget).2⟩

/-! ### Scopes -/

namespace State

/-- Names were added to the innermost scope. -/
def Widens (s s' : State) : Prop := ∃ more : Scope, s'.scopes = s.scopes.modifyHead (more ++ ·)

theorem Widens.of_eq (h : s'.scopes = s.scopes) : s.Widens s' := ⟨[], by cases hs : s.scopes <;> simp [h, hs]⟩

theorem Widens.trans (h : s.Widens s') (h' : s'.Widens s'') : s.Widens s'' := by
  obtain ⟨more, hmore⟩ := h
  obtain ⟨more', hmore'⟩ := h'
  refine ⟨more' ++ more, ?_⟩
  rw [hmore', hmore]
  cases s.scopes <;> simp

theorem Widens.bind (s : State) (name : String) (v : VarId) : s.Widens (s.bind name v) :=
  ⟨[(name, v)], by unfold State.bind; cases s.scopes <;> simp⟩

theorem Widens.sameDepth (h : s.Widens s') : s.SameDepth s' := by
  obtain ⟨more, hmore⟩ := h
  unfold SameDepth
  rw [hmore]
  cases s.scopes <;> simp

theorem inForce_of_scopes (h : s'.scopes = s.scopes) : s'.InForce x ↔ s.InForce x := by
  unfold InForce
  rw [h]

theorem inForce_bind {name : String} {v : VarId} (h : (s.bind name v).InForce x) : x = v ∨ s.InForce x := by
  obtain ⟨scope, hscope, key, hmem⟩ := h
  unfold State.bind at hscope
  cases hs : s.scopes with
  | nil => simp [hs] at hscope
  | cons top rest =>
    simp only [hs, List.mem_cons] at hscope
    rcases hscope with rfl | hscope
    · rcases List.mem_cons.mp hmem with heq | hmem
      · cases heq
        exact .inl rfl
      · exact .inr ⟨top, by simp [hs], key, hmem⟩
    · exact .inr ⟨scope, by simp [hs, hscope], key, hmem⟩

end State

/-- What building does to scopes. -/
def Part.Widens : Part → State → State → Prop
  | .line .., s, s' => s.Widens s'
  | .arms .., s, s' => s'.scopes = s.scopes

/-- What a line in a scope of its own adds to scopes is over with it. -/
theorem State.Widens.leave_eq (h : s.enter.Widens s') : s'.leave.scopes = s.scopes := h.sameDepth.leave_eq

theorem Builds.widens (h : Builds part s s') : part.Widens s s' := by
  induction h with
  | idle h => exact .of_eq h.scopes
  | poison _ => exact State.Widens.bind (State.addVar _ _ _) _ _
  | seq _ _ ih ih' => exact ih.trans ih'
  | stop _ hidle ih => exact State.Widens.trans ih (.of_eq hidle.scopes)
  | letVar _ => exact .trans (.of_eq (scopes_declare _ _ _ _ _)) (Widens.bind _ _ _)
  | effect _ => exact .of_eq (scopes_declare _ _ _ _ _)
  | assign _ _ => exact .of_eq rfl
  | ret _ => exact .of_eq rfl
  | block _ ih => exact .of_eq ih.leave_eq
  | ifThen _ _ _ hs1 _ ih | loop _ _ _ _ hs1 _ ih =>
    refine .of_eq ?_
    rw [scopes_joined, ih.leave_eq, hs1]
    rfl
  | ifElse _ _ _ hs1 _ _ ihThen ihElse =>
    refine .of_eq ?_
    rw [scopes_meet, ihElse.leave_eq, ihThen.leave_eq, hs1]
    rfl
  | @matchOn _ _ s2 _ j _ _ _ ends _ _ hs1 _ _ ih =>
    refine .of_eq ?_
    change (s2.joined j ends).scopes = _
    rw [scopes_joined, ih, hs1]
    exact scopes_declare _ _ _ _ _
  | @matchElse _ _ _ s3 _ _ _ _ _ ends last _ _ hs1 _ _ _ ihArms ih =>
    refine .of_eq ?_
    change (s3.leave.meet (ends ++ last.toList)).2.scopes = _
    rw [scopes_meet, ih.leave_eq]
    refine Eq.trans ihArms ?_
    rw [hs1, scopes_declare]
  | noArms => rfl
  | arm _ _ _ ih ihArms => exact Eq.trans ihArms (SameDepth.leave_arm ih.sameDepth)

/-! ### The rest of the state -/

namespace State

/-- Functions are the same; variables and errors were added. -/
def Onward (s s' : State) : Prop :=
  s'.funs = s.funs ∧ s.vars.size ≤ s'.vars.size ∧ s.errors ≤ s'.errors

theorem Onward.refl (s : State) : s.Onward s := ⟨rfl, Nat.le_refl _, Nat.le_refl _⟩

theorem Onward.trans (h : s.Onward s') (h' : s'.Onward s'') : s.Onward s'' :=
  ⟨h'.1.trans h.1, Nat.le_trans h.2.1 h'.2.1, Nat.le_trans h.2.2 h'.2.2⟩

theorem Idle.onward (h : s.Idle s') : s.Onward s' := ⟨h.funs, Nat.le_of_eq (by rw [h.vars]), h.errors⟩

theorem Onward.addVar (s : State) (ty : TypeId) (name : String) : s.Onward (s.addVar ty name) :=
  ⟨rfl, by simp [State.addVar], Nat.le_refl _⟩

theorem Onward.declare (s : State) (b : BlockId) (ty : TypeId) (name : String) (value : Option Value) :
    s.Onward (s.declare b ty name value) := by
  have hvar := Onward.addVar s ty name
  cases value with
  | none => exact hvar
  | some v => exact hvar

theorem Onward.joined (j : BlockId) : ∀ (ends : List BlockId) (s : State), s.Onward (s.joined j ends)
  | [], s => .refl s
  | b :: rest, s => Onward.joined j rest (s.close b (.jump j))

theorem Onward.meet (s : State) (ends : List BlockId) : s.Onward (s.meet ends).2 := by
  cases ends with
  | nil => exact .refl s
  | cons b ends => exact Onward.joined _ _ s.addBlock

theorem Onward.withPayload (s : State) (b : BlockId) (scrutinee : Value) (head : ArmHead) (ty : TypeId)
    (binding : Option String) : s.Onward (s.withPayload b scrutinee head ty binding) := by
  cases binding with
  | none => exact .refl s
  | some name => exact Onward.declare s b ty name (some (.project scrutinee head.variant ty head.span))

end State

theorem Builds.onward (h : Builds part s s') : s.Onward s' := by
  induction h with
  | idle h => exact h.onward
  | @poison cfg s _ name d _ =>
    have hvar := Onward.addVar s .invalid name
    exact hvar.trans (State.Idle.reported (s.poisoned name) cfg d).onward
  | seq _ _ ih ih' => exact ih.trans ih'
  | stop _ hidle ih => exact ih.trans hidle.onward
  | letVar _ => exact .declare _ _ _ _ _
  | effect _ => exact .declare _ _ _ _ _
  | assign _ _ => exact .refl _
  | ret _ => exact .refl _
  | block _ ih => exact ih
  | @ifThen s s1 s2 _ _ j _ last _ _ _ hs1 _ ih | @loop s s1 s2 _ j _ _ _ last _ _ _ _ hs1 _ ih =>
    have h1 : s.Onward s2 := .trans (hs1 ▸ .refl s) ih
    exact h1.trans (.joined j last.toList s2.leave)
  | @ifElse s s1 s2 s3 _ _ _ _ _ _ _ _ _ hs1 _ _ ihThen ihElse =>
    have h1 : s.Onward s2 := .trans (hs1 ▸ .refl s) ihThen
    have h2 : s.Onward s3 := h1.trans ihElse
    exact h2.trans (.meet s3.leave _)
  | @matchOn s s1 s2 _ j _ _ _ ends _ _ hs1 _ _ ih =>
    have h1 : s.Onward s2 := .trans (hs1 ▸ .declare _ _ _ _ _) ih
    exact h1.trans (.joined j ends s2)
  | @matchElse s s1 s2 s3 _ _ _ _ _ _ _ _ _ hs1 _ _ _ ihArms ih =>
    have h1 : s.Onward s2 := .trans (hs1 ▸ .declare _ _ _ _ _) ihArms
    have h2 : s.Onward s3 := h1.trans ih
    exact h2.trans (.meet s3.leave _)
  | noArms => exact .refl _
  | @arm s s1 s2 scrutinee binding head b ty _ _ _ _ _ _ ih ihArms =>
    have h1 : s.Onward s1 := (Onward.withPayload s.addBlock.enter b scrutinee head ty binding).trans ih
    exact h1.trans ihArms

end

end BlockCompiler.Lowering
