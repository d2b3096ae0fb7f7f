/-
  BlockCompiler.Proofs.Run — what lowering statements does, as a relation.

  `Run task s s'`: lowering a statement, a list of statements or the arms of a match takes the
  state `s` to `s'`. A task carries its outcome as well: the block where control goes on, the
  diagnostic that rejects a statement, the targets and ends of arms. There is one rule for
  each way in which a statement can be lowered; what is checked on the way is a premise.

  (1) The premises: values (`Checks`), annotations (`Annotates`), conditions (`Tests`),
      matched values and variants (`Matches`, `Names`). A statement that is skipped was
      rejected (`RejectedWith`).
  (2) The rules.
  (3) What some effects do to open blocks, and what a run does to scopes (`Run.keeps`).
-/
import BlockCompiler.Proofs.Effects

namespace BlockCompiler.Lowering

open Surface (Expr TypeExpr Stmt Arm)
open TypeTable (Grows StandsFor Acyclic)
open Typing (Adds)
open State

variable {params : List Parameter} {b t : BlockId} {file : FileId} {e : Expr} {cfg : Settings} {s s' : State}

/-! ## (1) What is checked -/

/-- An expression was lowered; only types were added. -/
structure Checks (cfg : Settings) (file : FileId) (params : List Parameter) (s : State) (e : Expr) (v : Value)
    (s' : State) : Prop where
  typing : s' = s.withTyping s'.typing
  lowered : Lowered params (s.env cfg.gate file) s.typing e v s'.typing

/-- An annotation was resolved; only types were added. -/
structure Annotates (file : FileId) (s : State) (ty : TypeExpr) (id : TypeId) (s' : State) : Prop where
  typing : s' = s.withTyping s'.typing
  adds : s.typing.Adds s'.typing
  proper : s'.types.Proper id
  resolves : Resolves s'.types file ty id

/-- The type of a variable and its first value. -/
inductive Initial (cfg : Settings) (file : FileId) (params : List Parameter) :
    State → Option TypeExpr → Option Expr → TypeId → Option Value → State → Prop
  | declared {s s' : State} {ty : TypeExpr} {id : TypeId} : Annotates file s ty id s' →
      Initial cfg file params s (some ty) none id none s'
  | inferred {s s' : State} {e : Expr} {v : Value} : Checks cfg file params s e v s' →
      Initial cfg file params s none (some e) v.ty (some v) s'
  | both {s s₁ s' : State} {ty : TypeExpr} {id : TypeId} {e : Expr} {v : Value} : Annotates file s ty id s₁ →
      Checks cfg file params s₁ e v s' → assignable id v.ty = true →
      Initial cfg file params s (some ty) (some e) id (some v) s'

/-- The value that a `return` gives. -/
inductive Returns (cfg : Settings) (file : FileId) (params : List Parameter) (span : Span) :
    State → Option Expr → Value → State → Prop
  | value {s s' : State} {e : Expr} {v : Value} : Checks cfg file params s e v s' →
      Returns cfg file params span s (some e) v s'
  | unit {s : State} : Returns cfg file params span s none (.unit TypeId.unit span) s

/-- A condition was lowered. -/
structure Tests (cfg : Settings) (file : FileId) (params : List Parameter) (s : State) (e : Expr) (v : Value)
    (s' : State) : Prop extends checks : Checks cfg file params s e v s' where
  condition : v.ty ≠ TypeId.invalid → ∃ ty, s'.types.get? v.ty = some ty ∧ ty.IsCondition

/-- `sum` stands for a sum type with these variants. -/
def HasVariants (t : TypeTable) (sum : TypeId) (variants : List TypeId) : Prop :=
  ∃ id, StandsFor t sum id ∧ t.get? id = some (.sum variants)

theorem HasVariants.grows {t t' : TypeTable} (hg : Grows t t') {sum : TypeId} {variants : List TypeId}
    (h : HasVariants t sum variants) : HasVariants t' sum variants := by
  obtain ⟨id, hst, hsum⟩ := h
  exact ⟨id, hst.grows hg, hg _ _ hsum⟩

/-- The annotation stands for the variant `d` of the sum, of type `ty`. -/
structure Names (t : TypeTable) (file : FileId) (sum : TypeId) (written : TypeExpr) (d : VariantId) (ty : TypeId) :
    Prop where
  variant : ∃ variants, HasVariants t sum variants ∧ variants[d.index]? = some ty
  resolves : Resolves t file written ty

theorem Names.grows {t t' : TypeTable} (hg : Grows t t') {sum ty : TypeId} {written : TypeExpr} {d : VariantId}
    (h : Names t file sum written d ty) : Names t' file sum written d ty := by
  obtain ⟨⟨variants, hv, hd⟩, hr⟩ := h
  exact ⟨⟨variants, hv.grows hg, hd⟩, hr.grows hg⟩

/-- A value to match on and the variants of the arms. -/
structure Matches (cfg : Settings) (file : FileId) (params : List Parameter) (s : State) (e : Expr) (v : Value)
    (arms : List Arm) (heads : List ArmHead) (s' : State) : Prop extends checks : Checks cfg file params s e v s' where
  valid : v.ty ≠ TypeId.invalid
  sum : ∃ variants, HasVariants s'.types v.ty variants
  named : List.Forall₂ (fun arm head => ∃ ty, Names s'.types file v.ty arm.variant head.variant ty) arms heads
  nodup : (heads.map (·.variant)).Nodup

/-! ## (2) The rules -/

namespace State

/-- A new variable becomes live in a block, with its first value. -/
def declare (s : State) (b : BlockId) (ty : TypeId) (name : String) (value : Option Value) : State :=
  let live := (s.addVar ty name).append b (.live s.vars.next)
  match value with
  | some e => live.append b (.store s.vars.next e)
  | none => live

/-- The payload of an arm gets its name. -/
def withPayload (s : State) (b : BlockId) (scrutinee : Value) (head : ArmHead) (ty : TypeId) :
    Option String → State
  | none => s
  | some name =>
    (s.declare b ty name (some (.project scrutinee head.variant ty head.span))).bind name s.vars.next

/-- The block where ends meet, if there are any. -/
def meet (s : State) : List BlockId → Option BlockId × State
  | [] => (none, s)
  | ends => (some s.blocks.next, s.addBlock.joined s.blocks.next ends)

end State

/-- The function whose body is lowered. -/
def State.Declares (s : State) (fn : FunId) (sig : Signature) : Prop :=
  ∃ f, s.funs.get? fn = some f ∧ f.signature = sig

/-- In a function with this signature, the statement can be rejected with the diagnostic. -/
def RejectedWith (cfg : Settings) (file : FileId) (sig : Signature) (x : Stmt) (d : Diagnostic) : Prop :=
  ∃ (fn : FunId) (b : BlockId) (s s' : State), s.Sound ∧ s.Declares fn sig ∧
    (lowerStmt cfg file fn x b).run s = .ok (.error d) s'

inductive Task where
  | stmt (x : Stmt) (b : BlockId) (next : Option BlockId)
  | refusal (x : Stmt) (d : Diagnostic)
  | stmts (body : List Stmt) (current next : Option BlockId)
  | arms (scrutinee : Value) (arms : List Arm) (heads : List ArmHead) (targets : List (VariantId × BlockId))
      (ends : List BlockId)

inductive Run (cfg : Settings) (file : FileId) (sig : Signature) : Task → State → State → Prop
  | letVar {s s₁ : State} {name : String} {ty : Option TypeExpr} {init : Option Expr} {span : Span} {b : BlockId}
      {id : TypeId} {value : Option Value} : Initial cfg file sig.params s ty init id value s₁ →
      Run cfg file sig (.stmt (.letVar name ty init span) b (some b)) s
        ((s₁.declare b id name value).bind name s₁.vars.next)
  | assign {s s₁ : State} {name : String} {nameSpan span : Span} {e : Expr} {b : BlockId} {v : VarId}
      {var : Variable} {value : Value} : Scope.lookup? s.scopes name = some v →
      Checks cfg file sig.params s e value s₁ → s₁.vars.get? v = some var →
      assignable var.ty value.ty = true →
      Run cfg file sig (.stmt (.assign name nameSpan e span) b (some b)) s (s₁.append b (.store v value))
  | ret {s s₁ : State} {e : Option Expr} {span : Span} {b : BlockId} {value : Value} :
      Returns cfg file sig.params span s e value s₁ → assignable sig.result value.ty = true →
      Run cfg file sig (.stmt (.ret e span) b none) s (s₁.close b (.ret value))
  | effect {s s₁ : State} {e : Expr} {span : Span} {b : BlockId} {value : Value} :
      Checks cfg file sig.params s e value s₁ →
      Run cfg file sig (.stmt (.expr e span) b (some b)) s (s₁.declare b value.ty "_" (some value))
  | block {s s₁ : State} {body : List Stmt} {span : Span} {b : BlockId} {next : Option BlockId} :
      Run cfg file sig (.stmts body (some b) next) s.enter s₁ →
      Run cfg file sig (.stmt (.block body span) b next) s s₁.leave
  | ifThen {s s₁ s₂ s₃ : State} {e : Expr} {body : List Stmt} {span : Span} {b t j : BlockId} {c : Value}
      {last : Option BlockId} : Tests cfg file sig.params s e c s₁ → t = s₁.blocks.next →
      j = s₁.addBlock.blocks.next → s₂ = s₁.addBlock.addBlock.close b (.branch c t j) →
      Run cfg file sig (.stmts body (some t) last) s₂.enter s₃ →
      Run cfg file sig (.stmt (.ifElse e body none span) b (some j)) s (s₃.leave.joined j last.toList)
  | ifElse {s s₁ s₂ s₃ s₄ : State} {e : Expr} {thenBody elseBody : List Stmt} {span : Span} {b t f : BlockId}
      {c : Value} {thenEnd elseEnd : Option BlockId} : Tests cfg file sig.params s e c s₁ →
      t = s₁.blocks.next → f = s₁.addBlock.blocks.next →
      s₂ = s₁.addBlock.addBlock.close b (.branch c t f) →
      Run cfg file sig (.stmts thenBody (some t) thenEnd) s₂.enter s₃ →
      Run cfg file sig (.stmts elseBody (some f) elseEnd) s₃.leave.enter s₄ →
      Run cfg file sig (.stmt (.ifElse e thenBody (some elseBody) span) b
        (s₄.leave.meet (thenEnd.toList ++ elseEnd.toList)).1) s
        (s₄.leave.meet (thenEnd.toList ++ elseEnd.toList)).2
  | whileLoop {s s₁ s₂ s₃ : State} {e : Expr} {body : List Stmt} {span : Span} {b head t exit : BlockId} {c : Value}
      {last : Option BlockId} : Tests cfg file sig.params s e c s₁ → head = s₁.blocks.next →
      t = s₁.addBlock.blocks.next → exit = s₁.addBlock.addBlock.blocks.next →
      s₂ = (s₁.addBlock.addBlock.addBlock.close b (.jump head)).close head (.branch c t exit) →
      Run cfg file sig (.stmts body (some t) last) s₂.enter s₃ →
      Run cfg file sig (.stmt (.whileLoop e body span) b (some exit)) s (s₃.leave.joined head last.toList)
  /-- A value that already failed is not matched on. -/
  | matchFailed {s s₁ : State} {e : Expr} {arms : List Arm} {fallback : Option (List Stmt)} {span : Span}
      {b : BlockId} {v : Value} : Checks cfg file sig.params s e v s₁ → v.ty = TypeId.invalid →
      Run cfg file sig (.stmt (.matchOn e arms fallback span) b (some b)) s s₁
  | matchOn {s s₁ s₂ s₃ : State} {e : Expr} {arms : List Arm} {span : Span} {b j : BlockId} {v scrutinee : Value}
      {heads : List ArmHead} {targets : List (VariantId × BlockId)} {ends : List BlockId} :
      Matches cfg file sig.params s e v arms heads s₁ → scrutinee = .var s₁.vars.next v.ty v.span →
      s₂ = s₁.declare b v.ty "match" (some v) → j = s₂.blocks.next →
      Run cfg file sig (.arms scrutinee arms heads targets ends) s₂.addBlock s₃ →
      Run cfg file sig (.stmt (.matchOn e arms none span) b (some j)) s
        ((s₃.joined j ends).close b (.switch scrutinee targets j))
  | matchElse {s s₁ s₂ s₃ s₄ : State} {e : Expr} {arms : List Arm} {body : List Stmt} {span : Span} {b f : BlockId}
      {v scrutinee : Value} {heads : List ArmHead} {targets : List (VariantId × BlockId)} {ends : List BlockId}
      {last : Option BlockId} : Matches cfg file sig.params s e v arms heads s₁ →
      scrutinee = .var s₁.vars.next v.ty v.span → s₂ = s₁.declare b v.ty "match" (some v) →
      Run cfg file sig (.arms scrutinee arms heads targets ends) s₂ s₃ → f = s₃.blocks.next →
      Run cfg file sig (.stmts body (some f) last) s₃.addBlock.enter s₄ →
      Run cfg file sig (.stmt (.matchOn e arms (some body) span) b (s₄.leave.meet (ends ++ last.toList)).1) s
        ((s₄.leave.meet (ends ++ last.toList)).2.close b (.switch scrutinee targets f))
  | refused {s : State} {st : Typing} {x : Stmt} {d : Diagnostic} : s.typing.Adds st → d.isError = true →
      Run cfg file sig (.refusal x d) s (s.withTyping st)
  | refusedLet {s : State} {st : Typing} {name : String} {ty : Option TypeExpr} {init : Option Expr} {span : Span}
      {d : Diagnostic} : s.typing.Adds st → d.isError = true →
      Run cfg file sig (.refusal (.letVar name ty init span) d) s ((s.withTyping st).poisoned name)
  | done {s : State} {current : Option BlockId} : Run cfg file sig (.stmts [] current current) s s
  | limit {s : State} {x : Stmt} {rest : List Stmt} {current : Option BlockId} : s.AtLimit cfg →
      Run cfg file sig (.stmts (x :: rest) current current) s s
  | unreachable {s : State} {x : Stmt} {rest : List Stmt} : ¬ s.AtLimit cfg →
      Run cfg file sig (.stmts (x :: rest) none none) s (s.reported cfg (unreachableCode file x.span))
  | step {s s₁ s₂ : State} {x : Stmt} {rest : List Stmt} {b : BlockId} {next last : Option BlockId} :
      ¬ s.AtLimit cfg → Run cfg file sig (.stmt x b next) s s₁ → Run cfg file sig (.stmts rest next last) s₁ s₂ →
      Run cfg file sig (.stmts (x :: rest) (some b) last) s s₂
  | skip {s s₁ s₂ : State} {x : Stmt} {rest : List Stmt} {b : BlockId} {last : Option BlockId} {d : Diagnostic} :
      ¬ s.AtLimit cfg → RejectedWith cfg file sig x d → Run cfg file sig (.refusal x d) s s₁ →
      Run cfg file sig (.stmts rest (some b) last) (s₁.reported cfg d) s₂ →
      Run cfg file sig (.stmts (x :: rest) (some b) last) s s₂
  | noArms {s : State} {scrutinee : Value} : Run cfg file sig (.arms scrutinee [] [] [] []) s s
  | arm {s s₁ s₂ : State} {scrutinee : Value} {written : TypeExpr} {binding : Option String} {body : List Stmt}
      {span : Span} {arms : List Arm} {head : ArmHead} {heads : List ArmHead} {b : BlockId} {ty : TypeId}
      {last : Option BlockId} {targets : List (VariantId × BlockId)} {ends : List BlockId} :
      b = s.blocks.next → Names s.types file scrutinee.ty written head.variant ty →
      Run cfg file sig (.stmts body (some b) last) (s.addBlock.enter.withPayload b scrutinee head ty binding).enter s₁ →
      Run cfg file sig (.arms scrutinee arms heads targets ends) s₁.leave.leave s₂ →
      Run cfg file sig (.arms scrutinee (⟨written, binding, body, span⟩ :: arms) (head :: heads)
        ((head.variant, b) :: targets) (last.toList ++ ends)) s s₂

/-! ## (3) Open blocks and scopes -/

theorem Checks.blocks_eq {v : Value} (h : Checks cfg file params s e v s') : s'.blocks = s.blocks :=
  State.blocks_of_typing h.typing

theorem Initial.typing {ty : Option TypeExpr} {init : Option Expr} {id : TypeId} {value : Option Value}
    (h : Initial cfg file params s ty init id value s') : s' = s.withTyping s'.typing := by
  cases h with
  | declared ha => exact ha.typing
  | inferred hc => exact hc.typing
  | both ha hc _ =>
    have := ha.typing
    rw [hc.typing, this]
    rfl

theorem Returns.typing {span : Span} {e : Option Expr} {value : Value} (h : Returns cfg file params span s e value s') :
    s' = s.withTyping s'.typing := by
  cases h with
  | value hc => exact hc.typing
  | unit => rfl

namespace State

variable {s : State} {A : List BlockId} {b : BlockId}

theorem Yields.declare (h : s.Owns A) (hb : b ∈ A) (ty : TypeId) (name : String) (value : Option Value) :
    Yields s A (s.declare b ty name value) A := by
  have hvar : Yields s A (s.addVar ty name) A := .of_blocks_eq h rfl
  have hlive := hvar.trans (.append hvar.owns hb (.live s.vars.next))
  cases value with
  | none => exact hlive
  | some e => exact hlive.trans (.append hlive.owns hb _)

theorem Yields.withPayload (h : s.Owns A) (hb : b ∈ A) (scrutinee : Value) (head : ArmHead) (ty : TypeId)
    (binding : Option String) : Yields s A (s.withPayload b scrutinee head ty binding) A := by
  cases binding with
  | none => exact .refl h
  | some name =>
    exact (Yields.declare h hb ty name (some (.project scrutinee head.variant ty head.span))).same rfl

theorem Yields.meet (ends : List BlockId) (h : s.Owns (ends ++ A)) :
    Yields s (ends ++ A) (s.meet ends).2 ((s.meet ends).1.toList ++ A) := by
  cases ends with
  | nil => exact .refl h
  | cons e ends =>
    have hnew : Yields s (e :: ends ++ A) s.addBlock (s.blocks.next :: (e :: ends ++ A)) := .addBlock h
    have hperm : (s.blocks.next :: (e :: ends ++ A)).Perm (e :: ends ++ s.blocks.next :: A) :=
      List.perm_middle.symm
    have hnew := hnew.perm (.refl _) hperm
    exact hnew.trans (.joined _ _ hnew.owns)

theorem close_addBlock (h : b.index < s.blocks.size) (t : Terminator) :
    s.addBlock.close b t = (s.close b t).addBlock :=
  congrArg (fun blocks => { s with context := { s.context with blocks } }) (Arena.modify_insert h {} _)

theorem next_close (s : State) (b : BlockId) (t : Terminator) :
    (s.close b t).blocks.next = s.blocks.next :=
  congrArg Handle.mk (Arena.size_modify _ _ _)

/-- A loop is a jump to its head, where ends meet, and a branch from there. -/
theorem loop_eq {head t exit : BlockId} (hb : b.index < s.blocks.size) (hhead : head = s.blocks.next)
    (ht : t = s.addBlock.blocks.next) (hexit : exit = s.addBlock.addBlock.blocks.next) :
    s.addBlock.addBlock.addBlock.close b (.jump head) = (s.meet [b]).2.addBlock.addBlock ∧
      (s.meet [b]).1 = some head ∧ t = (s.meet [b]).2.blocks.next ∧
      exit = (s.meet [b]).2.addBlock.blocks.next := by
  have h1 : b.index < s.addBlock.blocks.size := Nat.lt_of_lt_of_le hb (by simp [State.addBlock])
  have h2 : b.index < s.addBlock.addBlock.blocks.size := Nat.lt_of_lt_of_le h1 (by simp [State.addBlock])
  have hmeet : (s.meet [b]).2 = s.addBlock.close b (.jump head) := by rw [hhead]; rfl
  rw [hmeet, close_addBlock h2, close_addBlock h1, ← close_addBlock h1, next_close, next_close]
  exact ⟨rfl, by rw [hhead]; rfl, ht, hexit⟩

end State

section

variable {cfg : Settings} {file : FileId} {sig : Signature} {task : Task} {s s' : State}

/-- The scopes but the innermost one are the same. -/
def State.SameDepth (s s' : State) : Prop := s'.scopes.length = s.scopes.length ∧ s'.scopes.tail = s.scopes.tail

namespace State

theorem SameDepth.of_eq (h : s'.scopes = s.scopes) : s.SameDepth s' := by
  unfold SameDepth
  rw [h]
  exact ⟨rfl, rfl⟩

theorem SameDepth.trans {s'' : State} (h : s.SameDepth s') (h' : s'.SameDepth s'') : s.SameDepth s'' :=
  ⟨h'.1.trans h.1, h'.2.trans h.2⟩

theorem SameDepth.bind (s : State) (name : String) (v : VarId) : s.SameDepth (s.bind name v) := by
  unfold SameDepth State.bind
  cases h : s.scopes <;> simp

theorem SameDepth.ne_nil (h : s.SameDepth s') (hs : s.scopes ≠ []) : s'.scopes ≠ [] := fun he => by
  have := h.1
  rw [he] at this
  exact hs (List.length_eq_zero_iff.mp this.symm)

/-- What happened in a scope of its own is over with it. -/
theorem SameDepth.leave_eq (h : s.enter.SameDepth s') : s'.leave.scopes = s.scopes := h.2

@[simp] theorem scopes_declare (s : State) (b : BlockId) (ty : TypeId) (name : String) (value : Option Value) :
    (s.declare b ty name value).scopes = s.scopes := by
  cases value <;> rfl

@[simp] theorem scopes_joined (j : BlockId) : ∀ (ends : List BlockId) (s : State), (s.joined j ends).scopes = s.scopes
  | [], _ => rfl
  | b :: rest, s => scopes_joined j rest (s.close b (.jump j))

@[simp] theorem scopes_meet (s : State) (ends : List BlockId) : (s.meet ends).2.scopes = s.scopes := by
  cases ends with
  | nil => rfl
  | cons b ends => exact scopes_joined _ _ _

/-- The scopes of an arm are over with it. -/
theorem withPayload_leave (s : State) (b : BlockId) (scrutinee : Value) (head : ArmHead) (ty : TypeId)
    (binding : Option String) : (s.enter.withPayload b scrutinee head ty binding).leave.scopes = s.scopes := by
  cases binding with
  | none => rfl
  | some name =>
    have h := (SameDepth.bind (s.enter.declare b ty name (some (.project scrutinee head.variant ty head.span))) name
      s.enter.vars.next).2
    rw [scopes_declare] at h
    exact h

theorem SameDepth.leave_arm {scrutinee : Value} {head : ArmHead} {ty : TypeId} {binding : Option String}
    (h : (s.addBlock.enter.withPayload b scrutinee head ty binding).enter.SameDepth s') :
    s'.leave.leave.scopes = s.scopes := by
  change s'.leave.scopes.tail = _
  rw [h.leave_eq]
  exact withPayload_leave s.addBlock b scrutinee head ty binding

end State

/-- What a task does to scopes. -/
def Task.Keeps : Task → State → State → Prop
  | .arms .., s, s' => s'.scopes = s.scopes
  | _, s, s' => s.SameDepth s'

theorem Run.keeps (h : Run cfg file sig task s s') : task.Keeps s s' := by
  induction h with
  | letVar hi =>
    refine .trans (.of_eq ?_) (SameDepth.bind _ _ _)
    rw [scopes_declare, hi.typing]
    rfl
  | assign _ hc _ _ | ret hc _ =>
    have hsame := scopes_of_typing hc.typing
    exact .of_eq hsame
  | effect hc => exact .of_eq (by rw [scopes_declare, scopes_of_typing hc.typing])
  | block _ ih => exact .of_eq ih.leave_eq
  | ifThen ht _ _ hs2 _ ih | whileLoop ht _ _ _ hs2 _ ih =>
    refine .of_eq ?_
    rw [scopes_joined, ih.leave_eq, hs2, ht.typing]
    rfl
  | ifElse ht _ _ hs2 _ _ ihThen ihElse =>
    refine .of_eq ?_
    rw [scopes_meet, ihElse.leave_eq, ihThen.leave_eq, hs2, ht.typing]
    rfl
  | matchFailed hc _ => exact .of_eq (scopes_of_typing hc.typing)
  | @matchOn _ _ _ s3 _ _ _ _ j _ _ _ _ ends hm _ hs2 _ _ ih =>
    refine .of_eq ?_
    change (s3.joined j ends).scopes = _
    rw [scopes_joined, ih, hs2]
    exact (scopes_declare _ _ _ _ _).trans (scopes_of_typing hm.typing)
  | @matchElse _ _ _ _ s4 _ _ _ _ _ _ _ _ _ _ ends last hm _ hs2 _ _ _ ihArms ih =>
    refine .of_eq ?_
    change (s4.leave.meet (ends ++ last.toList)).2.scopes = _
    rw [scopes_meet, ih.leave_eq]
    refine Eq.trans ihArms ?_
    rw [hs2, scopes_declare, hm.typing]
    rfl
  | refusedLet => exact SameDepth.bind (State.addVar _ _ _) _ _
  | refused | done | limit _ | unreachable _ => exact .of_eq rfl
  | step _ _ _ ih ihRest => exact ih.trans ihRest
  | skip _ _ _ _ ih ihRest => exact (SameDepth.trans ih (.of_eq rfl)).trans ihRest
  | noArms => rfl
  | arm _ _ _ _ ih ihArms => exact Eq.trans ihArms (SameDepth.leave_arm ih)

/-- Each arm has a target, in order. -/
theorem Run.targets {scrutinee : Value} {arms : List Arm} {heads : List ArmHead}
    {targets : List (VariantId × BlockId)} {ends : List BlockId}
    (h : Run cfg file sig (.arms scrutinee arms heads targets ends) s s') :
    targets.map (·.1) = heads.map (·.variant) := by
  induction arms generalizing heads targets ends s with
  | nil =>
    cases h
    rfl
  | cons arm arms ih =>
    cases h with
    | arm _ _ _ hrest => simp [ih hrest]

end

end BlockCompiler.Lowering
