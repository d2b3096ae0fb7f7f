/-
  BlockCompiler.Proofs.Reachable — the blocks of a function, verified and printed.

  `Reaches c a b`: control can go from the block `a` to the block `b`.

  (1) Only reachable blocks are listed (`reaches_of_mem_reachableFrom`).
  (2) Values and statements are accepted exactly if all handles in them were issued
      (`checkValue_iff`, `checkStmt_iff`), and a function exactly if its signature and its blocks
      are (`verify_eq_ok`). So a function whose signature and reachable blocks mention only what
      exists is verified (`verify_ok`); that its switches look at sums is part of it. A body whose
      entry was left open is a fault (`verify_open`).
  (3) Such a function is printed (`printFun_of_blocks`, `printFun_ok`).
-/
import BlockCompiler.Proofs.GraphTyping
import BlockCompiler.Graph.Print
import BlockCompiler.Graph.Verify

namespace BlockCompiler

open Arena (get?_lt get?_of_lt get_eq_ok)
open Value (within_iff)
open TypeTable (StandsFor)
open Relation (ReflTransGen)

variable {c : Context} {b : BlockId} {fn : FunId} {f : Function} {t : Terminator} {body : Body}

/-! ## (1) The listing -/

theorem Breadth.mem_fresh : ∀ {next seen : List BlockId}, b ∈ fresh seen next ↔ b ∈ next ∧ b ∉ seen
  | [], _ => by simp [fresh]
  | x :: rest, seen => by
    unfold fresh
    split
    · rw [mem_fresh, List.mem_cons]
      grind
    · rw [List.mem_cons, mem_fresh, List.mem_cons, List.mem_cons]
      grind

/-- A property of what is done and queued that successors inherit holds of all that is visited. -/
theorem Breadth.forall_mem_visit {successors : BlockId → List BlockId} {P : BlockId → Prop}
    (hnext : ∀ a, P a → ∀ b ∈ successors a, P b) : ∀ (n : Nat) {done queue : List BlockId},
    (∀ b ∈ done, P b) → (∀ b ∈ queue, P b) → ∀ b ∈ visit successors n done queue, P b
  | 0, done, queue, hd, hq => List.forall_mem_append.mpr ⟨hd, hq⟩
  | n + 1, done, [], hd, _ => hd
  | n + 1, done, a :: queue, hd, hq => by
    obtain ⟨ha, hq⟩ := List.forall_mem_cons.mp hq
    refine forall_mem_visit hnext n (List.forall_mem_append.mpr ⟨hd, List.forall_mem_singleton.mpr ha⟩) ?_
    exact List.forall_mem_append.mpr ⟨hq, fun b hb => hnext a ha b (mem_fresh.mp hb).1⟩

namespace Context

variable {block : Block}

/-- Control can go from `a` to `b`. -/
def Reaches (c : Context) : BlockId → BlockId → Prop := ReflTransGen fun a b => b ∈ c.successors a

theorem successors_eq (hb : c.blocks.get? b = some block) (ht : block.terminator = some t) :
    c.successors b = t.successors := by
  obtain ⟨stmts, terminator⟩ := block
  cases ht
  rw [successors, hb]

theorem reaches_of_mem_reachableFrom {entry : BlockId} (h : b ∈ c.reachableFrom entry) : c.Reaches entry b :=
  Breadth.forall_mem_visit (P := c.Reaches entry) (fun _ ha _ hb => ha.tail hb) _ (by simp)
    (List.forall_mem_singleton.mpr .refl) b h

/-- An open block leads nowhere. -/
theorem reachableFrom_open (hb : c.blocks.get? b = some block) (ho : block.terminator = none) :
    c.reachableFrom b = [b] := by
  have hnone : c.successors b = [] := by
    obtain ⟨stmts, terminator⟩ := block
    cases ho
    rw [successors, hb]
  simp only [reachableFrom, Breadth.visit, hnone, Breadth.fresh]
  cases c.jumpCount with
  | zero => rfl
  | succ n => rfl

/-- The block exists and is closed, with statements and a terminator of the given kind. -/
def HasBlock (c : Context) (P : BlockStmt → Prop) (T : Terminator → Prop) (b : BlockId) : Prop :=
  ∃ block t, c.blocks.get? b = some block ∧ block.terminator = some t ∧ (∀ x ∈ block.stmts.toList, P x) ∧ T t

theorem HasBlock.mono {P P' : BlockStmt → Prop} {T T' : Terminator → Prop} (h : c.HasBlock P T b) (hP : ∀ x, P x → P' x)
    (hT : ∀ t, T t → T' t) : c.HasBlock P' T' b := by
  obtain ⟨block, t, hb, ht, hstmts, hterm⟩ := h
  exact ⟨block, t, hb, ht, fun x hx => hP x (hstmts x hx), hT t hterm⟩

/-- The reachable blocks of a body mention only what exists. -/
def BodyWithin (c : Context) (f : Function) (body : Body) : Prop :=
  ∀ b, c.Reaches body.entry b →
    c.HasBlock (BlockStmt.Within (c.site f.signature.params)) (Terminator.Within (c.site f.signature.params)) b

/-- The reachable blocks of a body are typed. -/
def BodyTyped (c : Context) (f : Function) (body : Body) : Prop :=
  ∀ b, c.Reaches body.entry b → c.HasBlock (BlockStmt.Typed (c.site f.signature.params))
    (fun t => t.Typed (c.site f.signature.params) f.signature.result) b

theorem BodyTyped.within (hs : c.types.Sound) (h : c.BodyTyped f body) : c.BodyWithin f body :=
  fun b hb => (h b hb).mono (fun _ hx => hx.within hs) fun _ ht => ht.within hs

/-- A typed body stays so when nothing that was there changes. -/
theorem BodyTyped.extends {c' : Context} (h : c.BodyTyped f body)
    (hsite : (c.site f.signature.params).Extends (c'.site f.signature.params))
    (hblocks : ∀ b : BlockId, b.index < c.blocks.size → c'.blocks.get? b = c.blocks.get? b) : c'.BodyTyped f body := by
  have hreaches : ∀ b, c'.Reaches body.entry b → c.Reaches body.entry b := by
    intro b hb
    induction hb with
    | refl => exact .refl
    | @tail b d _ hstep ih =>
      obtain ⟨block, t, hget, ht, -, -⟩ := h b ih
      refine ih.tail ?_
      rw [successors_eq hget ht]
      rwa [successors_eq ((hblocks b (get?_lt hget)).trans hget) ht] at hstep
  intro b hb
  obtain ⟨block, t, hget, ht, hstmts, hterm⟩ := h b (hreaches b hb)
  exact ⟨block, t, (hblocks b (get?_lt hget)).trans hget, ht, fun x hx => (hstmts x hx).extends hsite,
    hterm.extends hsite⟩

/-- Every function with a body is well typed, and the body is its own. -/
def WellTyped (c : Context) : Prop :=
  ∀ fn f body, c.funs.get? fn = some f → f.body = some body → body.parent = fn ∧ c.BodyTyped f body

/-! ## (2) Verifying -/

section Verify

variable {c : Context} {f : Function}

theorem require_eq_ok {condition : Bool} {flaw : Flaw} : require f condition flaw = .ok () ↔ condition = true := by
  cases condition <;> simp [require]

theorem checkType_iff {id : TypeId} : c.checkType f id = .ok () ↔ id.index < c.types.size :=
  require_eq_ok.trans decide_eq_true_iff

theorem checkVar_iff {v : VarId} : c.checkVar f v = .ok () ↔ v.index < c.vars.size :=
  require_eq_ok.trans decide_eq_true_iff

mutual

/-- A value is accepted exactly if all handles in it were issued. -/
theorem checkValue_iff : ∀ {v : Value}, c.checkValue f v = .ok () ↔ v.Within (c.site f.signature.params)
  | .int _ _ _ | .float _ _ _ | .bool _ _ _ | .unit _ _ => by
    rw [within_iff, checkValue, checkType_iff]
    simp [Value.Issued, Value.parts, Value.ty, Context.site]
  | .var v ty span => by
    rw [within_iff, checkValue, andThen_eq_ok, checkType_iff, checkVar_iff]
    simp [Value.Issued, Value.parts, Value.ty, Context.site]
  | .arg _ ty _ | .func _ ty _ => by
    rw [within_iff, checkValue, andThen_eq_ok, checkType_iff, require_eq_ok]
    simp [Value.Issued, Value.parts, Value.ty, Context.site, Arena.contains, Arena.size]
  | .binary lhs op rhs ty span => by
    rw [within_iff, checkValue, andThen_eq_ok, andThen_eq_ok, checkType_iff, checkValue_iff, checkValue_iff]
    simp [Value.Issued, Value.parts, Value.ty, Context.site]
  | .unary _ v ty _ | .cast v ty _ | .member v _ ty _ | .inject _ v ty _ | .project v _ ty _ => by
    rw [within_iff, checkValue, andThen_eq_ok, checkType_iff, checkValue_iff]
    simp [Value.Issued, Value.parts, Value.ty, Context.site]
  | .call callee args ty span => by
    rw [within_iff, checkValue, andThen_eq_ok, andThen_eq_ok, checkType_iff, checkValue_iff, checkValues_iff]
    simp [Value.Issued, Value.parts, Value.ty, Context.site]

theorem checkValues_iff : ∀ {vs : List Value},
    c.checkValues f vs = .ok () ↔ ∀ v ∈ vs, v.Within (c.site f.signature.params)
  | [] => by simp [checkValues, pure, Except.pure]
  | v :: rest => by rw [checkValues, andThen_eq_ok, checkValue_iff, checkValues_iff, List.forall_mem_cons]

end

theorem checkStmt_iff {x : BlockStmt} : c.checkStmt f x = .ok () ↔ x.Within (c.site f.signature.params) := by
  cases x with
  | live v => exact checkVar_iff
  | store v value =>
    rw [checkStmt, andThen_eq_ok, checkVar_iff, checkValue_iff]
    rfl

theorem checkTerminator_ok (h : t.Intact (c.site f.signature.params)) : c.checkTerminator f t = .ok () := by
  cases t with
  | ret value => exact checkValue_iff.mpr h
  | jump target => rfl
  | branch condition ifTrue ifFalse => exact checkValue_iff.mpr h
  | switch scrutinee targets fallback =>
    refine bind_ok (checkValue_iff.mpr h.1) (forM_ok _ fun target htarget => ?_)
    obtain ⟨id, variants, hst, hsum, hlt⟩ := h.2 target htarget
    have hty : c.types.variantType scrutinee.ty target.1 = _ := TypeTable.variantType_of_standsFor hst hsum hlt
    change discard (c.types.variantType scrutinee.ty target.1) = _
    rw [hty]
    rfl

theorem checkBlock_ok
    (h : c.HasBlock (BlockStmt.Within (c.site f.signature.params)) (Terminator.Intact (c.site f.signature.params)) b) :
    c.checkBlock f b = .ok () := by
  obtain ⟨block, t, hb, ht, hstmts, hterm⟩ := h
  rw [checkBlock, hb]
  refine bind_ok (forM_ok _ fun x hx => checkStmt_iff.mpr (hstmts x hx)) ?_
  rw [ht]
  exact checkTerminator_ok hterm

theorem verify_eq_ok (hf : c.funs.get? fn = some f) : c.verify fn = .ok () ↔
    (∀ m ∈ (Ty.func f.signature).mentions, m.index < c.types.size) ∧
    ∀ body, f.body = some body →
      body.parent = fn ∧ ∀ b ∈ c.reachableFrom body.entry, c.checkBlock f b = .ok () := by
  have hget : c.verify fn = _ := bind_eq_of_ok (get_eq_ok.mpr hf)
  rw [hget, andThen_eq_ok, andThen_eq_ok, ← and_assoc]
  refine and_congr ?_ ?_
  · simp only [Ty.mentions, List.forall_mem_cons, List.forall_mem_map, forM_eq_ok, checkType_iff]
  cases f.body with
  | none => simp [pure, Except.pure]
  | some body => simp only [andThen_eq_ok, require_eq_ok, forM_eq_ok, decide_eq_true_eq, Option.some.injEq, forall_eq']

theorem verify_ok (hf : c.funs.get? fn = some f) (hsig : f.signature.Proper c.types)
    (hbody : ∀ body, f.body = some body → body.parent = fn ∧ c.BodyWithin f body) : c.verify fn = .ok () := by
  refine (verify_eq_ok hf).mpr ⟨fun m hm => (hsig m hm).1, fun body hb => ⟨(hbody body hb).1, fun b hmem => ?_⟩⟩
  have hblock := (hbody body hb).2 b (reaches_of_mem_reachableFrom hmem)
  exact checkBlock_ok (hblock.mono (fun _ hx => hx) fun _ ht => ht.intact)

theorem verify_open (hf : c.funs.get? fn = some f) (hsig : f.signature.Proper c.types) (hbody : f.body = some body)
    (hparent : body.parent = fn) (hb : c.blocks.get? body.entry = some block) (ho : block.terminator = none)
    (hstmts : ∀ x ∈ block.stmts.toList, x.Within (c.site f.signature.params)) :
    c.verify fn = .error (.malformed f.name (.openBlock body.entry.index)) := by
  have hparams : f.signature.params.forM (fun p => c.checkType f p.ty) = .ok () :=
    forM_ok _ fun p hp => checkType_iff.mpr (hsig p.ty (.tail _ (List.mem_map_of_mem hp))).1
  have hblock : c.checkBlock f body.entry = .error (.malformed f.name (.openBlock body.entry.index)) := by
    rw [checkBlock, hb]
    refine (bind_eq_of_ok (forM_ok _ fun x hx => checkStmt_iff.mpr (hstmts x hx))).trans ?_
    rw [ho]
    rfl
  refine (bind_eq_of_ok (get_eq_ok.mpr hf)).trans ?_
  refine (bind_eq_of_ok (checkType_iff.mpr (hsig _ (.head _)).1)).trans ((bind_eq_of_ok hparams).trans ?_)
  rw [hbody]
  refine (bind_eq_of_ok (if_pos (decide_eq_true hparent))).trans ?_
  rw [reachableFrom_open hb ho, List.forM_eq_forM, List.forM_cons, hblock]
  rfl

end Verify

/-! ## (3) Printing -/

section Print

variable {c : Context} {params : List Parameter}

mutual

theorem printValue_ok (hl : c.types.Layered) :
    ∀ {v : Value}, v.Within (c.site params) → ∃ text, c.printValue v = .ok text
  | .int _ _ _, _ | .float _ _ _, _ | .bool _ _ _, _ | .unit _ _, _ | .var _ _ _, _ | .arg _ _ _, _ => ⟨_, rfl⟩
  | .func fn ty span, h => by
    obtain ⟨f, hf⟩ := get?_of_lt (h _ (Value.self_mem_nodes _)).2
    exact bind_ok_of ⟨f, get_eq_ok.mpr hf⟩ fun f => ⟨_, rfl⟩
  | .binary lhs op rhs ty span, h =>
    bind_ok_of (printValue_ok hl (h.part (by simp [Value.parts]))) fun _ =>
      bind_ok_of (printValue_ok hl (h.part (by simp [Value.parts]))) fun _ => ⟨_, rfl⟩
  | .cast v ty span, h =>
    bind_ok_of (printValue_ok hl (h.part (by simp [Value.parts]))) fun _ =>
      bind_ok_of (hl.name h.ty_lt) fun _ => ⟨_, rfl⟩
  | .unary _ v ty _, h | .member v _ ty _, h | .inject _ v ty _, h | .project v _ ty _, h =>
    bind_ok_of (printValue_ok hl (h.part (by simp [Value.parts]))) fun _ => ⟨_, rfl⟩
  | .call callee args ty span, h =>
    bind_ok_of (printValue_ok hl (h.part (by simp [Value.parts]))) fun _ =>
      bind_ok_of (printValues_ok hl fun v hv => h.part (by simp [Value.parts, hv])) fun _ => ⟨_, rfl⟩

theorem printValues_ok (hl : c.types.Layered) : ∀ {vs : List Value}, (∀ v ∈ vs, v.Within (c.site params)) →
    ∃ texts, c.printValues vs = .ok texts
  | [], _ => ⟨[], rfl⟩
  | v :: _, h => bind_ok_of (printValue_ok hl (h v (.head _))) fun _ =>
      bind_ok_of (printValues_ok hl fun w hw => h w (.tail _ hw)) fun _ => ⟨_, rfl⟩

end

theorem printStmt_ok (hl : c.types.Layered)
    (hvars : ∀ v var, c.vars.get? v = some var → var.ty.index < c.types.size) {x : BlockStmt}
    (h : x.Within (c.site params)) : ∃ text, c.printStmt x = .ok text := by
  cases x with
  | live v =>
    obtain ⟨var, hvar⟩ := get?_of_lt h
    obtain ⟨name, hname⟩ := hl.name (hvars v var hvar)
    exact ⟨_, bind_ok (get_eq_ok.mpr hvar) (bind_ok hname rfl)⟩
  | store v value => exact bind_ok_of (printValue_ok hl h.2) fun _ => ⟨_, rfl⟩

theorem printTerminator_ok (hl : c.types.Layered) (h : t.Intact (c.site params)) :
    ∃ text, c.printTerminator t = .ok text := by
  cases t with
  | ret | branch => exact bind_ok_of (printValue_ok hl h) fun _ => ⟨_, rfl⟩
  | jump target => exact ⟨_, rfl⟩
  | switch scrutinee targets fallback =>
    refine bind_ok_of (printValue_ok hl h.1) fun _ => ?_
    refine bind_ok_of (exists_mapM_ok _ fun target htarget => ?_) fun _ => ⟨_, rfl⟩
    obtain ⟨id, variants, hst, hsum, hlt⟩ := h.2 target htarget
    have hty : c.types.variantType scrutinee.ty target.1 = _ := TypeTable.variantType_of_standsFor hst hsum hlt
    have hvariant := hl id _ hsum rfl _ (List.getElem_mem hlt)
    obtain ⟨name, hname⟩ := hl.name (hvariant.trans (Interner.get?_lt hsum))
    exact ⟨_, bind_ok hty (bind_ok hname rfl)⟩

section

variable (hl : c.types.Layered) (hvars : ∀ v var, c.vars.get? v = some var → var.ty.index < c.types.size)
include hl hvars

theorem printBlock_ok (h : c.HasBlock (BlockStmt.Within (c.site params)) (Terminator.Intact (c.site params)) b) :
    ∃ text, c.printBlock b = .ok text := by
  obtain ⟨block, t, hb, ht, hstmts, hterm⟩ := h
  refine exists_bind_ok (get_eq_ok.mpr hb) (bind_ok_of (exists_mapM_ok _ fun x hx => ?_) fun _ => ?_)
  · exact bind_ok_of (printStmt_ok hl hvars (hstmts x hx)) fun _ => ⟨_, rfl⟩
  · rw [ht]
    exact bind_ok_of (printTerminator_ok hl hterm) fun _ => ⟨_, rfl⟩

theorem printFun_of_blocks
    (hf : c.funs.get? fn = some f)
    (hsig : ∀ m ∈ (Ty.func f.signature).mentions, m.index < c.types.size)
    (hbody : ∀ body, f.body = some body → ∀ b, c.Reaches body.entry b →
      c.HasBlock (BlockStmt.Within (c.site f.signature.params)) (Terminator.Intact (c.site f.signature.params)) b) :
    ∃ text, c.printFun fn = .ok text := by
  refine exists_bind_ok (get_eq_ok.mpr hf) (bind_ok_of (exists_mapM_ok _ fun p hp => ?_) fun _ =>
    bind_ok_of (hl.name (hsig _ (.head _))) fun _ => ?_)
  · refine bind_ok_of (hl.name (hsig p.ty (.tail _ (List.mem_map_of_mem hp)))) fun _ => ?_
    split <;> exact ⟨_, rfl⟩
  · split
    · exact ⟨_, rfl⟩
    · rename_i body hb
      refine bind_ok_of (exists_mapM_ok _ fun b hmem => ?_) fun _ => ⟨_, rfl⟩
      exact printBlock_ok hl hvars (hbody body hb b (reaches_of_mem_reachableFrom hmem))

end

theorem printFun_ok (hs : c.types.Sound) (hvars : ∀ v var, c.vars.get? v = some var → var.ty.index < c.types.size)
    (hf : c.funs.get? fn = some f) (hsig : f.signature.Proper c.types)
    (hbody : ∀ body, f.body = some body → c.BodyWithin f body) : ∃ text, c.printFun fn = .ok text :=
  printFun_of_blocks hs.layered hvars hf (fun m hm => (hsig m hm).1) fun body hb b hreach =>
    (hbody body hb b hreach).mono (fun _ hx => hx) fun _ ht => ht.intact

/-- A context is printed when each of its functions is. -/
theorem print_ok (h : ∀ fn f, c.funs.get? fn = some f → ∃ text, c.printFun fn = .ok text) :
    ∃ text, c.print = .ok text := by
  refine bind_ok_of (exists_mapM_ok _ fun fn hfn => ?_) fun _ => ⟨_, rfl⟩
  obtain ⟨i, hi, rfl⟩ := List.mem_map.mp hfn
  obtain ⟨f, hf⟩ := get?_of_lt (show (Handle.mk i : FunId).index < c.funs.size from List.mem_range.mp hi)
  exact bind_ok_of (h _ f hf) fun _ => ⟨_, rfl⟩

end Print

end Context

end BlockCompiler
