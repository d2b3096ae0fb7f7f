/-
  BlockCompiler.Proofs.Liveness — variables are used where they are live.

  A `Trail` is the way that control took from the entry of a function to where it is. On each
  trail, whatever uses a variable comes after the statement that makes it live: a plan says what is
  live where a block is entered, and is right.

  (1) Mentions and trails.
  (2) Lowered modules (`lowerModule_live`).
-/
import BlockCompiler.Proofs.PlanRight

namespace BlockCompiler

variable {c : Context} {b entry : BlockId} {via : List BlockId}

/-! ## (1) Mentions and trails -/

def Terminator.Uses (t : Terminator) (x : VarId) : Prop := ∃ v ∈ t.value?, v.Refers x

def Block.Mentions (block : Block) (x : VarId) : Prop :=
  .live x ∈ block.stmts.toList ∨ (∃ stmt ∈ block.stmts.toList, stmt.Uses x) ∨ ∃ t ∈ block.terminator, t.Uses x

namespace Context

/-- The statements of a block; none for a handle that names no block. -/
def stmtsOf (c : Context) (b : BlockId) : List BlockStmt := ((c.blocks.get? b).map (·.stmts.toList)).getD []

/-- Control entered at `entry`, has left the blocks `via`, in this order, and is now in the last one. -/
inductive Trail (c : Context) (entry : BlockId) : List BlockId → BlockId → Prop
  | start : Trail c entry [] entry
  | step {via : List BlockId} {a b : BlockId} : Trail c entry via a → b ∈ c.successors a →
      Trail c entry (via ++ [a]) b

theorem Trail.reaches (h : c.Trail entry via b) : c.Reaches entry b := by
  induction h with
  | start => exact .refl
  | step _ hstep ih => exact ih.tail hstep

/-- Blocks that were left could be reached. -/
theorem Trail.reaches_via (h : c.Trail entry via b) : ∀ a ∈ via, c.Reaches entry a := by
  induction h with
  | start => simp
  | step htrail _ ih =>
    intro a ha
    rcases List.mem_append.mp ha with ha | ha
    · exact ih a ha
    · rw [List.mem_singleton.mp ha]
      exact htrail.reaches

theorem exists_trail (h : c.Reaches entry b) : ∃ via, c.Trail entry via b := by
  induction h with
  | refl => exact ⟨[], .start⟩
  | tail _ hstep ih =>
    obtain ⟨via, htrail⟩ := ih
    exact ⟨_, htrail.step hstep⟩

end Context

namespace Lowering

open State

/-! ## (2) Modules -/

variable {P : Plan} {s s' : State} {b : BlockId} {x : VarId}

section

variable {cfg : Settings} {p : Piece} {block : Block}

/-- There is a plan for each function with a body. -/
theorem Piece.Fits.plan (h : p.Fits cfg s) : ∃ P, Steps (Plan.blank, p.before) (P, p.after) ∧
    (P.live p.before.blocks.next = fun _ => False) ∧ P.guard p.before.blocks.next = none := by
  obtain ⟨last, s1, hbuilt⟩ := h.built
  exact hbuilt.follows h.scopes h.errors

theorem Steps.right {before after : State} (h : Steps (Plan.blank, before) (P, after))
    (hb : before.blocks.size ≤ b.index) (hget : after.blocks.get? b = some block) :
    P.Right before.vars.size after b block := h.sound.right b block hb hget

/-- What the terminator of a block uses is live at its end. -/
theorem Plan.Right.live_of_uses {first : Nat} {t : Terminator} (h : P.Right first s b block)
    (hget : s.blocks.get? b = some block) (ht : t ∈ block.terminator) (hx : t.Uses x) :
    P.live b x ∨ BlockStmt.live x ∈ block.stmts.toList := by
  obtain ⟨v, hv, hx⟩ := hx
  exact (Plan.has_iff hget).mp ((h.ends t ht v hv).refers hx)

/-- What the plan says is live in a block was made live on the way to it. -/
theorem Piece.Fits.live_of_trail (h : p.Fits cfg s) (hP : Steps (Plan.blank, p.before) (P, p.after))
    (hentry : P.live p.before.blocks.next = fun _ => False)
    (ht : s.context.Trail p.before.blocks.next via b) (hx : P.live b x) :
    BlockStmt.live x ∈ via.flatMap s.context.stmtsOf := by
  induction ht with
  | start =>
    rw [hentry] at hx
    exact hx.elim
  | @step via a b htrail hstep ih =>
    have hnew := h.reaches_iff.mp htrail.reaches
    obtain ⟨block, t, hget, hterm, hmem⟩ := Context.mem_successors hstep
    have hafter := (h.get?_block a hnew).symm.trans hget
    have henters := (hP.right hnew.1 hafter).leads t hterm b hmem
    have hstmts : s.context.stmtsOf a = block.stmts.toList := by simp [Context.stmtsOf, hget]
    rw [List.flatMap_append, List.mem_append, List.flatMap_singleton, hstmts]
    exact ((Plan.has_iff hafter).mp (henters.live x hx)).imp ih id

/-- The variables that a function mentions were made for it. -/
theorem Piece.Fits.issued (h : p.Fits cfg s) (hb : p.before.IsNew p.after b) (hget : s.blocks.get? b = some block)
    (hx : block.Mentions x) : p.before.vars.size ≤ x.index ∧ x.index < p.after.vars.size := by
  obtain ⟨P, hP, hentry, -⟩ := h.plan
  obtain ⟨via, htrail⟩ := Context.exists_trail (h.reaches_iff.mpr hb)
  have hafter := (h.get?_block b hb).symm.trans hget
  have hr := hP.right hb.1 hafter
  -- a variable that is live on entry was made live in a block of the trail
  have hlive : P.live b x → p.before.vars.size ≤ x.index ∧ x.index < p.after.vars.size := by
    intro hx
    obtain ⟨a, ha, hx⟩ := List.mem_flatMap.mp (h.live_of_trail hP hentry htrail hx)
    have hnew := h.reaches_iff.mp (htrail.reaches_via a ha)
    unfold Context.stmtsOf at hx
    cases hget : s.blocks.get? a with
    | none =>
      rw [hget] at hx
      cases hx
    | some block =>
      rw [hget] at hx
      exact (hP.right hnew.1 ((h.get?_block a hnew).symm.trans hget)).fresh x hx
  rcases hx with hx | ⟨stmt, hmem, hx⟩ | ⟨t, ht, hx⟩
  · exact hr.fresh x hx
  · obtain ⟨pre, post, heq⟩ := List.append_of_mem hmem
    rcases hr.uses pre stmt post heq x hx with hx | hx
    · exact hlive hx
    · exact hr.fresh x (heq ▸ List.mem_append_left _ hx)
  · rcases hr.live_of_uses hafter ht hx with hx | hx
    · exact hlive hx
    · exact hr.fresh x hx

end

/-- In each function of a lowered module, wherever control has come, a variable is stored to or
read only after it became live; and no two functions mention the same variable. -/
theorem lowerModule_live {cfg : Settings} {m : Surface.Module} {journal : Log.Journal} {fns : List FunId} {s' : State}
    (h : lowerModule cfg m { journal } = .ok (.ok fns) s') :
    (∀ fn f body, s'.context.funs.get? fn = some f → f.body = some body →
      ∀ via b, s'.context.Trail body.entry via b → ∃ block t,
        s'.context.blocks.get? b = some block ∧ block.terminator = some t ∧
        (∀ pre stmt post, block.stmts.toList = pre ++ stmt :: post → ∀ x, stmt.Uses x →
          .live x ∈ via.flatMap s'.context.stmtsOf ++ pre) ∧
        ∀ x, t.Uses x → .live x ∈ via.flatMap s'.context.stmtsOf ++ block.stmts.toList) ∧
    ∀ fn fn' b b' block block' x, s'.context.Lists fn b → s'.context.Lists fn' b' →
      s'.context.blocks.get? b = some block → s'.context.blocks.get? b' = some block' →
      block.Mentions x → block'.Mentions x → fn = fn' := by
  obtain ⟨pieces, hpieces⟩ := assembled_of_lowerModule h
  constructor
  · intro fn f body hf hbody via b htrail
    obtain ⟨p, hp, -, -, hentry⟩ := hpieces.piece hf hbody
    have hfits := hpieces.fits p hp
    rw [← hentry] at htrail
    obtain ⟨P, hP, hblank, -⟩ := hfits.plan
    have hnew := hfits.reaches_iff.mp htrail.reaches
    obtain ⟨block, t, hget, hterm⟩ := hfits.isClosed hnew
    have hafter := (hfits.get?_block b hnew).symm.trans hget
    have hr := hP.right hnew.1 hafter
    have hlive : ∀ x, P.live b x → .live x ∈ via.flatMap s'.context.stmtsOf := fun x hx =>
      hfits.live_of_trail hP hblank htrail hx
    refine ⟨block, t, hget, hterm, fun pre stmt post heq x hx => ?_, fun x hx => ?_⟩
    · exact List.mem_append.mpr ((hr.uses pre stmt post heq x hx).imp (hlive x) id)
    · exact List.mem_append.mpr ((hr.live_of_uses hafter hterm hx).imp (hlive x) id)
  · intro fn fn' b b' block block' x hl hl' hget hget' hx hx'
    obtain ⟨p, hp, rfl, hnew⟩ := hpieces.lists_iff.mp hl
    obtain ⟨q, hq, rfl, hnew'⟩ := hpieces.lists_iff.mp hl'
    have hissued := (hpieces.fits p hp).issued hnew hget hx
    have hissued' := (hpieces.fits q hq).issued hnew' hget' hx'
    by_contra hne
    rcases hpieces.apart hp hq (fun heq => hne (by rw [heq])) with hpq | hqp
    · have := hpq.2.2
      omega
    · have := hqp.2.2
      omega

theorem sampleModule_live : ∃ fns s', lowerModule {} sampleModule {} = .ok (.ok fns) s' ∧
    ∃ f, s'.context.funs.get? ⟨0⟩ = some f ∧ f.body = some ⟨⟨0⟩, ⟨0⟩⟩ ∧ s'.context.Trail ⟨0⟩ [⟨0⟩] ⟨2⟩ ∧
      ∃ block, s'.context.blocks.get? ⟨2⟩ = some block ∧
        ∀ pre stmt post, block.stmts.toList = pre ++ stmt :: post → ∀ x, stmt.Uses x →
          .live x ∈ s'.context.stmtsOf ⟨0⟩ ++ pre := by
  have hrun : lowersTo sampleModule fun s =>
      (s.funs.get? ⟨0⟩).bind (·.body) = some ⟨⟨0⟩, ⟨0⟩⟩ ∧ ⟨2⟩ ∈ s.successors ⟨0⟩ := by decide +kernel
  obtain ⟨fns, s', h, htest⟩ := exists_of_lowersTo hrun
  obtain ⟨hbody, hstep⟩ := of_decide_eq_true htest
  obtain ⟨f, hf, hbody⟩ := Option.bind_eq_some_iff.mp hbody
  have htrail : s'.context.Trail ⟨0⟩ [⟨0⟩] ⟨2⟩ := .step .start hstep
  obtain ⟨block, t, hget, -, huses, -⟩ := (lowerModule_live h).1 ⟨0⟩ f _ hf hbody _ _ htrail
  exact ⟨fns, s', h, f, hf, hbody, htrail, block, hget, by simpa using huses⟩

end Lowering

end BlockCompiler
