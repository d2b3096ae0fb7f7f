/-
  BlockCompiler.Proofs.PlanRight — what a plan says of the blocks is right.

  On the way from the entry of a block on, whatever uses a variable comes after the statement that
  makes it live, unless it is live at the entry; a payload is read only where the guard of the
  block vouches for it; and the variable of a match is stored to once, where the match is. This is
  `Plan.Right` of one block and `Plan.Sound` of all, and each step keeps it (`Step.sound`).
-/
import BlockCompiler.Proofs.Plan

namespace BlockCompiler

variable {v : Value} {x : VarId} {stmt : BlockStmt} {block : Block}

/-! ## Uses, payloads and stores -/

/-- The variable is read somewhere in the value. -/
def Value.Refers (v : Value) (x : VarId) : Prop := ∃ ty span, Value.var x ty span ∈ v.nodes

/-- The variable is stored to or read. -/
def BlockStmt.Uses : BlockStmt → VarId → Prop
  | .live _, _ => False
  | .store y value, x => x = y ∨ value.Refers x

/-- No payload is read anywhere in the value. -/
def Value.Unprojected (v : Value) : Prop := ∀ sum d ty span, Value.project sum d ty span ∉ v.nodes

def BlockStmt.storesTo : BlockStmt → VarId → Bool
  | .live _, _ => false
  | .store y _, x => y = x

/-- How many statements of the block store to the variable. -/
def Block.stores (block : Block) (x : VarId) : Nat := block.stmts.toList.countP (·.storesTo x)

theorem Value.Plain.refers {P : VarId → Prop} (h : v.Plain P) (hx : v.Refers x) : P x := by
  obtain ⟨ty, span, hmem⟩ := hx
  exact h _ hmem

theorem Value.Plain.unprojected {P : VarId → Prop} (h : v.Plain P) : v.Unprojected :=
  fun _ _ _ _ hmem => h _ hmem

namespace Lowering

open State
open Plan (Kept)

/-! ## Plans -/

variable {P P' : Plan} {s s' : State} {a b : BlockId} {lo first : Nat}

/-- Where a member of a list with one more member stands. -/
theorem split_concat {α : Type} {l pre post : List α} {new y : α} (h : l ++ [new] = pre ++ y :: post) :
    (pre = l ∧ y = new) ∨ ∃ post, l = pre ++ y :: post := by
  rcases List.eq_nil_or_concat post with rfl | ⟨post, last, rfl⟩
  · obtain ⟨hpre, hy⟩ := List.append_inj' h rfl
    exact .inl ⟨hpre.symm, (List.singleton_inj.mp hy).symm⟩
  · have h : l ++ [new] = (pre ++ y :: post) ++ [last] := by simpa using h
    exact .inr ⟨post, (List.append_inj' h rfl).1⟩

theorem State.stores_append (h : (s.append b stmt).blocks.get? a = some block) (x : VarId) :
    ∃ old, s.blocks.get? a = some old ∧
      block.stores x = old.stores x + if a = b ∧ stmt.storesTo x then 1 else 0 := by
  rw [get?_blocks_append] at h
  split at h
  · rename_i heq
    subst heq
    obtain ⟨old, hold, rfl⟩ := Option.map_eq_some_iff.mp h
    exact ⟨old, hold, by simp [Block.stores, List.countP_append, List.countP_singleton]⟩
  · exact ⟨block, h, by simp [*]⟩

namespace Plan

theorem has_iff (h : s.blocks.get? b = some block) :
    P.Has s b x ↔ P.live b x ∨ .live x ∈ block.stmts.toList := by
  simp [Has, h]

theorem Enters.kept {t : Terminator} {j : BlockId} (h : P.Enters s b t j) (hk : Kept (P, s) (P', s'))
    (hb : b.index < s.blocks.size) : P'.Enters s' b t j := by
  refine ⟨Nat.lt_of_lt_of_le h.lt hk.size_le, fun x hx => ?_, ?_⟩
  · rw [hk.live j h.lt] at hx
    exact hk.has b x hb (h.live x hx)
  · rw [hk.guard j h.lt]
    exact h.guard

/-- The value is the payload that the guard of the block vouches for. -/
def Vouches (P : Plan) (b : BlockId) (v : Value) : Prop :=
  ∃ g ∈ P.guard b, ∃ varTy ty varSpan span, v = .project (.var g.var varTy varSpan) g.variant ty span

theorem Loads.vouched (h : P.Loads s b v) : v.Unprojected ∨ P.Vouches b v := by
  cases h with
  | plain hv => exact .inl hv.unprojected
  | arg i ty span => exact .inl (by simp [Value.Unprojected, Value.nodes])
  | payload varTy ty varSpan span hguard _ => exact .inr ⟨_, hguard, varTy, ty, varSpan, span, rfl⟩

theorem Loads.refers (h : P.Loads s b v) (hx : v.Refers x) : P.Has s b x := by
  cases h with
  | plain hv => exact hv.refers hx
  | arg i ty span =>
    obtain ⟨_, _, hmem⟩ := hx
    simp [Value.nodes] at hmem
  | payload varTy ty varSpan span _ hhas =>
    obtain ⟨_, _, hmem⟩ := hx
    simp only [Value.nodes, List.mem_cons, List.not_mem_nil, or_false, reduceCtorEq, false_or, Value.var.injEq] at hmem
    rw [hmem.1]
    exact hhas

theorem Loads.kept (h : P.Loads s b v) (hk : Kept (P, s) (P', s')) (hb : b.index < s.blocks.size) :
    P'.Loads s' b v := by
  cases h with
  | plain hv => exact .plain (hv.mono fun x => hk.has b x hb)
  | arg i ty span => exact .arg i ty span
  | payload varTy ty varSpan span hguard hhas =>
    exact .payload varTy ty varSpan span ((hk.guard b hb).trans hguard) (hk.has b _ hb hhas)

/-- What the plan says of the block is right. Variables that become live are numbered from `first` on. -/
structure Right (P : Plan) (first : Nat) (s : State) (b : BlockId) (block : Block) : Prop where
  uses : ∀ pre stmt post, block.stmts.toList = pre ++ stmt :: post → ∀ x, stmt.Uses x →
    P.live b x ∨ BlockStmt.live x ∈ pre
  fresh : ∀ x, BlockStmt.live x ∈ block.stmts.toList → first ≤ x.index ∧ x.index < s.vars.size
  loads : ∀ y v, .store y v ∈ block.stmts.toList → v.Unprojected ∨ P.Vouches b v
  issued : ∀ x : VarId, s.vars.size ≤ x.index → block.stores x = 0
  ends : ∀ t ∈ block.terminator, ∀ v ∈ t.value?, v.Plain (P.Has s b)
  leads : ∀ t ∈ block.terminator, ∀ j ∈ t.successors, P.Enters s b t j
  /-- The variable of a match is stored to where the match is. -/
  once : ∀ x a, P.home x = some a → block.stores x = if b = a then 1 else 0

/-- What the plan says is right of all blocks from `lo` on. -/
structure Sound (lo first : Nat) (c : Plan × State) : Prop where
  first_le : first ≤ c.2.vars.size
  homes : ∀ x b, c.1.home x = some b → x.index < c.2.vars.size ∧ b.index < c.2.blocks.size
  guards : ∀ b g, c.1.guard b = some g → c.1.home g.var = some g.block
  right : ∀ b block, lo ≤ b.index → c.2.blocks.get? b = some block → c.1.Right first c.2 b block

/-- A block that is left alone. -/
theorem Right.kept (h : P.Right first s b block) (hk : Kept (P, s) (P', s')) (hb : b.index < s.blocks.size)
    (honce : ∀ x a, P'.home x = some a → block.stores x = if b = a then 1 else 0) : P'.Right first s' b block where
  uses pre stmt post heq x hx := by
    rw [hk.live b hb]
    exact h.uses pre stmt post heq x hx
  fresh x hx := ⟨(h.fresh x hx).1, Nat.lt_of_lt_of_le (h.fresh x hx).2 hk.vars_le⟩
  loads y v hmem := by
    unfold Vouches
    rw [hk.guard b hb]
    exact h.loads y v hmem
  issued x hx := h.issued x (Nat.le_trans hk.vars_le hx)
  ends t ht v hv := (h.ends t ht v hv).mono fun x => hk.has b x hb
  leads t ht j hj := (h.leads t ht j hj).kept hk hb
  once := honce

namespace Sound

section

variable (h : Sound lo first (P, s))
include h

theorem quiet (hblocks : s'.blocks = s.blocks) (hvars : s.vars.size ≤ s'.vars.size) : Sound lo first (P, s') := by
  have hk := (Step.quiet (P := P) hblocks hvars).kept
  refine ⟨Nat.le_trans h.first_le hvars, fun x b hx => ?_, h.guards, fun b block hlo hget => ?_⟩
  · rw [hblocks]
    exact ⟨Nat.lt_of_lt_of_le (h.homes x b hx).1 hvars, (h.homes x b hx).2⟩
  · rw [hblocks] at hget
    have hr := h.right b block hlo hget
    exact hr.kept hk (Arena.get?_lt hget) hr.once

/-- A variable that is new is not the variable of a match. -/
theorem home_next : P.home s.vars.next = none := by
  cases hhome : P.home s.vars.next with
  | none => rfl
  | some b => exact absurd (h.homes _ b hhome).1 (Nat.lt_irrefl _)

/-- One more statement. -/
theorem append (ho : s.IsOpen b)
    (hlive : ∀ x, stmt = .live x → first ≤ x.index ∧ x.index < s.vars.size)
    (hstore : ∀ y v, stmt = .store y v → y.index < s.vars.size ∧ P.home y = none ∧ P.Has s b y ∧ P.Loads s b v) :
    Sound lo first (P, s.append b stmt) := by
  have hk : Kept (P, s) (P, s.append b stmt) := .of_has (size_append _ _ _) (Nat.le_refl _) fun _ _ hx => hx.append _
  have huses : ∀ x, stmt.Uses x → P.Has s b x := fun x hx => by
    cases stmt with
    | live _ => exact hx.elim
    | store y v =>
      obtain ⟨-, -, hy, hv⟩ := hstore y v rfl
      rcases hx with rfl | hx
      · exact hy
      · exact hv.refers hx
  have hother : ∀ x, s.vars.size ≤ x.index ∨ (∃ h, P.home x = some h) → stmt.storesTo x = false := by
    intro x hx
    cases stmt with
    | live _ => rfl
    | store y v =>
      obtain ⟨hlt, hhome, -⟩ := hstore y v rfl
      refine decide_eq_false ?_
      rintro rfl
      rcases hx with hx | ⟨b, hx⟩
      · exact Nat.not_le.mpr hlt hx
      · rw [hhome] at hx
        cases hx
  refine ⟨h.first_le, (size_append s b stmt).symm ▸ h.homes, h.guards, fun a block hlo hget => ?_⟩
  obtain ⟨old, hold, -⟩ := stores_append hget ⟨0⟩
  have hr := h.right a old hlo hold
  have hstores : ∀ x, stmt.storesTo x = false → block.stores x = old.stores x := fun x hx => by
    obtain ⟨old', hold', heq⟩ := stores_append hget x
    rw [hold] at hold'
    cases hold'
    simpa [hx] using heq
  rw [get?_blocks_append] at hget
  split at hget
  · rename_i heq
    subst heq
    obtain ⟨open', hopen, hterm⟩ := ho
    rw [hold] at hopen hget
    cases hopen
    cases hget
    refine ⟨fun pre y post heq x hx => ?_, fun x hx => ?_, fun y v hmem => ?_, fun x hx => ?_, by simp [hterm],
      by simp [hterm], fun x b hx => ?_⟩
    · rw [Array.toList_push] at heq
      rcases split_concat heq with ⟨rfl, rfl⟩ | ⟨post, heq⟩
      · exact (has_iff hold).mp (huses x hx)
      · exact hr.uses pre y post heq x hx
    · simp only [Array.toList_push, List.mem_append, List.mem_singleton] at hx
      rcases hx with hx | hx
      · exact hr.fresh x hx
      · exact hlive x hx.symm
    · simp only [Array.toList_push, List.mem_append, List.mem_singleton] at hmem
      rcases hmem with hmem | hmem
      · exact hr.loads y v hmem
      · exact (hstore y v hmem.symm).2.2.2.vouched
    · exact (hstores x (hother x (.inl hx))).trans (hr.issued x hx)
    · exact (hstores x (hother x (.inr ⟨b, hx⟩))).trans (hr.once x b hx)
  · rw [hold] at hget
    cases hget
    exact hr.kept hk (Arena.get?_lt hold) hr.once

/-- A variable becomes live and may get its first value. -/
theorem declare (ho : s.IsOpen b) (ty : TypeId) (name : String) {value : Option Value}
    (hv : ∀ v ∈ value, P.Loads s b v) : Sound lo first (P, s.declare b ty name value) := by
  have hvar : Sound lo first (P, s.addVar ty name) := h.quiet rfl (by simp [State.addVar])
  have hopen : (s.addVar ty name).IsOpen b := ho
  have hlive : Sound lo first (P, (s.addVar ty name).append b (.live s.vars.next)) := by
    refine hvar.append hopen (fun x hx => ?_) fun y v hx => by cases hx
    cases hx
    exact ⟨h.first_le, by simp [State.addVar]⟩
  cases value with
  | none => exact hlive
  | some v =>
    refine hlive.append (hopen.append _) (fun x hx => by cases hx) fun y w hx => ?_
    cases hx
    have hk : Kept (P, s) (P, s.declare b ty name none) := (Step.declare ty name ho (by simp)).kept
    have hlt : s.vars.next.index < (s.declare b ty name none).vars.size := by simp [vars_size_declare]
    exact ⟨hlt, h.home_next, has_declare ho.lt ty name none, (hv v rfl).kept hk ho.lt⟩

theorem addBlock (live : VarId → Prop) {guard : Option Guard} (hguard : ∀ g ∈ guard, P.home g.var = some g.block) :
    Sound lo first (P.addBlock s.blocks.next live guard, s.addBlock) := by
  have hk := (Step.addBlock (s := s) live hguard).kept
  refine ⟨h.first_le, fun x b hx => ?_, fun b g hg => ?_, fun b block hlo hget => ?_⟩
  · exact ⟨(h.homes x b hx).1, Nat.lt_of_lt_of_le (h.homes x b hx).2 (by simp)⟩
  · by_cases hb : b = s.blocks.next
    · exact hguard g (by simpa [Plan.addBlock, hb] using hg)
    · exact h.guards b g (by simpa [Plan.addBlock, hb] using hg)
  · simp only [State.addBlock, Arena.get?_insert] at hget
    split at hget
    · rename_i hb
      cases hget
      refine ⟨fun pre stmt post heq => by simp at heq, by simp, by simp, fun x _ => rfl, by simp, by simp, fun x a hx => ?_⟩
      have hne : b ≠ a := by
        rintro rfl
        exact Nat.lt_irrefl _ (hb ▸ (h.homes x b hx).2)
      rw [if_neg hne]
      rfl
    · have hr := h.right b block hlo hget
      exact hr.kept hk (Arena.get?_lt hget) hr.once

theorem close {t : Terminator} (ho : s.IsOpen b) (hv : ∀ v ∈ t.value?, v.Plain (P.Has s b))
    (hj : ∀ j ∈ t.successors, P.Enters s b t j) : Sound lo first (P, s.close b t) := by
  have hk := (Step.close ho hv hj).kept
  refine ⟨h.first_le, (size_close s b t).symm ▸ h.homes, h.guards, fun a block hlo hget => ?_⟩
  rw [get?_blocks_close] at hget
  split at hget
  · rename_i heq
    subst heq
    obtain ⟨old, hold, rfl⟩ := Option.map_eq_some_iff.mp hget
    have hr := h.right a old hlo hold
    refine ⟨hr.uses, hr.fresh, hr.loads, hr.issued, ?_, ?_, hr.once⟩
    · rintro t' ⟨⟩ v hmem
      exact (hv v hmem).mono fun x => hk.has a x ho.lt
    · rintro t' ⟨⟩ j hmem
      exact (hj j hmem).kept hk ho.lt
  · have hr := h.right a block hlo hget
    exact hr.kept hk (Arena.get?_lt hget) hr.once

/-- A match keeps its value. -/
theorem hide (ho : s.IsOpen b) (hv : v.Plain (P.Has s b)) :
    Sound lo first (P.hide s.vars.next b, s.declare b v.ty "match" (some v)) := by
  have hdeclare : Sound lo first (P, s.declare b v.ty "match" (some v)) :=
    h.declare ho v.ty "match" (by simpa using .plain hv)
  have hsame : ∀ x a, P.home x = some a → x ≠ s.vars.next := fun x a hx heq => by
    rw [heq, h.home_next] at hx
    cases hx
  refine ⟨hdeclare.first_le, fun x a hx => ?_, fun a g hg => ?_, fun a block hlo hget => ?_⟩
  · by_cases heq : x = s.vars.next
    · obtain rfl : b = a := by simpa [Plan.hide, heq] using hx
      rw [heq]
      exact ⟨by simp [vars_size_declare], by simpa using ho.lt⟩
    · exact hdeclare.homes x a (by simpa [Plan.hide, heq] using hx)
  · have hhome := h.guards a g hg
    exact (Function.update_of_ne (hsame _ _ hhome) _ _).trans hhome
  · have hr := hdeclare.right a block hlo hget
    refine { hr with leads := fun t ht j hj => { hr.leads t ht j hj with }, once := fun x a' hx => ?_ }
    by_cases heq : x = s.vars.next
    · -- there was no store to the variable before
      obtain rfl : b = a' := by simpa [Plan.hide, heq] using hx
      obtain ⟨old, hold, hstores⟩ := stores_append hget x
      obtain ⟨old', hold', hstores'⟩ := stores_append hold x
      have hnone := (h.right a old' hlo hold').issued x (heq ▸ Nat.le_refl _)
      rw [hstores, hstores', hnone]
      simp [BlockStmt.storesTo, heq]
    · exact hr.once x a' (by simpa [Plan.hide, heq] using hx)

end

end Sound

end Plan

theorem Step.sound {c c' : Plan × State} (h : Step c c') (hc : Plan.Sound lo first c) : Plan.Sound lo first c' := by
  cases h with
  | quiet hblocks hvars => exact hc.quiet hblocks hvars
  | addBlock live hguard => exact hc.addBlock live hguard
  | declare ty name ho hv => exact hc.declare ho ty name hv
  | hide ho hv => exact hc.hide ho hv
  | assign ho hlt hx hhome hv =>
    refine hc.append ho (fun y hy => by cases hy) fun y v heq => ?_
    cases heq
    exact ⟨hlt, hhome, hx, .plain hv⟩
  | close ho hv hj => exact hc.close ho hv hj

/-- Steps that start with nothing assumed, from a state on. -/
theorem Steps.sound {before after : State} (h : Steps (Plan.blank, before) (P, after)) :
    Plan.Sound before.blocks.size before.vars.size (P, after) := by
  refine Steps.keeps Step.sound h ⟨Nat.le_refl _, by simp [Plan.blank], by simp [Plan.blank], fun b block hlo hget => ?_⟩
  exact absurd (Arena.get?_lt hget) (Nat.not_lt.mpr hlo)

end Lowering

end BlockCompiler
