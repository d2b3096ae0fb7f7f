/-
  BlockCompiler.Proofs.Effects — what single effects preserve, and so what lowering preserves.

  `Effect`: one effect of lowering the body of a function, with what holds when it is taken.
  The blocks of the body are those from `lo` on. Whatever is a sequence of effects (`Effects`)
  (1) keeps the state sound and only adds to it (`Effects.sound`, `Effects.extends`),
  (2) keeps the number of errors equal to the number of error diagnostics
      (`Effects.counted`),
  (3) keeps all handles issued (`Effects.within`) and, as long as no error is reported, all
      statements and terminators typed (`Effects.typed`).
-/
import BlockCompiler.Proofs.GraphTyping

namespace BlockCompiler.Lowering

open TypeTable (Grows Acyclic)
open Typing (Adds)
open Relation (ReflTransGen)
open State

variable {v : VarId} {b : BlockId} {ty : TypeId} {name : String} {var : Variable}

inductive Effect (cfg : Settings) (sig : Signature) (lo : Nat) : State → State → Prop
  | typing {s : State} {st : Typing} : s.typing.Adds st → Effect cfg sig lo s (s.withTyping st)
  | addBlock {s : State} : Effect cfg sig lo s s.addBlock
  | addVar {s : State} {ty : TypeId} {name : String} : ty.index < s.types.size →
      Effect cfg sig lo s (s.addVar ty name)
  | bind {s : State} {name : String} {v : VarId} {var : Variable} : s.vars.get? v = some var →
      var.name = name → (s.Clean → var.ty ≠ TypeId.invalid) → Effect cfg sig lo s (s.bind name v)
  | enter {s : State} : Effect cfg sig lo s s.enter
  | leave {s : State} : Effect cfg sig lo s s.leave
  | append {s : State} {b : BlockId} {x : BlockStmt} : lo ≤ b.index → s.IsOpen b → x.Within (s.site sig.params) →
      (s.Fine → x.Typed (s.site sig.params)) → Effect cfg sig lo s (s.append b x)
  | close {s : State} {b : BlockId} {t : Terminator} : lo ≤ b.index → s.IsOpen b → t.Within (s.site sig.params) →
      (s.Fine → t.Typed (s.site sig.params) sig.result) →
      (∀ b' ∈ t.successors, lo ≤ b'.index ∧ b'.index < s.blocks.size) → Effect cfg sig lo s (s.close b t)
  | report {s : State} {d : Diagnostic} : Effect cfg sig lo s (s.reported cfg d)
  /-- A rejected variable is bound, and the error is reported. -/
  | poison {s : State} {d : Diagnostic} {name : String} : d.isError = true →
      Effect cfg sig lo s ((s.poisoned name).reported cfg d)

abbrev Effects (cfg : Settings) (sig : Signature) (lo : Nat) : State → State → Prop := ReflTransGen (Effect cfg sig lo)

variable {cfg : Settings} {sig : Signature} {lo : Nat} {s s' s'' : State}

/-! ## (1) Sound states that only grow -/

theorem State.Sound.withTyping (h : s.Sound) {st : Typing} (ha : s.typing.Adds st) : (s.withTyping st).Sound :=
  ⟨ha.sound, fun v var hv => Nat.lt_of_lt_of_le (h.vars v var hv) ha.grows.size_le,
    fun fn f hf => (h.signatures fn f hf).grows ha.grows, h.functions, h.scopes⟩

theorem State.get?_addVar (h : s.vars.get? v = some var) : (s.addVar ty name).vars.get? v = some var :=
  (Arena.get?_insert_of_lt (Arena.get?_lt h)).trans h

theorem State.Sound.addVar (h : s.Sound) (hty : ty.index < s.types.size) (name : String) :
    (s.addVar ty name).Sound := by
  refine ⟨h.types, fun v var hv => ?_, h.signatures, h.functions, fun scope hscope p hp => ?_⟩
  · simp only [State.addVar, Arena.get?_insert] at hv
    split at hv
    · cases hv
      exact hty
    · exact h.vars v var hv
  · obtain ⟨var, hvar, hn⟩ := h.scopes scope hscope p hp
    exact ⟨var, get?_addVar hvar, hn⟩

/-- A scope after a name was bound: one that was there, or the innermost one with the new name. -/
theorem State.mem_scopes_bind {scope : Scope} (h : scope ∈ (s.bind name v).scopes) {p : String × VarId}
    (hp : p ∈ scope) : p = (name, v) ∨ ∃ old ∈ s.scopes, p ∈ old := by
  unfold State.bind at h
  split at h
  · cases h
  · rename_i head rest hs
    rw [hs]
    rcases List.mem_cons.mp h with rfl | h
    · rcases List.mem_cons.mp hp with rfl | hp
      · exact Or.inl rfl
      · exact Or.inr ⟨head, .head _, hp⟩
    · exact Or.inr ⟨scope, .tail _ h, hp⟩

theorem State.Sound.bind (h : s.Sound) (hv : s.vars.get? v = some var) : (s.bind var.name v).Sound := by
  refine { h with scopes := fun scope hscope p hp => ?_ }
  rcases mem_scopes_bind hscope hp with rfl | ⟨old, hold, hp⟩
  · exact ⟨var, hv, rfl⟩
  · exact h.scopes old hold p hp

theorem State.Sound.enter (h : s.Sound) : s.enter.Sound := { h with scopes := by simpa [State.enter] using h.scopes }

theorem Effect.sound (h : Effect cfg sig lo s s') (hs : s.Sound) : s'.Sound := by
  cases h with
  | typing ha => exact hs.withTyping ha
  | addBlock | append | close | report => exact { hs with }
  | addVar hty => exact hs.addVar hty _
  | bind hv hn _ => exact hn ▸ hs.bind hv
  | enter => exact hs.enter
  | leave => exact { hs with scopes := fun scope hscope => hs.scopes scope (List.mem_of_mem_tail hscope) }
  | @poison d name _ =>
    have hvar := hs.addVar hs.types.invalid_lt name
    exact { hvar.bind (Arena.get?_insert_next s.vars { ty := .invalid, name }) with }

theorem Effects.sound (h : Effects cfg sig lo s s') (hs : s.Sound) : s'.Sound := by
  induction h with
  | refl => exact hs
  | tail _ he ih => exact he.sound ih

/-- `s'` has all that `s` has: a block may be appended to and closed, and is final once it is
closed. -/
structure State.Extends (s s' : State) : Prop where
  types : s.typing.Adds s'.typing
  vars : ∀ v var, s.vars.get? v = some var → s'.vars.get? v = some var
  funs : s'.funs = s.funs
  functions : s'.functions = s.functions
  errors : s.errors ≤ s'.errors
  blocks : ∀ b block, s.blocks.get? b = some block → ∃ block', s'.blocks.get? b = some block' ∧
    block.stmts.toList <+: block'.stmts.toList ∧ ∀ t, block.terminator = some t → block' = block

namespace State.Extends

theorem refl (hs : s.Sound) : s.Extends s :=
  ⟨Adds.refl hs.types, fun _ _ h => h, rfl, rfl, Nat.le_refl _,
    fun _ block h => ⟨block, h, List.prefix_refl _, fun _ _ => rfl⟩⟩

theorem trans (h : s.Extends s') (h' : s'.Extends s'') : s.Extends s'' := by
  refine ⟨h.types.trans h'.types, fun v var hv => h'.vars v var (h.vars v var hv), h'.funs.trans h.funs,
    h'.functions.trans h.functions, Nat.le_trans h.errors h'.errors, fun b block hb => ?_⟩
  obtain ⟨block₁, hb1, hp1, hc1⟩ := h.blocks b block hb
  obtain ⟨block₂, hb2, hp2, hc2⟩ := h'.blocks b block₁ hb1
  refine ⟨block₂, hb2, hp1.trans hp2, fun t ht => ?_⟩
  have he := hc1 t ht
  subst he
  exact hc2 t ht

theorem site (h : s.Extends s') (params : List Parameter) : (s.site params).Extends (s'.site params) :=
  ⟨h.types.grows, h.vars, fun fn f hf => ⟨f, by simpa [State.site, Context.site, h.funs] using hf, rfl, rfl⟩, rfl⟩

theorem size_le (h : s.Extends s') : s.blocks.size ≤ s'.blocks.size :=
  Arena.size_le_of_get? fun b block hb => by
    obtain ⟨block', hb', -⟩ := h.blocks b block hb
    exact ⟨block', hb'⟩

/-- Changing an open block without removing anything. -/
theorem changeBlock (hs : s.Sound) {f : Block → Block} (ho : s.IsOpen b)
    (hf : ∀ block, block.stmts.toList <+: (f block).stmts.toList) : s.Extends (s.changeBlock b f) := by
  refine { State.Extends.refl hs with blocks := fun b' block hb => ?_ }
  simp only [State.changeBlock, Arena.get?_modify]
  split
  · rename_i heq
    subst heq
    obtain ⟨_, hopen, hnone⟩ := ho
    rw [hopen] at hb
    cases hb
    rw [hopen]
    exact ⟨f block, rfl, hf block, fun t ht => by rw [hnone] at ht; cases ht⟩
  · exact ⟨block, hb, List.prefix_refl _, fun _ _ => rfl⟩

end State.Extends

theorem Effect.extends (h : Effect cfg sig lo s s') (hs : s.Sound) : s.Extends s' := by
  have hself := State.Extends.refl hs
  cases h with
  | typing ha => exact { hself with types := ha }
  | addBlock =>
    refine { hself with blocks := fun b block hb => ⟨block, ?_, List.prefix_refl _, fun _ _ => rfl⟩ }
    exact (Arena.get?_insert_of_lt (Arena.get?_lt hb)).trans hb
  | addVar hty => exact { hself with vars := fun _ _ h => get?_addVar h }
  | bind | enter | leave => exact { hself with }
  | append _ ho _ _ => exact Extends.changeBlock hs ho fun block => ⟨[_], by rw [Array.toList_push]⟩
  | close _ ho _ _ _ => exact Extends.changeBlock hs ho fun block => List.prefix_refl _
  | report =>
    refine { hself with types := { hself.types with }, errors := ?_ }
    simp only [State.reported]
    split <;> omega
  | poison _ =>
    refine { hself with types := { hself.types with }, vars := fun _ _ h => get?_addVar h, errors := ?_ }
    simp only [State.reported, State.poisoned, State.bind, State.addVar]
    split <;> omega

theorem Effects.extends (h : Effects cfg sig lo s s') (hs : s.Sound) : s.Extends s' := by
  induction h with
  | refl => exact State.Extends.refl hs
  | tail hsteps he ih => exact ih.trans (he.extends (Effects.sound hsteps hs))

/-! ## (2) Counting errors -/

/-- The errors counted are the error diagnostics reported. -/
def State.Counted (s : State) : Prop := s.errors = s.diags.toList.countP (·.isError)

theorem State.Counted.reported (hc : s.Counted) (d : Diagnostic) : (s.reported cfg d).Counted := by
  unfold Counted at hc
  simp only [Counted, State.reported, Array.toList_push, List.countP_append, List.countP_singleton, ← hc]
  split <;> rfl

theorem Effect.counted (h : Effect cfg sig lo s s') (hc : s.Counted) : s'.Counted := by
  cases h with
  | @report d => exact hc.reported d
  | @poison d name _ =>
    have hpoisoned : (s.poisoned name).Counted := hc
    exact hpoisoned.reported d
  | _ => exact hc

theorem Effects.counted (h : Effects cfg sig lo s s') (hc : s.Counted) : s'.Counted := by
  induction h with
  | refl => exact hc
  | tail _ he ih => exact he.counted ih

/-! ## (3) Handles and types in the blocks of the body -/

/-- Blocks outside the body are not touched. -/
theorem Effect.below (h : Effect cfg sig lo s s') (hlo : lo ≤ s.blocks.size) (hb : b.index < lo) :
    s'.blocks.get? b = s.blocks.get? b := by
  have hother : ∀ {b' : BlockId} {f : Block → Block}, lo ≤ b'.index →
      (s.changeBlock b' f).blocks.get? b = s.blocks.get? b := by
    intro b' f hlo
    simp only [State.changeBlock, Arena.get?_modify]
    refine if_neg ?_
    rintro rfl
    omega
  cases h with
  | addBlock => exact Arena.get?_insert_of_lt (Nat.lt_of_lt_of_le hb hlo)
  | append hle => exact hother hle
  | close hle => exact hother hle
  | _ => rfl

theorem Effects.below (h : Effects cfg sig lo s s') (hs : s.Sound) (hlo : lo ≤ s.blocks.size)
    (hb : b.index < lo) : s'.blocks.get? b = s.blocks.get? b := by
  induction h with
  | refl => rfl
  | tail hsteps he ih =>
    have hsize := (Effects.extends hsteps hs).size_le
    exact (he.below (by omega) hb).trans ih

/-- A property of all blocks of the body that is kept when the site is extended, and that
everything appended or closed with has, holds after an effect. -/
theorem Effect.region (h : Effect cfg sig lo s s') (hs : s.Sound) {P : Site → BlockStmt → Prop}
    {T : Site → Terminator → Prop} (hP : ∀ {σ σ' : Site}, σ.Extends σ' → ∀ x, P σ x → P σ' x)
    (hT : ∀ {σ σ' : Site}, σ.Extends σ' → ∀ t, T σ t → T σ' t)
    (happend : ∀ b x, s' = s.append b x → x.Within (s.site sig.params) → (s.Fine → x.Typed (s.site sig.params)) →
      P (s.site sig.params) x)
    (hclose : ∀ b t, s' = s.close b t → t.Within (s.site sig.params) →
      (s.Fine → t.Typed (s.site sig.params) sig.result) → T (s.site sig.params) t)
    (hr : Region s lo (P (s.site sig.params)) (T (s.site sig.params))) :
    Region s' lo (P (s'.site sig.params)) (T (s'.site sig.params)) := by
  have hext := (h.extends hs).site sig.params
  refine Region.mono ?_ (hP hext) (hT hext)
  cases h with
  | addBlock => exact hr.addBlock
  | append _ _ hw ht => exact hr.append (happend _ _ rfl hw ht)
  | close _ _ hw ht hsucc => exact hr.close (hclose _ _ rfl hw ht) hsucc
  | _ => exact hr.of_blocks_eq rfl

/-- All handles in the blocks of the body were issued. -/
def State.WithinFrom (s : State) (sig : Signature) (lo : Nat) : Prop :=
  Region s lo (BlockStmt.Within (s.site sig.params)) (Terminator.Within (s.site sig.params))

/-- The blocks of the body are typed. -/
def State.TypedFrom (s : State) (sig : Signature) (lo : Nat) : Prop :=
  Region s lo (BlockStmt.Typed (s.site sig.params)) (fun t => t.Typed (s.site sig.params) sig.result)

theorem Effects.within (h : Effects cfg sig lo s s') (hs : s.Sound) (hw : s.WithinFrom sig lo) :
    s'.WithinFrom sig lo := by
  induction h with
  | refl => exact hw
  | tail hsteps he ih =>
    exact he.region (Effects.sound hsteps hs) (P := BlockStmt.Within) (T := Terminator.Within)
      (fun he _ h => h.extends he) (fun he _ h => h.extends he) (fun _ _ _ hw _ => hw) (fun _ _ _ hw _ => hw) ih

theorem State.Clean.addVar (hs : s.Sound) (h : s.Clean) (ty : TypeId) (name : String) : (s.addVar ty name).Clean := by
  intro scope hscope p hp var hvar
  obtain ⟨var', hvar', -⟩ := hs.scopes scope hscope p hp
  rw [get?_addVar hvar'] at hvar
  cases hvar
  exact h scope hscope p hp var hvar'

/-- As long as no error is reported, no variable in force is `invalid`. -/
theorem Effect.clean (h : Effect cfg sig lo s s') (hs : s.Sound) (herr : s'.errors = s.errors) (hc : s.Clean) :
    s'.Clean := by
  cases h with
  | addVar _ => exact hc.addVar hs _ _
  | bind hv hn hne =>
    intro scope hscope p hp var hvar
    rcases mem_scopes_bind hscope hp with rfl | ⟨old, hold, hp⟩
    · have hsame : some var = some _ := hvar.symm.trans hv
      cases hsame
      exact hne hc
    · exact hc old hold p hp var hvar
  | enter =>
    intro scope hscope p hp
    rcases List.mem_cons.mp hscope with rfl | hscope
    · cases hp
    · exact hc scope hscope p hp
  | leave => exact fun scope hscope => hc scope (List.mem_of_mem_tail hscope)
  | poison hd =>
    simp only [State.reported, State.poisoned, State.bind, State.addVar, hd, if_true] at herr
    omega
  | _ => exact hc

section

variable (h : Effects cfg sig lo s s') (hs : s.Sound) (herr : s'.errors = s.errors)
include h hs herr

theorem Effects.clean (hc : s.Clean) : s'.Clean := by
  induction h with
  | refl => exact hc
  | tail hsteps he ih =>
    have hs1 := Effects.sound hsteps hs
    have hle1 := (Effects.extends hsteps hs).errors
    have hle2 := (he.extends hs1).errors
    exact he.clean hs1 (by omega) (ih (by omega))

theorem Effects.fine (hf : s.Fine) :
    s'.Fine := ⟨Effects.clean h hs herr hf.1, hf.2.adds hs.types (Effects.extends h hs).types⟩

theorem Effects.typed (hf : s.Fine) (ht : s.TypedFrom sig lo) : s'.TypedFrom sig lo := by
  induction h with
  | refl => exact ht
  | tail hsteps he ih =>
    have hs1 := Effects.sound hsteps hs
    have hle1 := (Effects.extends hsteps hs).errors
    have hle2 := (he.extends hs1).errors
    have hf1 := Effects.fine hsteps hs (by omega) hf
    exact he.region hs1 (P := BlockStmt.Typed) (T := fun σ t => t.Typed σ sig.result)
      (fun he _ h => h.extends he) (fun he _ h => h.extends he) (fun _ _ _ _ ht => ht hf1) (fun _ _ _ _ ht => ht hf1)
      (ih (by omega))

end

end BlockCompiler.Lowering
