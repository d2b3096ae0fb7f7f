/-
  BlockCompiler.Proofs.Plan — what holds wherever control enters a block.

  A plan gives each block the variables that are live when control enters it and, if it is the
  block of an arm, its guard: the switch that leads to it. It also says in which block a match
  keeps its value, in a variable that has no name. A plan is never computed; it is chosen while
  the graph grows, and says why the graph is right.

  (1) `Step`: how a graph may grow under a plan. A block is entered only from where its variables
      are live, and a guarded one only through its guard.
  (2) What steps keep (`Steps.kept`).
  (3) Building takes such steps, if it reports no error (`Builds.follows`), and so does lowering a
      body (`BodyBuilt.follows`).
-/
import BlockCompiler.Proofs.Pieces

namespace BlockCompiler.Lowering

open List (mem_cons mem_map perm_append_comm)
open Relation (ReflTransGen)
open State

variable {P : Plan} {c c' c'' : Plan × State} {x : VarId} {j : BlockId} {targets : List (VariantId × BlockId)}
  {s1 : State}

/-! ## (1) Steps -/

/-- The switch that leads to the block of an arm: where it is, what it looks at, and for which
variant it goes there. -/
structure Guard where
  block : BlockId
  var : VarId
  variant : VariantId

/-- The terminator goes to `j` for the variant of the guard, and in no other case. -/
def Guard.Admits (g : Guard) (t : Terminator) (j : BlockId) : Prop :=
  ∃ ty span targets fallback, t = .switch (.var g.var ty span) targets fallback ∧
    targets.filter (·.2 = j) = [(g.variant, j)] ∧ fallback ≠ j

structure Plan where
  /-- What is live wherever control enters the block. -/
  live : BlockId → VarId → Prop
  guard : BlockId → Option Guard
  /-- The block where a match keeps its value in the variable. -/
  home : VarId → Option BlockId

namespace Plan

def addBlock (P : Plan) (b : BlockId) (live : VarId → Prop) (guard : Option Guard) : Plan :=
  { P with live := Function.update P.live b live, guard := Function.update P.guard b guard }

def hide (P : Plan) (x : VarId) (b : BlockId) : Plan := { P with home := Function.update P.home x (some b) }

/-- The variable is live at the end of the block as it is in `s`. -/
def Has (P : Plan) (s : State) (b : BlockId) (x : VarId) : Prop :=
  P.live b x ∨ ∃ block, s.blocks.get? b = some block ∧ BlockStmt.live x ∈ block.stmts.toList

/-- What may be stored: a value that reads live variables, an argument, or the payload that the
guard of the block vouches for. -/
inductive Loads (P : Plan) (s : State) (b : BlockId) : Value → Prop
  | plain {v : Value} : v.Plain (P.Has s b) → Loads P s b v
  | arg (i : Nat) (ty : TypeId) (span : Span) : Loads P s b (.arg i ty span)
  | payload {g : Guard} (varTy ty : TypeId) (varSpan span : Span) : P.guard b = some g → P.Has s b g.var →
      Loads P s b (.project (.var g.var varTy varSpan) g.variant ty span)

/-- Control may go from `b`, which ends with `t`, to `j`. -/
structure Enters (P : Plan) (s : State) (b : BlockId) (t : Terminator) (j : BlockId) : Prop where
  lt : j.index < s.blocks.size
  live : ∀ x, P.live j x → P.Has s b x
  guard : ∀ g ∈ P.guard j, g.block = b ∧ g.Admits t j

end Plan

inductive Step : Plan × State → Plan × State → Prop
  | quiet {P : Plan} {s s' : State} : s'.blocks = s.blocks →
      s.vars.size ≤ s'.vars.size → Step (P, s) (P, s')
  | addBlock {P : Plan} {s : State} (live : VarId → Prop) {guard : Option Guard} :
      (∀ g ∈ guard, P.home g.var = some g.block) →
      Step (P, s) (P.addBlock s.blocks.next live guard, s.addBlock)
  | declare {P : Plan} {s : State} {b : BlockId} (ty : TypeId) (name : String) {value : Option Value} : s.IsOpen b →
      (∀ v ∈ value, P.Loads s b v) → Step (P, s) (P, s.declare b ty name value)
  /-- The value of a match. -/
  | hide {P : Plan} {s : State} {b : BlockId} {v : Value} : s.IsOpen b → v.Plain (P.Has s b) →
      Step (P, s) (P.hide s.vars.next b, s.declare b v.ty "match" (some v))
  | assign {P : Plan} {s : State} {b : BlockId} {x : VarId} {v : Value} : s.IsOpen b → x.index < s.vars.size →
      P.Has s b x → P.home x = none → v.Plain (P.Has s b) → Step (P, s) (P, s.append b (.store x v))
  | close {P : Plan} {s : State} {b : BlockId} {t : Terminator} : s.IsOpen b → (∀ v ∈ t.value?, v.Plain (P.Has s b)) →
      (∀ j ∈ t.successors, P.Enters s b t j) → Step (P, s) (P, s.close b t)

def Steps : Plan × State → Plan × State → Prop := ReflTransGen Step

/-! ## (2) What steps keep -/

namespace State

variable {s : State} {b : BlockId}

theorem get?_blocks_append (s : State) (b a : BlockId) (x : BlockStmt) : (s.append b x).blocks.get? a =
    if a = b then (s.blocks.get? b).map fun block => { block with stmts := block.stmts.push x }
    else s.blocks.get? a :=
  Arena.get?_modify _ _ _ _

theorem get?_blocks_close (s : State) (b a : BlockId) (t : Terminator) : (s.close b t).blocks.get? a =
    if a = b then (s.blocks.get? b).map fun block => { block with terminator := some t }
    else s.blocks.get? a :=
  Arena.get?_modify _ _ _ _

end State

namespace Plan

variable {P : Plan} {s s' : State} {a b : BlockId} {x : VarId}

theorem Has.of_get?_eq (h : P.Has s a x) (he : s'.blocks.get? a = s.blocks.get? a) : P.Has s' a x := by
  unfold Has
  rw [he]
  exact h

theorem Has.append (h : P.Has s a x) (y : BlockStmt) : P.Has (s.append b y) a x := by
  rcases h with h | ⟨block, hget, hlive⟩
  · exact .inl h
  · refine .inr ?_
    rw [get?_blocks_append]
    split
    · rename_i heq
      subst heq
      exact ⟨_, by rw [hget]; rfl, by simp [hlive]⟩
    · exact ⟨block, hget, hlive⟩

theorem Has.close (h : P.Has s a x) (t : Terminator) : P.Has (s.close b t) a x := by
  rcases h with h | ⟨block, hget, hlive⟩
  · exact .inl h
  · refine .inr ?_
    rw [get?_blocks_close]
    split
    · rename_i heq
      subst heq
      exact ⟨{ block with terminator := some t }, by rw [hget]; rfl, hlive⟩
    · exact ⟨block, hget, hlive⟩

theorem Has.declare (h : P.Has s a x) (ty : TypeId) (name : String) (value : Option Value) :
    P.Has (s.declare b ty name value) a x := by
  have hvar : P.Has (s.addVar ty name) a x := h
  cases value with
  | none => exact hvar.append _
  | some v => exact (hvar.append _).append _

theorem has_declare (hb : b.index < s.blocks.size) (ty : TypeId) (name : String) (value : Option Value) :
    P.Has (s.declare b ty name value) b s.vars.next := by
  have hlive : P.Has ((s.addVar ty name).append b (.live s.vars.next)) b s.vars.next := by
    obtain ⟨block, hget⟩ := Arena.get?_of_lt hb
    have hget : (s.addVar ty name).blocks.get? b = some block := hget
    exact .inr ⟨_, by rw [get?_blocks_append, if_pos rfl, hget]; rfl, by simp⟩
  cases value with
  | none => exact hlive
  | some v => exact hlive.append _

/-- What stays of a plan and a state when they grow. -/
structure Kept (c c' : Plan × State) : Prop where
  size_le : c.2.blocks.size ≤ c'.2.blocks.size
  vars_le : c.2.vars.size ≤ c'.2.vars.size
  live : ∀ b : BlockId, b.index < c.2.blocks.size → c'.1.live b = c.1.live b
  guard : ∀ b : BlockId, b.index < c.2.blocks.size → c'.1.guard b = c.1.guard b
  home : ∀ x : VarId, x.index < c.2.vars.size → c'.1.home x = c.1.home x
  has : ∀ (b : BlockId) (x : VarId), b.index < c.2.blocks.size → c.1.Has c.2 b x → c'.1.Has c'.2 b x
  unissued : (∀ x : VarId, c.2.vars.size ≤ x.index → c.1.home x = none) →
    ∀ x : VarId, c'.2.vars.size ≤ x.index → c'.1.home x = none

theorem Kept.refl (c : Plan × State) : Kept c c :=
  ⟨Nat.le_refl _, Nat.le_refl _, fun _ _ => rfl, fun _ _ => rfl, fun _ _ => rfl, fun _ _ _ h => h, fun h => h⟩

theorem Kept.trans (h : Kept c c') (h' : Kept c' c'') : Kept c c'' where
  size_le := Nat.le_trans h.size_le h'.size_le
  vars_le := Nat.le_trans h.vars_le h'.vars_le
  live b hb := (h'.live b (Nat.lt_of_lt_of_le hb h.size_le)).trans (h.live b hb)
  guard b hb := (h'.guard b (Nat.lt_of_lt_of_le hb h.size_le)).trans (h.guard b hb)
  home x hx := (h'.home x (Nat.lt_of_lt_of_le hx h.vars_le)).trans (h.home x hx)
  has b x hb hx := h'.has b x (Nat.lt_of_lt_of_le hb h.size_le) (h.has b x hb hx)
  unissued hx := h'.unissued (h.unissued hx)

end Plan

open Plan (Kept)

/-- Statements and terminators were added, and variables. -/
theorem Plan.Kept.of_has {s s' : State} (hsize : s'.blocks.size = s.blocks.size)
    (hvars : s.vars.size ≤ s'.vars.size) (hhas : ∀ b x, P.Has s b x → P.Has s' b x) :
    Kept (P, s) (P, s') :=
  ⟨Nat.le_of_eq hsize.symm, hvars, fun _ _ => rfl, fun _ _ => rfl, fun _ _ => rfl, fun b x _ => hhas b x,
    fun h x hx => h x (Nat.le_trans hvars hx)⟩

section

variable (s : State) (b : BlockId) (ty : TypeId) (name : String) (value : Option Value)

theorem State.vars_size_declare : (s.declare b ty name value).vars.size = s.vars.size + 1 := by
  cases value with
  | none => exact Arena.size_insert _ _
  | some v => exact Arena.size_insert _ _

theorem State.errors_declare : (s.declare b ty name value).errors = s.errors := by
  cases value with
  | none => rfl
  | some v => rfl

end

theorem Step.kept (h : Step c c') : Kept c c' := by
  cases h with
  | quiet hblocks hvars => exact .of_has (by rw [hblocks]) hvars fun b x hx => hx.of_get?_eq (by rw [hblocks])
  | @addBlock P s live guard hguard =>
    have hne : ∀ b : BlockId, b.index < s.blocks.size → b ≠ s.blocks.next := by
      rintro b hb rfl
      exact Nat.lt_irrefl _ hb
    refine ⟨by simp, Nat.le_refl _, fun b hb => Function.update_of_ne (hne b hb) _ _,
      fun b hb => Function.update_of_ne (hne b hb) _ _, fun _ _ => rfl, fun b x hb hx => ?_, fun h => h⟩
    rcases hx with hx | ⟨block, hget, hlive⟩
    · exact .inl (by simpa only [Plan.addBlock, Function.update_of_ne (hne b hb)] using hx)
    · exact .inr ⟨block, (Arena.get?_insert_of_lt hb).trans hget, hlive⟩
  | declare ty name _ _ =>
    exact .of_has (size_declare _ _ _ _ _) (by simp [vars_size_declare]) fun b x hx => hx.declare _ _ _
  | @hide P s b v _ _ =>
    have hvars := s.vars_size_declare b v.ty "match" (some v)
    refine ⟨Nat.le_of_eq (size_declare _ _ _ _ _).symm, by simp [vars_size_declare], fun _ _ => rfl, fun _ _ => rfl,
      fun x hx => Function.update_of_ne ?_ _ _, fun b x _ hx => ?_, fun h x hx => ?_⟩
    · rintro rfl
      exact Nat.lt_irrefl _ hx
    · exact Plan.Has.declare (P := P) hx _ _ _
    · have hlt : s.vars.size < x.index := by rwa [hvars] at hx
      refine (Function.update_of_ne ?_ _ _).trans (h x (Nat.le_of_lt hlt))
      rintro rfl
      exact Nat.lt_irrefl _ hlt
  | assign _ _ _ _ _ => exact .of_has (size_append _ _ _) (Nat.le_refl _) fun b x hx => hx.append _
  | close _ _ _ => exact .of_has (size_close _ _ _) (Nat.le_refl _) fun b x hx => hx.close _

theorem Steps.trans (h : Steps c c') (h' : Steps c' c'') : Steps c c'' :=
  ReflTransGen.trans h h'

/-- What each step keeps, steps keep. -/
theorem Steps.keeps {I : Plan × State → Prop} (hI : ∀ {c c'}, Step c c' → I c → I c') (h : Steps c c') (hc : I c) :
    I c' := by
  induction h with
  | refl => exact hc
  | tail _ hstep ih => exact hI hstep ih

theorem Steps.kept (h : Steps c c') : Kept c c' := by
  induction h with
  | refl => exact .refl c
  | tail _ hstep ih => exact ih.trans hstep.kept

/-! ## (3) Building -/

namespace Plan

/-- Names stand for variables that exist and are no matched values. -/
structure Names (P : Plan) (s : State) : Prop where
  issued : ∀ x, s.InForce x → x.index < s.vars.size
  visible : ∀ x, s.InForce x → P.home x = none
  unissued : ∀ x : VarId, s.vars.size ≤ x.index → P.home x = none

/-- The variables that have names are live at the end of the block. -/
def Ready (P : Plan) (s : State) (b : BlockId) : Prop := ∀ x, s.InForce x → P.Has s b x

variable {P P' : Plan} {s s' : State} {b : BlockId}

theorem Names.steps (h : P.Names s) (hs : Steps (P, s) (P', s')) (hforce : ∀ x, s'.InForce x → s.InForce x) :
    P'.Names s' := by
  have hkept := hs.kept
  refine ⟨fun x hx => ?_, fun x hx => ?_, hkept.unissued h.unissued⟩
  · exact Nat.lt_of_lt_of_le (h.issued x (hforce x hx)) hkept.vars_le
  · exact (hkept.home x (h.issued x (hforce x hx))).trans (h.visible x (hforce x hx))

theorem Ready.steps (h : P.Ready s b) (hs : Steps (P, s) (P', s')) (hb : b.index < s.blocks.size)
    (hforce : ∀ x, s'.InForce x → s.InForce x) : P'.Ready s' b :=
  fun x hx => hs.kept.has b x hb (h x (hforce x hx))

theorem Ready.of_live (h : P.live b = s.InForce) : P.Ready s b := fun x hx => .inl (by rwa [h])

end Plan

namespace State

variable {s s' : State}

theorem inForce_enter : s.enter.InForce x ↔ s.InForce x := by
  simp [InForce, State.enter]

theorem inForce_of_leave (h : s.leave.InForce x) : s.InForce x := by
  obtain ⟨scope, hscope, hmem⟩ := h
  exact ⟨scope, List.mem_of_mem_tail hscope, hmem⟩

theorem inForce_eq (h : s'.scopes = s.scopes) : s'.InForce = s.InForce := funext fun _ => propext (inForce_of_scopes h)

end State

section

variable {P P' : Plan} {s s' : State} {b : BlockId} {target : VariantId × BlockId}

theorem Step.ret {v : Value} (ho : s.IsOpen b) (hv : v.Plain (P.Has s b)) : Step (P, s) (P, s.close b (.ret v)) :=
  .close ho (by simpa [Terminator.value?] using hv) (by simp [Terminator.successors])

theorem Steps.quiet (hblocks : s'.blocks = s.blocks)
    (hvars : s.vars.size ≤ s'.vars.size) : Steps (P, s) (P, s') :=
  .single (.quiet hblocks hvars)

/-- A new block, with what is live where it is entered, and its guard. -/
theorem Steps.grow (s : State) (live : VarId → Prop) (guard : Option Guard)
    (h : ∀ g ∈ guard, P.home g.var = some g.block) : ∃ P', Steps (P, s) (P', s.addBlock) ∧
      P'.live s.blocks.next = live ∧ P'.guard s.blocks.next = guard := by
  have hstep : Step (P, s) (P.addBlock s.blocks.next live guard, s.addBlock) := .addBlock live h
  exact ⟨_, .single hstep, Function.update_self .., Function.update_self ..⟩

theorem Plan.Enters.of_unguarded {t : Terminator} (hlt : j.index < s.blocks.size)
    (hlive : ∀ x, P.live j x → P.Has s b x) (hguard : P.guard j = none) : P.Enters s b t j :=
  ⟨hlt, hlive, by simp [hguard]⟩

/-- The block of an arm is entered with the variables in force, and with the matched value. -/
def Plan.Arm (P : Plan) (s : State) (p : BlockId) (x : VarId) (target : VariantId × BlockId) : Prop :=
  P.live target.2 = (fun y => s.InForce y ∨ y = x) ∧ P.guard target.2 = some ⟨p, x, target.1⟩

theorem Plan.Arm.kept {s0 : State} {p : BlockId} (h : P.Arm s0 p x target) (hk : Kept (P, s) (P', s'))
    (hlt : target.2.index < s.blocks.size) (hs : s1.InForce = s0.InForce) : P'.Arm s1 p x target := by
  unfold Plan.Arm
  rw [hs, hk.live target.2 hlt, hk.guard target.2 hlt]
  exact h

theorem filter_target (hnodup : (targets.map (·.2)).Nodup) (h : target ∈ targets)
    : targets.filter (·.2 = target.2) = [target] := by
  induction targets with
  | nil => cases h
  | cons first rest ih =>
    obtain ⟨hnot, hrest⟩ := List.nodup_cons.mp hnodup
    rcases mem_cons.mp h with rfl | h
    · have hnone : rest.filter (·.2 = target.2) = [] := by
        refine List.filter_eq_nil_iff.mpr fun a ha hsame => hnot ?_
        exact mem_map.mpr ⟨a, ha, of_decide_eq_true hsame⟩
      rw [List.filter_cons_of_pos (by simp), hnone]
    · have hne : first.2 ≠ target.2 := fun heq => hnot (mem_map.mpr ⟨target, h, heq.symm⟩)
      rw [List.filter_cons_of_neg (by simpa using hne), ih hrest h]

end

/-! ### The induction -/

/-- Steps after which the same names are in force, and live at the end of each block that is left
open. -/
structure Track (P : Plan) (s : State) (A : List BlockId) (P' : Plan) (s' : State) (B : List BlockId) : Prop
    extends yields : Yields s A s' B where
  steps : Steps (P, s) (P', s')
  scopes : s'.scopes = s.scopes
  names : P'.Names s'
  ready : ∀ n ∈ B, P'.Ready s' n

/-- Building can be followed by a plan. -/
def Part.Follows : Part → State → State → Prop
  | .line b next, s, s' => s.Owns [b] → s'.errors = s.errors → ∀ P : Plan, P.Names s → P.Ready s b →
      ∃ P', Steps (P, s) (P', s') ∧ P'.Names s' ∧ ∀ n ∈ next, P'.Ready s' n
  | .arms scrutinee targets ends, s, s' => s'.errors = s.errors → ∀ (P : Plan) (p : BlockId) (x : VarId) (ty : TypeId)
      (span : Span), scrutinee = .var x ty span → P.Names s → P.home x = some p →
      ∃ P', Track P s [] P' s' ends ∧ ∀ target ∈ targets, P'.Arm s p x target

section

variable {part : Part} {s s' : State} {b : BlockId} {next : Option BlockId}

/-- A line in a scope of its own. -/
theorem Part.Follows.scoped (h : (Part.line b next).Follows s.enter s') : (Part.line b next).Follows s s'.leave := by
  intro ho herr P hn hr
  have henter : Steps (P, s) (P, s.enter) := .quiet rfl (Nat.le_refl _)
  obtain ⟨P', hsteps, hn', hr'⟩ := h (ho.of_blocks_eq rfl) herr P (hn.steps henter fun _ => inForce_enter.mp)
    (hr.steps henter (ho.isOpen b (.head _)).lt fun _ => inForce_enter.mp)
  have hleave : Steps (P', s') (P', s'.leave) := .quiet rfl (Nat.le_refl _)
  exact ⟨P', henter.trans (hsteps.trans hleave), hn'.steps hleave fun _ => inForce_of_leave, fun n hmem x hx =>
    (hr' n hmem x (inForce_of_leave hx)).of_get?_eq rfl⟩

/-- A new variable gets its name. -/
theorem Plan.Names.declared (hn : P.Names s) (ho : s.IsOpen b) (ty : TypeId) (name : String) {value : Option Value}
    (hv : ∀ v ∈ value, P.Loads s b v) :
    Steps (P, s) (P, (s.declare b ty name value).bind name s.vars.next) ∧
      P.Names ((s.declare b ty name value).bind name s.vars.next) ∧
      (P.Ready s b → P.Ready ((s.declare b ty name value).bind name s.vars.next) b) := by
  have hdeclare : Step (P, s) (P, s.declare b ty name value) := .declare ty name ho hv
  have hbind : Step (P, s.declare b ty name value)
      (P, (s.declare b ty name value).bind name s.vars.next) := .quiet rfl (Nat.le_refl _)
  have hforce : ∀ x, ((s.declare b ty name value).bind name s.vars.next).InForce x →
      x = s.vars.next ∨ s.InForce x := fun x hx =>
    (inForce_bind hx).imp id (inForce_of_scopes (scopes_declare _ _ _ _ _)).mp
  have hsize : ((s.declare b ty name value).bind name s.vars.next).vars.size =
      s.vars.size + 1 := vars_size_declare _ _ _ _ _
  refine ⟨.tail (.single hdeclare) hbind, ⟨fun x hx => ?_, fun x hx => ?_, fun x hx => ?_⟩, fun hr x hx => ?_⟩
  · rw [hsize]
    rcases hforce x hx with rfl | hx
    · exact Nat.lt_succ_self _
    · exact Nat.lt_succ_of_lt (hn.issued x hx)
  · rcases hforce x hx with rfl | hx
    · exact hn.unissued _ (Nat.le_refl _)
    · exact hn.visible x hx
  · exact hn.unissued x (by omega)
  · rcases hforce x hx with rfl | hx
    · exact Plan.has_declare ho.lt ty name value
    · exact (hr x hx).declare ty name value

/-- The payload of an arm gets its name. -/
theorem Plan.Names.payload {g : Guard} (hn : P.Names s) (ho : s.IsOpen b) (hr : P.Ready s b) (hg : P.guard b = some g)
    (hx : P.Has s b g.var) (ty : TypeId) (span : Span) (payloadTy : TypeId) {head : ArmHead}
    (hhead : head.variant = g.variant) (binding : Option String) :
    Steps (P, s) (P, s.withPayload b (.var g.var ty span) head payloadTy binding) ∧
      P.Names (s.withPayload b (.var g.var ty span) head payloadTy binding) ∧
      P.Ready (s.withPayload b (.var g.var ty span) head payloadTy binding) b := by
  cases binding with
  | none => exact ⟨.refl, hn, hr⟩
  | some name =>
    have hloads : ∀ v ∈ some (.project (.var g.var ty span) head.variant payloadTy head.span), P.Loads s b v := by
      rintro v ⟨⟩
      exact hhead ▸ .payload ty payloadTy span head.span hg hx
    obtain ⟨hsteps, hn', hr'⟩ := hn.declared ho payloadTy name hloads
    exact ⟨hsteps, hn', hr' hr⟩

namespace Track

variable {P P' P'' : Plan} {s'' : State} {A B C D : List BlockId} {f : BlockId}

theorem inForce (h : Track P s A P' s' B) : s'.InForce = s.InForce := inForce_eq h.scopes

theorem refl (hn : P.Names s) (ho : s.Owns A) (hr : ∀ n ∈ A, P.Ready s n) : Track P s A P s A :=
  ⟨.refl ho, .refl, rfl, hn, hr⟩

/-- Further steps; a block that they leave open was open before, or is ready by itself. -/
theorem extend (h : Track P s A P' s' B) (hs : Steps (P', s') (P'', s'')) (hscopes : s''.scopes = s'.scopes)
    (hy : Yields s' B s'' D) (hready : ∀ n ∈ D, n ∈ B ∨ P''.Ready s'' n) : Track P s A P'' s'' D := by
  have hforce : ∀ x, s''.InForce x → s'.InForce x := fun _ => (inForce_of_scopes hscopes).mp
  refine ⟨h.yields.trans hy, h.steps.trans hs, hscopes.trans h.scopes, h.names.steps hs hforce, fun n hn => ?_⟩
  rcases hready n hn with hn | hn
  · exact (h.ready n hn).steps hs (h.owns.isOpen n hn).lt hforce
  · exact hn

theorem trans (h : Track P s A P' s' (B ++ C)) (h' : Track P' s' B P'' s'' D) : Track P s A P'' s'' (D ++ C) := by
  refine h.extend h'.steps h'.scopes (h'.yields.frame h.owns) fun n hn => ?_
  rcases List.mem_append.mp hn with hn | hn
  · exact .inr (h'.ready n hn)
  · exact .inl (List.mem_append_right _ hn)

theorem perm (h : Track P s A P' s' B) (hB : B.Perm C) : Track P s A P' s' C :=
  { h with
    yields := h.yields.perm (.refl _) hB, ready := fun n hn => h.ready n (hB.mem_iff.mpr hn) }

theorem follows (h : Track P s A P' s' next.toList) :
    ∃ P', Steps (P, s) (P', s') ∧ P'.Names s' ∧ ∀ n ∈ next, P'.Ready s' n :=
  ⟨P', h.steps, h.names, fun n hn => h.ready n (by simpa using hn)⟩

theorem restart (h : Track P s A P' s' B) : Track P' s' B P' s' B := .refl h.names h.owns h.ready

theorem andThen (h : Track P s A P' s' B) (h' : Track P' s' B P'' s'' D) : Track P s A P'' s'' D :=
  ⟨h.yields.trans h'.yields, h.steps.trans h'.steps, h'.scopes.trans h.scopes, h'.names, h'.ready⟩

/-- A new block. -/
theorem grow (h : Track P s A P' s' B) (hf : f = s'.blocks.next) :
    ∃ P'', Track P s A P'' s'.addBlock (f :: B) ∧ P''.live f = s.InForce ∧ P''.guard f = none := by
  subst hf
  obtain ⟨P'', hsteps, hlive, hguard⟩ := Steps.grow (P := P') s' s.InForce none (by simp)
  refine ⟨P'', h.extend hsteps rfl (.addBlock h.owns) fun n hn => ?_, hlive, hguard⟩
  rcases mem_cons.mp hn with rfl | hn
  · exact .inr (.of_live (hlive.trans h.inForce.symm))
  · exact .inl hn

/-- An open block is closed, and leads to blocks that are not guarded. -/
theorem close (h : Track P s A P' s' (b :: C)) {t : Terminator} (hv : ∀ v ∈ t.value?, v.Plain s.InForce)
    (hto : ∀ j ∈ t.successors, j.index < s'.blocks.size ∧ P'.live j = s.InForce ∧ P'.guard j = none) :
    Track P s A P' (s'.close b t) C := by
  have hr : ∀ x, s.InForce x → P'.Has s' b x := fun x hx => h.ready b (.head _) x (by rwa [h.inForce])
  have hclose : Step (P', s') (P', s'.close b t) := by
    refine .close (h.owns.isOpen b (.head _)) (fun v hmem => (hv v hmem).mono hr) fun j hj => ?_
    obtain ⟨hlt, hlive, hguard⟩ := hto j hj
    exact .of_unguarded hlt (fun x hx => hr x (hlive ▸ hx)) hguard
  exact h.extend (.single hclose) rfl (.close h.owns t) fun n hn => .inl (.tail _ hn)

/-- Ends jump to a block that was made before. -/
theorem joined : ∀ {ends : List BlockId} {s' : State}, Track P s A P' s' (ends ++ C) →
    j.index < s'.blocks.size → P'.live j = s.InForce → P'.guard j = none → Track P s A P' (s'.joined j ends) C
  | [], _, h, _, _, _ => h
  | e :: rest, s', h, hlt, hlive, hguard => by
    have hclose : Track P s A P' (s'.close e (.jump j)) (rest ++ C) :=
      h.close (by simp [Terminator.value?]) (by simpa [Terminator.successors] using ⟨hlt, hlive, hguard⟩)
    exact hclose.joined (by rwa [size_close]) hlive hguard

/-- What is left open meets in a new block. -/
theorem meet (h : Track P s A P' s' B) : ∃ P'', Track P s A P'' (s'.meet B).2 (s'.meet B).1.toList ∧
    ∀ n ∈ (s'.meet B).1, P''.live n = s.InForce ∧ P''.guard n = none := by
  cases B with
  | nil => exact ⟨P', h, by simp [State.meet]⟩
  | cons e ends =>
    obtain ⟨P'', hgrow, hlive, hguard⟩ := h.grow rfl
    have hends := hgrow.perm (List.perm_append_singleton _ (e :: ends)).symm
    refine ⟨P'', hends.joined s'.isNew_next.2 hlive hguard, fun n hn => ?_⟩
    cases hn
    exact ⟨hlive, hguard⟩

/-- Two new blocks, to which the open block branches. -/
theorem branch (h : Track P s A P' s' [b]) {c : Value} (hc : c.Plain s.InForce) {t : BlockId}
    (ht : t = s'.blocks.next) (hf : f = s'.addBlock.blocks.next) :
    ∃ P'', Track P s A P'' (s'.addBlock.addBlock.close b (.branch c t f)) ([t] ++ [f]) ∧ P''.live f = s.InForce ∧
      P''.guard f = none := by
  obtain ⟨P1, h1, hliveT, hguardT⟩ := h.grow ht
  obtain ⟨P2, h2, hliveF, hguardF⟩ := h1.restart.grow hf
  have hgrown := (h1.andThen h2).perm (C := [b, t, f]) (List.reverse_perm [b, t, f])
  have hkept := h2.steps.kept
  have hlt : t.index < s'.addBlock.blocks.size := ht ▸ s'.isNew_next.2
  have hliveF := hliveF.trans h1.inForce
  refine ⟨P2, hgrown.close (by simpa [Terminator.value?] using hc) fun j hj => ?_, hliveF, hguardF⟩
  simp only [Terminator.successors, mem_cons, List.not_mem_nil, or_false] at hj
  rcases hj with rfl | rfl
  · exact ⟨Nat.lt_of_lt_of_le hlt hkept.size_le, (hkept.live j hlt).trans hliveT, (hkept.guard j hlt).trans hguardT⟩
  · exact ⟨hf ▸ s'.addBlock.isNew_next.2, hliveF, hguardF⟩

/-- Three new blocks: the head of a loop, which is jumped to and branches, its body and its exit. -/
theorem loop (h : Track P s A P' s' [b]) {c : Value} (hc : c.Plain s.InForce) {head t exit : BlockId}
    (hhead : head = s'.blocks.next) (ht : t = s'.addBlock.blocks.next)
    (hexit : exit = s'.addBlock.addBlock.blocks.next) :
    ∃ P'', Track P s A P'' ((s'.addBlock.addBlock.addBlock.close b (.jump head)).close head (.branch c t exit))
        ([t] ++ [exit]) ∧ P''.live head = s.InForce ∧ P''.guard head = none := by
  obtain ⟨heq, hmeets, ht, hexit⟩ := loop_eq (h.owns.isOpen b (.head _)).lt hhead ht hexit
  obtain ⟨P1, h1, hlive⟩ := h.meet
  rw [hmeets] at h1 hlive
  obtain ⟨hlive, hguard⟩ := hlive head rfl
  obtain ⟨P2, h2, -⟩ := h1.restart.branch (h1.inForce ▸ hc) ht hexit
  have hlt := (h1.owns.isOpen head (.head _)).lt
  have hkept := h2.steps.kept
  rw [heq]
  exact ⟨P2, h1.andThen h2, (hkept.live head hlt).trans hlive, (hkept.guard head hlt).trans hguard⟩

section

variable (h : Track P s A P' s' ([b] ++ C)) (hline : Builds (.line b next) s'.enter s'')
  (ih : (Part.line b next).Follows s'.enter s'')
include h hline ih

/-- A line in a scope of its own. -/
theorem line (herr : s''.errors = s'.errors) : ∃ P'', Track P s A P'' s''.leave (next.toList ++ C) := by
  have ho := h.owns.left
  obtain ⟨P'', hsteps, hn, hr⟩ := ih.scoped ho herr P' h.names (h.ready b (.head _))
  have htrack : Track P' s' [b] P'' s''.leave next.toList :=
    ⟨(hline.covers.scoped ho).yields, hsteps, hline.widens.leave_eq, hn, fun n hmem => hr n (by simpa using hmem)⟩
  exact ⟨P'', h.trans htrack⟩

/-- A line in a scope of its own, whose end jumps to a block that was made before. -/
theorem lineInto
    (herr : (s''.leave.joined j next.toList).errors = s'.errors) (hlt : j.index < s'.blocks.size)
    (hlive : P'.live j = s.InForce) (hguard : P'.guard j = none) :
    ∃ P'', Track P s A P'' (s''.leave.joined j next.toList) C := by
  have hle : s'.errors ≤ s''.errors := hline.onward.2.2
  have hle' : s''.errors ≤ (s''.leave.joined j next.toList).errors := (Onward.joined j next.toList s''.leave).2.2
  obtain ⟨P'', h'⟩ := h.restart.line hline ih (by omega)
  have hkept := h'.steps.kept
  exact ⟨P'', h.andThen (h'.joined (Nat.lt_of_lt_of_le hlt hkept.size_le)
    ((hkept.live j hlt).trans (hlive.trans h.inForce.symm)) ((hkept.guard j hlt).trans hguard))⟩

end

/-- The value of a match gets a variable of its own. -/
theorem hide {v : Value} (ho : s.Owns [b]) (hn : P.Names s) (hr : P.Ready s b) (hv : v.Plain s.InForce)
    (hs' : s' = s.declare b v.ty "match" (some v)) :
    Track P s [b] (P.hide s.vars.next b) s' [b] ∧
      (P.hide s.vars.next b).home s.vars.next = some b ∧
      (P.hide s.vars.next b).Has s' b s.vars.next := by
  subst hs'
  have hopen := ho.isOpen b (.head _)
  have hstep : Steps (P, s) (P.hide s.vars.next b, s.declare b v.ty "match" (some v)) :=
    .single (.hide hopen (hv.mono hr))
  have hstart : Track P s [b] P s [b] := .refl hn ho (by simpa using hr)
  exact ⟨hstart.extend hstep (scopes_declare _ _ _ _ _) (.declare ho (.head _) _ _ _) fun _ => .inl,
    Function.update_self .., Plan.has_declare hopen.lt _ _ _⟩

/-- The switch of a match, made after its arms. -/
theorem switch {P1 : Plan} (h : Track P s [b] P1 s1 [b]) (hx : P1.Has s1 b x) (h' : Track P1 s1 [] P' s' B)
    (ty : TypeId) (span : Span) (hnodup : (targets.map (·.2)).Nodup)
    (harms : ∀ target ∈ targets, P'.Arm s1 b x target) (hlt : ∀ target ∈ targets, target.2.index < s'.blocks.size)
    (hne : ∀ target ∈ targets, f ≠ target.2) (hltF : f.index < s'.blocks.size) (hliveF : P'.live f = s1.InForce)
    (hguardF : P'.guard f = none) : Track P s [b] P' (s'.close b (.switch (.var x ty span) targets f)) B := by
  have hall : Track P s [b] P' s' ([b] ++ B) := (Track.trans (B := []) h h').perm perm_append_comm
  have hx' : P'.Has s' b x := h'.steps.kept.has b x (h.owns.isOpen b (.head _)).lt hx
  have hr : ∀ y, s1.InForce y → P'.Has s' b y := fun y hy => hall.ready b (.head _) y (by rwa [h'.inForce])
  have hclose : Step (P', s') (P', s'.close b (.switch (.var x ty span) targets f)) := by
    refine .close (hall.owns.isOpen b (.head _)) (fun v hv => Option.some.inj hv ▸ .leaf rfl hx') fun j hj => ?_
    rcases List.mem_append.mp hj with hj | hj
    · obtain ⟨target, htarget, rfl⟩ := mem_map.mp hj
      obtain ⟨hlive, hguard⟩ := harms target htarget
      refine ⟨hlt target htarget, fun y hy => ?_, fun g hg => ?_⟩
      · rw [hlive] at hy
        rcases hy with hy | rfl
        · exact hr y hy
        · exact hx'
      · rw [hguard] at hg
        cases hg
        exact ⟨rfl, ty, span, targets, f, rfl, filter_target hnodup htarget, hne target htarget⟩
    · rw [List.mem_singleton.mp hj]
      exact .of_unguarded hltF (fun y hy => hr y (hliveF ▸ hy)) hguardF
  exact hall.extend (.single hclose) rfl (.close hall.owns _) fun n hn => .inl (.tail _ hn)

end Track

theorem Builds.follows (h : Builds part s s') : part.Follows s s' := by
  induction h with
  | @idle s s' b h =>
    intro ho _ P hn hr
    have hquiet : Steps (P, s) (P, s') := .quiet h.blocks (Nat.le_of_eq (by rw [h.vars]))
    refine ⟨P, hquiet, hn.steps hquiet fun _ => h.inForce.mp, fun n hmem => ?_⟩
    cases hmem
    exact hr.steps hquiet (ho.isOpen b (.head _)).lt fun _ => h.inForce.mp
  | @poison cfg s b name d hd =>
    intro _ herr
    have : (s.poisoned name).errors + 1 = s.errors := (errors_reported hd).symm.trans herr
    exact absurd this (Nat.succ_ne_self _)
  | @seq s s1 s2 b c next h h' ih ih' =>
    intro ho herr P hn hr
    have hle := h.onward.2.2
    have hle' := h'.onward.2.2
    obtain ⟨P1, h1, hn1, hr1⟩ := ih ho (by omega) P hn hr
    obtain ⟨P2, h2, hn2, hr2⟩ := ih' (h.covers ho).owns (by omega) P1 hn1 (hr1 c rfl)
    exact ⟨P2, h1.trans h2, hn2, hr2⟩
  | @stop s s1 s2 b h hidle ih =>
    intro ho herr P hn hr
    have hle := h.onward.2.2
    have hle' := hidle.errors
    obtain ⟨P1, h1, hn1, -⟩ := ih ho (by omega) P hn hr
    have hquiet : Steps (P1, s1) (P1, s2) := .quiet hidle.blocks (Nat.le_of_eq (by rw [hidle.vars]))
    exact ⟨P1, h1.trans hquiet, hn1.steps hquiet fun _ => hidle.inForce.mp, by simp⟩
  | @letVar s b ty name value hv =>
    intro ho _ P hn hr
    obtain ⟨hsteps, hn', hr'⟩ := hn.declared (ho.isOpen b (.head _)) ty name fun v hmem =>
      .plain ((hv v hmem).mono hr)
    refine ⟨P, hsteps, hn', fun n hmem => ?_⟩
    cases hmem
    exact hr' hr
  | @effect s b v hv =>
    intro ho _ P hn hr
    have hopen := ho.isOpen b (.head _)
    have hstep : Steps (P, s) (P, s.declare b v.ty "_" (some v)) :=
      .single (.declare v.ty "_" hopen (by simpa using .plain (hv.mono hr)))
    have hforce : ∀ x, (s.declare b v.ty "_" (some v)).InForce x → s.InForce x :=
      fun x => (inForce_of_scopes (scopes_declare _ _ _ _ _)).mp
    refine ⟨P, hstep, hn.steps hstep hforce, fun n hmem => ?_⟩
    cases hmem
    exact hr.steps hstep hopen.lt hforce
  | @assign s b x v hx hv =>
    intro ho _ P hn hr
    have hopen := ho.isOpen b (.head _)
    have hstep : Steps (P, s) (P, s.append b (.store x v)) :=
      .single (.assign hopen (hn.issued x hx) (hr x hx) (hn.visible x hx) (hv.mono hr))
    refine ⟨P, hstep, hn.steps hstep fun _ hy => hy, fun n hmem => ?_⟩
    cases hmem
    exact hr.steps hstep hopen.lt fun _ hy => hy
  | @ret s b v hv =>
    intro ho _ P hn hr
    have hstep : Steps (P, s) (P, s.close b (.ret v)) := .single (.ret (ho.isOpen b (.head _)) (hv.mono hr))
    exact ⟨P, hstep, hn.steps hstep fun _ hy => hy, by simp⟩
  | block _ ih => exact ih.scoped
  | @ifThen s s1 s2 b t j c last hc ht hj hs1 h ih =>
    intro ho herr P hn hr
    obtain ⟨P1, h1, hliveJ, hguardJ⟩ := (Track.refl hn ho (by simpa using hr)).branch hc ht hj
    rw [← hs1] at h1
    have hlt : j.index < s1.blocks.size := (h1.owns.isOpen j (by simp)).lt
    obtain ⟨P2, h2⟩ := h1.lineInto h ih (herr.trans (by rw [hs1]; rfl)) hlt hliveJ hguardJ
    exact h2.follows
  | @ifElse s s1 s2 s3 b t f c thenEnd elseEnd hc ht hf hs1 hThen hElse ihThen ihElse =>
    intro ho herr P hn hr
    obtain ⟨P1, h1, -⟩ := (Track.refl hn ho (by simpa using hr)).branch hc ht hf
    rw [← hs1] at h1
    have herr1 : s1.errors = s.errors := by rw [hs1]; rfl
    have hle2 : s1.errors ≤ s2.errors := hThen.onward.2.2
    have hle3 : s2.errors ≤ s3.errors := hElse.onward.2.2
    have hle4 : s3.errors ≤ (s3.leave.meet _).2.errors := (Onward.meet s3.leave (thenEnd.toList ++ elseEnd.toList)).2.2
    obtain ⟨P2, h2⟩ := h1.line hThen ihThen (by omega)
    obtain ⟨P3, h3⟩ := (h2.perm perm_append_comm).line hElse ihElse (show s3.errors = s2.errors by omega)
    obtain ⟨P4, h4, -⟩ := (h3.perm perm_append_comm).meet
    exact h4.follows
  | @loop s s1 s2 b head t exit c last hc hhead ht hexit hs1 h ih =>
    intro ho herr P hn hr
    obtain ⟨P1, h1, hliveH, hguardH⟩ := (Track.refl hn ho (by simpa using hr)).loop hc hhead ht hexit
    rw [← hs1] at h1
    have hlt : head.index < s1.blocks.size := by simp [hhead, hs1]; omega
    obtain ⟨P2, h2⟩ := h1.lineInto h ih (herr.trans (by rw [hs1]; rfl)) hlt hliveH hguardH
    exact h2.follows
  | @matchOn s s1 s2 b j v scrutinee targets ends hv hscrutinee hs1 hj h ih =>
    intro ho herr P hn hr
    obtain ⟨h1, hhome1, hx1⟩ := Track.hide ho hn hr hv hs1
    obtain ⟨P2, h2, hliveJ, hguardJ⟩ := (Track.refl h1.names (owns_nil s1) (by simp)).grow hj
    have hx : s.vars.next.index < s1.vars.size := by simp [hs1, vars_size_declare]
    have hle : s1.errors ≤ s2.errors := h.onward.2.2
    have hle' : s2.errors ≤ (s2.joined j ends).errors := (Onward.joined j ends s2).2.2
    have herr' : (s2.joined j ends).errors = s.errors := herr
    have herr1 : s1.errors = s.errors := hs1 ▸ errors_declare _ _ _ _ _
    obtain ⟨P3, h3, harms⟩ := ih (show s2.errors = s1.errors by omega) P2 b _ _ _ hscrutinee h2.names
      ((h2.steps.kept.home _ hx).trans hhome1)
    have hkept := h3.steps.kept
    have hltJ : j.index < s1.addBlock.blocks.size := hj ▸ s1.isNew_next.2
    have hltJ3 := Nat.lt_of_lt_of_le hltJ hkept.size_le
    have hliveJ3 : P3.live j = s1.InForce := (hkept.live j hltJ).trans hliveJ
    have hguardJ3 : P3.guard j = none := (hkept.guard j hltJ).trans hguardJ
    have h4 : Track _ s1 [] P3 (s2.joined j ends) [j] := (Track.trans (B := []) h2 h3).joined hltJ3 hliveJ3 hguardJ3
    obtain ⟨-, hnodup, hrange⟩ := h.covers
    have hne : ∀ target ∈ targets, j ≠ target.2 := by
      rintro target htarget rfl
      exact absurd hltJ (Nat.not_lt.mpr (hrange target htarget).1)
    rw [hscrutinee]
    refine (h1.switch hx1 h4 v.ty v.span hnodup harms (fun target htarget => ?_) hne ?_ hliveJ3 hguardJ3).follows
    · rw [size_joined]
      exact (hrange target htarget).2
    · rwa [size_joined]
  | @matchElse s s1 s2 s3 b f v scrutinee targets ends last hv hscrutinee hs1 hArms hf h ihArms ih =>
    intro ho herr P hn hr
    obtain ⟨h1, hhome1, hx1⟩ := Track.hide ho hn hr hv hs1
    have hle2 : s1.errors ≤ s2.errors := hArms.onward.2.2
    have hle3 : s2.errors ≤ s3.errors := h.onward.2.2
    have hle4 : s3.errors ≤ (s3.leave.meet _).2.errors := (Onward.meet s3.leave (ends ++ last.toList)).2.2
    have herr' : (s3.leave.meet (ends ++ last.toList)).2.errors = s.errors := herr
    have herr1 : s1.errors = s.errors := hs1 ▸ errors_declare _ _ _ _ _
    obtain ⟨P2, h2, harms⟩ := ihArms (by omega) _ b _ _ _ hscrutinee h1.names hhome1
    obtain ⟨P3, h3, hliveF, hguardF⟩ := h2.restart.grow hf
    obtain ⟨P4, h4⟩ := Track.line (C := ends) h3.restart h ih (show s3.errors = s2.errors by omega)
    obtain ⟨P5, h5, -⟩ := (h4.perm perm_append_comm).meet
    have hltF : f.index < s2.addBlock.blocks.size := hf ▸ s2.isNew_next.2
    have hkeptF := h5.steps.kept
    have hkept := (h3.steps.trans h5.steps).kept
    obtain ⟨-, hnodup, hrange⟩ := hArms.covers
    have hne : ∀ target ∈ targets, f ≠ target.2 := by
      rintro target htarget rfl
      have := (hrange target htarget).2
      rw [hf, Arena.next_index] at this
      exact Nat.lt_irrefl _ this
    rw [hscrutinee]
    exact (h1.switch hx1 (h2.andThen (h3.andThen h5)) v.ty v.span hnodup
      (fun target htarget => (harms target htarget).kept hkept (hrange target htarget).2 rfl)
      (fun target htarget => Nat.lt_of_lt_of_le (hrange target htarget).2 hkept.size_le) hne
      (Nat.lt_of_lt_of_le hltF hkeptF.size_le) ((hkeptF.live f hltF).trans (hliveF.trans h2.inForce))
      ((hkeptF.guard f hltF).trans hguardF)).follows
  | noArms => exact fun _ P _ _ _ _ _ hn _ => ⟨P, .refl hn (owns_nil _) (by simp), by simp⟩
  | @arm s s1 s2 scrutinee binding head b payloadTy last targets ends hb h hArms ih ihArms =>
    intro herr P p x ty span hscrutinee hn hhome
    have hx : x.index < s.vars.size := by
      by_contra hx
      rw [hn.unissued x (Nat.le_of_not_lt hx)] at hhome
      cases hhome
    obtain ⟨P1, h1, hlive, hguard⟩ := Steps.grow (P := P) s (fun y => s.InForce y ∨ y = x)
      (some ⟨p, x, head.variant⟩) (by simpa using hhome)
    rw [← hb] at hlive hguard
    have hy : Yields s [] s.addBlock [b] := hb ▸ .addBlock (owns_nil s)
    have hopen : s.addBlock.enter.IsOpen b := hy.owns.isOpen b (.head _)
    have henter : Steps (P1, s.addBlock) (P1, s.addBlock.enter) := .quiet rfl (Nat.le_refl _)
    have hforce : ∀ y, s.addBlock.enter.InForce y → s.InForce y := fun y hy => inForce_enter.mp hy
    have hn1 : P1.Names s.addBlock.enter := hn.steps (h1.trans henter) hforce
    have hr1 : P1.Ready s.addBlock.enter b := fun y hy => .inl (hlive ▸ .inl (hforce y hy))
    obtain ⟨hpayload, hn2, hr2⟩ := hn1.payload hopen hr1 hguard (.inl (hlive ▸ .inr rfl)) ty span payloadTy rfl binding
    rw [← hscrutinee] at hpayload hn2 hr2
    have hle : s.errors ≤ s1.errors :=
      ((Onward.withPayload s.addBlock.enter b scrutinee head payloadTy binding).trans h.onward).2.2
    have hle' : s1.errors ≤ s2.errors := hArms.onward.2.2
    have herrP : (s.addBlock.enter.withPayload b scrutinee head payloadTy binding).errors = s.errors := by
      cases binding with
      | none => rfl
      | some name => exact errors_declare s.addBlock.enter b payloadTy name _
    have hopen2 : (s.addBlock.enter.withPayload b scrutinee head payloadTy binding).Owns [b] :=
      (Yields.withPayload (Owns.single hopen) (.head _) scrutinee head payloadTy binding).owns
    obtain ⟨P3, h3, hn3, hr3⟩ := ih.scoped hopen2 (show s1.errors = _ by omega) P1 hn2 hr2
    have hleave : Steps (P3, s1.leave) (P3, s1.leave.leave) := .quiet rfl (Nat.le_refl _)
    have hbody := henter.trans (hpayload.trans (h3.trans hleave))
    have htrack : Track P s [] P3 s1.leave.leave last.toList :=
      ⟨hy.trans (h.covers.arm hb).yields, h1.trans hbody, SameDepth.leave_arm h.widens.sameDepth,
        hn3.steps hleave fun _ => inForce_of_leave, fun e he y hy =>
          (hr3 e (by simpa using he) y (inForce_of_leave hy)).of_get?_eq rfl⟩
    obtain ⟨P4, h4, harms⟩ := ihArms (show s2.errors = s1.errors by omega) P3 p x ty span hscrutinee htrack.names
      ((htrack.steps.kept.home x hx).trans hhome)
    refine ⟨P4, (Track.trans (B := []) htrack h4).perm perm_append_comm, fun target htarget => ?_⟩
    rcases mem_cons.mp htarget with rfl | htarget
    · have hb1 : b.index < s.addBlock.blocks.size := hb ▸ s.isNew_next.2
      exact Plan.Arm.kept (P := P1) ⟨hlive, hguard⟩ (hbody.trans h4.steps).kept hb1 rfl
    · exact (harms target htarget).kept (.refl (P4, s2)) (hArms.covers.2.2 target htarget).2 htrack.inForce.symm

end

/-! ### Bodies -/

/-- Nothing is assumed anywhere. -/
def Plan.blank : Plan := ⟨fun _ _ => False, fun _ => none, fun _ => none⟩

theorem Plan.Names.params {entry : BlockId} (span : Span) : ∀ (params : List Parameter) (index : Nat)
    {s : State}, P.Names s → s.IsOpen entry → P.Ready s entry →
    Steps (P, s) (P, s.withParams entry span index params) ∧ P.Names (s.withParams entry span index params) ∧
      P.Ready (s.withParams entry span index params) entry
  | [], _, _, hn, _, hr => ⟨.refl, hn, hr⟩
  | { ty := _, name := none } :: rest, index, _, hn, ho, hr => Names.params span rest (index + 1) hn ho hr
  | { ty, name := some name } :: rest, index, s, hn, ho, hr => by
    have harg : ∀ v ∈ some (.arg index ty span), P.Loads s entry v := by
      rintro v ⟨⟩
      exact .arg index ty span
    obtain ⟨hsteps, hn', hr'⟩ := hn.declared ho ty name harg
    obtain ⟨hrest, hn'', hr''⟩ := Names.params span rest (index + 1) hn' (ho.bound ty name _) (hr' hr)
    exact ⟨hsteps.trans hrest, hn'', hr''⟩

/-- A body without an error can be followed by a plan that assumes nothing of its entry, and does
not guard it. -/
theorem BodyBuilt.follows {cfg : Settings} {fn : FunId} {f : Function} {last : Option BlockId} {s s' : State}
    (h : BodyBuilt cfg fn f last s s1 s') (hscopes : s.scopes = []) (herr : s'.errors = s.errors) :
    ∃ P, Steps (Plan.blank, s) (P, s') ∧ (P.live s.blocks.next = fun _ => False) ∧
      P.guard s.blocks.next = none := by
  obtain ⟨P1, h1, hlive, hguard⟩ := Steps.grow (P := Plan.blank) s (fun _ => False) none (by simp)
  have hbegun : Steps (P1, s.addBlock) (P1, (s.begun fn f).enter) := .quiet rfl (Nat.le_refl _)
  have hnone : ∀ x, ¬ (s.begun fn f).enter.InForce x := fun x hx => by
    obtain ⟨scope, hscope, -⟩ := inForce_enter.mp hx
    change scope ∈ s.scopes at hscope
    rw [hscopes] at hscope
    cases hscope
  have hn1 : P1.Names (s.begun fn f).enter :=
    ⟨fun x hx => absurd hx (hnone x), fun x hx => absurd hx (hnone x),
      (h1.trans hbegun).kept.unissued fun _ _ => rfl⟩
  have hopen : (s.begun fn f).enter.IsOpen s.blocks.next :=
    isOpen_of_get?_eq ((s.begun_yields fn f).owns.isOpen _ (.head _)) rfl
  obtain ⟨h2, hn2, hr2⟩ := hn1.params f.span f.signature.params 0 hopen fun x hx => absurd hx (hnone x)
  have howns : ((s.begun fn f).enter.withParams s.blocks.next f.span 0 f.signature.params).Owns
      [s.blocks.next] := (hopen.withParams _ _ _).owns
  have hstart : ((s.begun fn f).enter.withParams s.blocks.next f.span 0 f.signature.params).errors = s.errors :=
    withParams_of_bound (R := fun s s' => s'.errors = s.errors) (fun _ => rfl) (fun h h' => h'.trans h)
      (fun _ _ _ _ => errors_declare _ _ _ _ _) _ _ _
  have hle : s.errors ≤ s1.errors := hstart ▸ h.built.onward.2.2
  have hfinish : s1.errors ≤ s'.errors := by
    cases h.finish with
    | left | limit | unit => exact Nat.le_refl _
    | missing => exact (Idle.reported s1.leave.leave cfg _).errors
  obtain ⟨P3, h3, -, hr3⟩ := h.built.follows.scoped howns (show s1.errors = _ by omega) P1 hn2 hr2
  have hleave : Steps (P3, s1.leave) (P3, s1.leave.leave) := .quiet rfl (Nat.le_refl _)
  have hbody := hbegun.trans (h2.trans (h3.trans hleave))
  have hentry : (P3.live s.blocks.next = fun _ => False) ∧ P3.guard s.blocks.next = none :=
    ⟨(hbody.kept.live _ s.isNew_next.2).trans hlive, (hbody.kept.guard _ s.isNew_next.2).trans hguard⟩
  cases h.finish with
  | left | limit => exact ⟨P3, h1.trans hbody, hentry⟩
  | @unit _ b _ =>
    have hstarted := s.started_covers fn f
    have hopen : s1.leave.leave.IsOpen b :=
      isOpen_of_get?_eq ((h.built.covers hstarted.owns).owns.isOpen b (by simp)) rfl
    exact ⟨P3, ReflTransGen.tail (h1.trans hbody) (.ret hopen (.leaf rfl trivial)), hentry⟩
  | missing =>
    have herr : s1.errors + 1 = s.errors := herr
    omega

end BlockCompiler.Lowering
