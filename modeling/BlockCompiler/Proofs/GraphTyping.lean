/-
  BlockCompiler.Proofs.GraphTyping — what a well-typed block is.

  `BlockStmt.Typed` and `Terminator.Typed` say what statements and terminators need beyond
  typed values: a stored value has the type of its variable, a returned one the type of the
  result, a condition is a bool or a number, and a switch looks at a sum, each of whose
  variants it names at most once. `BlockStmt.Within` and `Terminator.Within` ask for issued
  handles only, and `Terminator.Intact` for those that are mentioned.

  `Region c lo P T`: in every block from `lo` on, all statements satisfy `P`, the terminator
  satisfies `T`, and control stays among these blocks. A region stays one while blocks are
  added, appended to and closed (`Region.addBlock`, `Region.append`, `Region.close`).
-/
import BlockCompiler.Proofs.OpenBlocks

namespace BlockCompiler

open TypeTable (Grows Sound StandsFor)

variable {t : Terminator} {σ : Site} {x : BlockStmt} {result : TypeId}

/-- The types that a condition may have. -/
inductive Ty.IsCondition : Ty → Prop
  | bool : IsCondition .bool
  | int {signed : Bool} {width : Nat} : IsCondition (.int signed width)
  | float {double : Bool} : IsCondition (.float double)

/-- The value that a statement computes. -/
def BlockStmt.value? : BlockStmt → Option Value
  | .live _ => none
  | .store _ value => some value

/-- The value that a terminator looks at. -/
def Terminator.value? : Terminator → Option Value
  | .ret value | .branch value _ _ | .switch value _ _ => some value
  | .jump _ => none

/-- All values of a block, in order. -/
def Block.values (block : Block) : List Value :=
  block.stmts.toList.filterMap (·.value?) ++ (block.terminator.bind (·.value?)).toList

def BlockStmt.Within (σ : Site) : BlockStmt → Prop
  | .live v => v.index < σ.vars.size
  | .store v value => v.index < σ.vars.size ∧ value.Within σ

def BlockStmt.Typed (σ : Site) : BlockStmt → Prop
  | .live v => ∃ var, σ.vars.get? v = some var ∧ σ.types.Proper var.ty
  | .store v value => ∃ var, σ.vars.get? v = some var ∧ value.Typed σ ∧ value.ty = var.ty

def Terminator.Within (σ : Site) : Terminator → Prop
  | .ret value => value.Within σ
  | .jump _ => True
  | .branch condition _ _ => condition.Within σ
  | .switch scrutinee targets _ => scrutinee.Within σ ∧
      ∃ id variants, StandsFor σ.types scrutinee.ty id ∧ σ.types.get? id = some (.sum variants) ∧
        ∀ target ∈ targets, target.1.index < variants.length

/-- The type stands for a sum that has this variant. -/
def TypeTable.HasVariant (t : TypeTable) (sum : TypeId) (d : VariantId) : Prop :=
  ∃ id variants, StandsFor t sum id ∧ t.get? id = some (.sum variants) ∧ d.index < variants.length

/-- Like `Within`, but a switch that names no variant may look at anything. -/
def Terminator.Intact (σ : Site) : Terminator → Prop
  | .ret value => value.Within σ
  | .jump _ => True
  | .branch condition _ _ => condition.Within σ
  | .switch scrutinee targets _ => scrutinee.Within σ ∧ ∀ target ∈ targets, σ.types.HasVariant scrutinee.ty target.1

theorem Terminator.Within.intact (h : t.Within σ) : t.Intact σ := by
  cases t with
  | ret _ | branch _ _ _ => exact h
  | jump _ => trivial
  | switch scrutinee targets fallback =>
    obtain ⟨hw, id, variants, hst, hsum, hlt⟩ := h
    exact ⟨hw, fun target htarget => ⟨id, variants, hst, hsum, hlt target htarget⟩⟩

def Terminator.Typed (σ : Site) (result : TypeId) : Terminator → Prop
  | .ret value => value.Typed σ ∧ value.ty = result
  | .jump _ => True
  | .branch condition _ _ => condition.Typed σ ∧ ∃ ty, σ.types.get? condition.ty = some ty ∧ ty.IsCondition
  | .switch scrutinee targets _ => scrutinee.Typed σ ∧
      ∃ id variants, StandsFor σ.types scrutinee.ty id ∧ σ.types.get? id = some (.sum variants) ∧
        (targets.map (·.1)).Nodup ∧ ∀ target ∈ targets, target.1.index < variants.length

theorem BlockStmt.Typed.within (hs : Sound σ.types) (h : x.Typed σ) : x.Within σ := by
  cases x with
  | live v =>
    obtain ⟨var, hvar, -⟩ := h
    exact Arena.get?_lt hvar
  | store v value =>
    obtain ⟨var, hvar, ht, -⟩ := h
    exact ⟨Arena.get?_lt hvar, ht.within hs⟩

theorem Terminator.Typed.within (hs : Sound σ.types) (h : t.Typed σ result) : t.Within σ := by
  cases t with
  | ret _ | branch _ _ _ => exact Value.Typed.within hs h.1
  | jump _ => trivial
  | switch scrutinee targets fallback =>
    obtain ⟨ht, id, variants, hst, hsum, -, hlt⟩ := h
    exact ⟨ht.within hs, id, variants, hst, hsum, hlt⟩

theorem Block.typed_of_mem_values {block : Block} (ht : block.terminator = some t)
    (hstmts : ∀ x ∈ block.stmts.toList, x.Typed σ) (hterm : t.Typed σ result) {v : Value} (hv : v ∈ block.values) :
    v.Typed σ := by
  rcases List.mem_append.mp hv with hv | hv
  · obtain ⟨x, hx, hxv⟩ := List.mem_filterMap.mp hv
    have hxt := hstmts x hx
    cases x with
    | live var => cases hxv
    | store var value =>
      cases hxv
      obtain ⟨_, -, htyped, -⟩ := hxt
      exact htyped
  · rw [ht] at hv
    cases t with
    | jump target => cases hv
    | ret value | branch value ifTrue ifFalse | switch value targets fallback =>
      simp only [Option.bind_some, Terminator.value?, Option.toList_some, List.mem_singleton] at hv
      rw [hv]
      exact hterm.1

section Extends

variable {σ σ' : Site}

section

variable (he : σ.Extends σ')
include he

theorem BlockStmt.Within.extends (h : x.Within σ) : x.Within σ' := by
  cases x with
  | live v => exact Nat.lt_of_lt_of_le h he.vars_size_le
  | store v value => exact ⟨Nat.lt_of_lt_of_le h.1 he.vars_size_le, h.2.extends he⟩

theorem BlockStmt.Typed.extends (h : x.Typed σ) : x.Typed σ' := by
  cases x with
  | live v =>
    obtain ⟨var, hvar, hp⟩ := h
    exact ⟨var, he.vars _ _ hvar, hp.grows he.types⟩
  | store v value =>
    obtain ⟨var, hvar, ht, hty⟩ := h
    exact ⟨var, he.vars _ _ hvar, ht.extends he, hty⟩

theorem Terminator.Within.extends (h : t.Within σ) : t.Within σ' := by
  cases t with
  | ret _ | branch _ _ _ => exact Value.Within.extends he h
  | jump _ => trivial
  | switch scrutinee targets fallback =>
    obtain ⟨hw, id, variants, hst, hsum, hlt⟩ := h
    exact ⟨hw.extends he, id, variants, hst.grows he.types, he.types _ _ hsum, hlt⟩

theorem Terminator.Typed.extends (h : t.Typed σ result) : t.Typed σ' result := by
  cases t with
  | ret value => exact ⟨h.1.extends he, h.2⟩
  | jump target => trivial
  | branch condition ifTrue ifFalse =>
    obtain ⟨ht, ty, hty, hc⟩ := h
    exact ⟨ht.extends he, ty, he.types _ _ hty, hc⟩
  | switch scrutinee targets fallback =>
    obtain ⟨ht, id, variants, hst, hsum, hnd, hlt⟩ := h
    exact ⟨ht.extends he, id, variants, hst.grows he.types, he.types _ _ hsum, hnd, hlt⟩

end

end Extends

/-! ## Regions -/

namespace Lowering.State

def Region (s : State) (lo : Nat) (P : BlockStmt → Prop) (T : Terminator → Prop) : Prop :=
  ∀ b block, lo ≤ b.index → s.blocks.get? b = some block →
    (∀ x ∈ block.stmts.toList, P x) ∧ ∀ t, block.terminator = some t →
      T t ∧ ∀ b' ∈ t.successors, lo ≤ b'.index ∧ b'.index < s.blocks.size

namespace Region

variable {s s' : State} {lo : Nat} {P P' : BlockStmt → Prop} {T T' : Terminator → Prop} {b : BlockId}

theorem mono (h : Region s lo P T) (hP : ∀ x, P x → P' x) (hT : ∀ t, T t → T' t) : Region s lo P' T' := by
  intro b block hlo hb
  obtain ⟨hstmts, hterm⟩ := h b block hlo hb
  exact ⟨fun x hx => hP x (hstmts x hx), fun t ht => ⟨hT t (hterm t ht).1, (hterm t ht).2⟩⟩

theorem of_blocks_eq (h : Region s lo P T) (he : s'.blocks = s.blocks) : Region s' lo P T := by
  unfold Region
  rw [he]
  exact h

theorem empty (s : State) : Region s s.blocks.size P T := by
  intro b block hlo hb
  have := Arena.get?_lt hb
  omega

theorem addBlock (h : Region s lo P T) : Region s.addBlock lo P T := by
  intro b block hlo hb
  simp only [State.addBlock, Arena.get?_insert] at hb
  split at hb
  · cases hb
    exact ⟨by simp, by simp⟩
  · obtain ⟨hstmts, hterm⟩ := h b block hlo hb
    refine ⟨hstmts, fun t ht => ⟨(hterm t ht).1, fun b' hb' => ?_⟩⟩
    have := (hterm t ht).2 b' hb'
    simp only [State.addBlock, Arena.size_insert]
    omega

theorem append (h : Region s lo P T) (hx : P x) : Region (s.append b x) lo P T := by
  intro b' block hlo hb
  have hsize : (s.append b x).blocks.size = s.blocks.size := Arena.size_modify _ _ _
  rw [hsize]
  simp only [State.append, State.changeBlock, Arena.get?_modify] at hb
  split at hb
  · rename_i heq
    subst heq
    obtain ⟨old, hold, rfl⟩ := Option.map_eq_some_iff.mp hb
    obtain ⟨hstmts, hterm⟩ := h b' old hlo hold
    refine ⟨fun y hy => ?_, hterm⟩
    rcases List.mem_append.mp (Array.toList_push ▸ hy) with hy | hy
    · exact hstmts y hy
    · rw [List.mem_singleton.mp hy]
      exact hx
  · exact h b' block hlo hb

theorem close (h : Region s lo P T) (ht : T t)
    (hsucc : ∀ b' ∈ t.successors, lo ≤ b'.index ∧ b'.index < s.blocks.size) : Region (s.close b t) lo P T := by
  intro b' block hlo hb
  have hsize : (s.close b t).blocks.size = s.blocks.size := Arena.size_modify _ _ _
  rw [hsize]
  simp only [State.close, State.changeBlock, Arena.get?_modify] at hb
  split at hb
  · rename_i heq
    subst heq
    obtain ⟨old, hold, rfl⟩ := Option.map_eq_some_iff.mp hb
    refine ⟨(h b' old hlo hold).1, fun t' ht' => ?_⟩
    cases ht'
    exact ⟨ht, hsucc⟩
  · exact h b' block hlo hb

end Region

end Lowering.State

end BlockCompiler
