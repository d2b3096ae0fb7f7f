/-
  BlockCompiler.Proofs.Walk — walks through statements and through blocks.

  A walk is told by decisions, numbers, which way to go: 0 is yes at a condition, and at a
  match a number is the position of an arm; one that is too large takes no arm. It performs
  actions, and ends by returning or where no decision is left.

  (1) `Action`, `Ending`, `Walk`, over whatever values the walk sees.
  (2) Walks through the source follow its structure (`walkStmts`, `walkBody`). Values are
      where they come from (`Origin`).
  (3) Walks through blocks run statements and follow terminators (`Context.advance`,
      `Context.walk`). A match looks at a variable, and a payload is taken out of one: the
      walk shows the value that was stored there last.
  (4) The walks agree when they perform the same actions, on values that were made from one
      another (`Walk.Agrees`).
-/
import BlockCompiler.Proofs.Run

namespace BlockCompiler

open Surface (Expr TypeExpr Stmt Arm)

/-! ## (1) Actions -/

inductive Action (α β : Type) where
  /-- A variable becomes live. -/
  | live (name : String)
  | store (name : String) (value : α)
  | test (condition : α) (holds : Bool)
  /-- A value is matched on, and this arm is taken, or none. -/
  | pick (value : α) (arm : Option β)

inductive Ending (α : Type) where
  | returned (value : α)
  /-- No decision is left about a condition or a matched value. -/
  | starved (value : α)

structure Walk (α β : Type) where
  actions : List (Action α β)
  ending : Ending α

/-! ## (2) Through the source -/

/-- Where a value comes from. -/
inductive Origin where
  | expr (e : Expr)
  /-- What is returned where nothing is. -/
  | unit
  | argument (index : Nat)
  | payload (matched : Expr) (variant : TypeExpr)

inductive Outcome where
  /-- The walk goes on behind the statement, with the decisions that are left. -/
  | goesOn (actions : List (Action Origin TypeExpr)) (rest : List Nat)
  | ends (walk : Walk Origin TypeExpr)

namespace Outcome

/-- Other actions come first. -/
def after (first : List (Action Origin TypeExpr)) : Outcome → Outcome
  | goesOn actions rest => goesOn (first ++ actions) rest
  | ends walk => ends ⟨first ++ walk.actions, walk.ending⟩

theorem after_nil (o : Outcome) : o.after [] = o := by cases o <;> rfl

theorem after_after (first second : List (Action Origin TypeExpr)) (o : Outcome) :
    (o.after second).after first = o.after (first ++ second) := by
  cases o <;> simp [after]

/-- What comes behind, if the walk gets there. -/
def andThen (next : List Nat → Outcome) : Outcome → Outcome
  | goesOn actions rest => (next rest).after actions
  | ends walk => ends walk

/-- A decision about a condition. -/
def test (condition : Expr) (next : Bool → List Nat → Outcome) : List Nat → Outcome
  | [] => ends ⟨[], .starved (.expr condition)⟩
  | d :: ds => (next (d = 0) ds).after [.test (.expr condition) (d = 0)]

/-- A decision about a matched value, which is kept in a variable first. -/
def pick (value : Expr) (next : Nat → List Nat → Outcome) (decisions : List Nat) : Outcome :=
  after [.live "match", .store "match" (.expr value)] <|
    match decisions with
    | [] => ends ⟨[], .starved (.expr value)⟩
    | d :: ds => next d ds

/-- A loop, for at most so many rounds. Each round takes a decision, so as many rounds as there
are decisions are enough. -/
def loop (condition : Expr) (body : List Nat → Outcome) : (rounds : Nat) → List Nat → Outcome
  | 0, _ => ends ⟨[], .starved (.expr condition)⟩
  | n + 1, ds =>
    test condition (fun holds ds => if holds then (body ds).andThen (loop condition body n) else goesOn [] ds) ds

end Outcome

/-- A payload gets its name. -/
def payloadActions (matched : Expr) (variant : TypeExpr) : Option String → List (Action Origin TypeExpr)
  | none => []
  | some name => [.live name, .store name (.payload matched variant)]

mutual

def walkStmt : Stmt → List Nat → Outcome
  | .letVar name _ none _, ds => .goesOn [.live name] ds
  | .letVar name _ (some e) _, ds => .goesOn [.live name, .store name (.expr e)] ds
  | .assign name _ e _, ds => .goesOn [.store name (.expr e)] ds
  | .ret none _, _ => .ends ⟨[], .returned .unit⟩
  | .ret (some e) _, _ => .ends ⟨[], .returned (.expr e)⟩
  | .expr e _, ds => .goesOn [.live "_", .store "_" (.expr e)] ds
  | .block body _, ds => walkStmts body ds
  | .ifElse c thenBody none _, ds =>
    Outcome.test c (fun holds ds => if holds then walkStmts thenBody ds else .goesOn [] ds) ds
  | .ifElse c thenBody (some elseBody) _, ds =>
    Outcome.test c (fun holds ds => if holds then walkStmts thenBody ds else walkStmts elseBody ds) ds
  | .whileLoop c body _, ds => Outcome.loop c (fun ds => walkStmts body ds) (ds.length + 1) ds
  | .matchOn e arms none _, ds =>
    Outcome.pick e (fun d ds => (walkArms e arms d ds).getD (.goesOn [.pick (.expr e) none] ds)) ds
  | .matchOn e arms (some fallback) _, ds =>
    Outcome.pick e (fun d ds => (walkArms e arms d ds).getD ((walkStmts fallback ds).after [.pick (.expr e) none])) ds

def walkStmts : List Stmt → List Nat → Outcome
  | [], ds => .goesOn [] ds
  | s :: rest, ds => (walkStmt s ds).andThen fun ds => walkStmts rest ds

/-- The arm at a position, if there is one. -/
def walkArms (e : Expr) : List Arm → Nat → List Nat → Option Outcome
  | [], _, _ => none
  | ⟨variant, binding, body, _⟩ :: _, 0, ds =>
    some ((walkStmts body ds).after (.pick (.expr e) (some variant) :: payloadActions e variant binding))
  | _ :: arms, n + 1, ds => walkArms e arms n ds

end

/-- The named arguments, from `index` on, go to variables. -/
def paramActions (index : Nat) : List Parameter → List (Action Origin TypeExpr)
  | [] => []
  | { ty := _, name := none } :: rest => paramActions (index + 1) rest
  | { ty := _, name := some name } :: rest =>
    .live name :: .store name (.argument index) :: paramActions (index + 1) rest

/-- A call of a function. The end of its body returns nothing. -/
def walkBody (params : List Parameter) (body : List Stmt) (decisions : List Nat) : Walk Origin TypeExpr :=
  match (walkStmts body decisions).after (paramActions 0 params) with
  | .goesOn actions _ => ⟨actions, .returned .unit⟩
  | .ends walk => walk

/-! ## (3) Through blocks -/

/-- What the variables of a walk hold. -/
abbrev Holdings := VarId → Option Value

/-- Where a walk stands: in front of a statement, or behind the last one. -/
structure Spot where
  block : BlockId
  index : Nat
  decisions : List Nat
  held : Holdings

namespace Value

/-- What a matched variable holds. -/
def heldIn (held : Holdings) : Value → Value
  | .var v ty span => (held v).getD (.var v ty span)
  | v => v

/-- A payload is one of what the variable holds. -/
def shownIn (held : Holdings) : Value → Value
  | .project sum d ty span => .project (sum.heldIn held) d ty span
  | v => v

end Value

inductive Move where
  | goes (action : Option (Action Value VariantId)) (next : Spot)
  | ends (ending : Ending Value)
  /-- The block does not exist or is open. -/
  | stuck

namespace Spot

/-- To the start of a block. -/
def enter (w : Spot) (b : BlockId) (decisions : List Nat) : Spot := { w with block := b, index := 0, decisions }

/-- On to the next statement. -/
def next (w : Spot) : Spot := { w with index := w.index + 1 }

/-- A value was stored. -/
def storing (w : Spot) (v : VarId) (value : Value) : Spot :=
  { w with held := fun v' => if v' = v then some value else w.held v' }

/-- Behind the last statement a walk does what the terminator says. -/
def leave (w : Spot) : Terminator → Move
  | .ret value => .ends (.returned value)
  | .jump b => .goes none (w.enter b w.decisions)
  | .branch c ifTrue ifFalse =>
    match w.decisions with
    | [] => .ends (.starved c)
    | d :: ds => .goes (some (.test c (d = 0))) (w.enter (if d = 0 then ifTrue else ifFalse) ds)
  | .switch value targets fallback =>
    match w.decisions with
    | [] => .ends (.starved (value.heldIn w.held))
    | d :: ds =>
      match targets[d]? with
      | some (variant, b) => .goes (some (.pick (value.heldIn w.held) (some variant))) (w.enter b ds)
      | none => .goes (some (.pick (value.heldIn w.held) none)) (w.enter fallback ds)

end Spot

namespace Context

def varName (c : Context) (v : VarId) : String := ((c.vars.get? v).map (·.name)).getD ""

/-- One step of a walk. -/
def advance (c : Context) (w : Spot) : Move :=
  match c.blocks.get? w.block with
  | none => .stuck
  | some block =>
    match block.stmts.toList[w.index]?, block.terminator with
    | some (.live v), _ => .goes (some (.live (c.varName v))) w.next
    | some (.store v value), _ =>
      .goes (some (.store (c.varName v) (value.shownIn w.held))) (w.next.storing v value)
    | none, some t => w.leave t
    | none, none => .stuck

/-- The walk from a spot, if it ends within so many steps. -/
def walk (c : Context) : (steps : Nat) → Spot → Option (Walk Value VariantId)
  | 0, _ => none
  | n + 1, w =>
    match c.advance w with
    | .goes action next => (c.walk n next).map fun rest => ⟨action.toList ++ rest.actions, rest.ending⟩
    | .ends ending => some ⟨[], ending⟩
    | .stuck => none

/-- A walk gets from one spot to another, performing actions. -/
inductive Path (c : Context) : Spot → List (Action Value VariantId) → Spot → Prop
  | here {w : Spot} : Path c w [] w
  | go {w w' w'' : Spot} {action : Option (Action Value VariantId)} {actions : List (Action Value VariantId)} :
      c.advance w = .goes action w' → Path c w' actions w'' → Path c w (action.toList ++ actions) w''

variable {c : Context} {w w' w'' : Spot} {actions actions' : List (Action Value VariantId)}

theorem Path.trans (h : c.Path w actions w') (h' : c.Path w' actions' w'') : c.Path w (actions ++ actions') w'' := by
  induction h with
  | here => exact h'
  | go hstep _ ih => rw [List.append_assoc]; exact .go hstep (ih h')

theorem Path.step {action : Option (Action Value VariantId)} (h : c.advance w = .goes action w') :
    c.Path w action.toList w' := by
  rw [← List.append_nil action.toList]
  exact .go h .here

/-- A walk that ended stays the same with more steps. -/
theorem walk_of_le {n steps : Nat} {walk : Walk Value VariantId} (h : c.walk n w = some walk) (hle : n ≤ steps) :
    c.walk steps w = some walk := by
  induction n generalizing w walk steps with
  | zero => cases h
  | succ n ih =>
    obtain ⟨k, rfl⟩ : ∃ k, steps = k + 1 := ⟨steps - 1, by omega⟩
    rw [Context.walk] at h ⊢
    split at h
    · obtain ⟨rest, hrest, rfl⟩ := Option.map_eq_some_iff.mp h
      rw [ih hrest (by omega), Option.map_some]
    · exact h
    · cases h

/-- A path to where a walk ends is the whole walk. -/
theorem Path.walk {ending : Ending Value} (h : c.Path w actions w') (he : c.advance w' = .ends ending) :
    ∃ n, c.walk n w = some ⟨actions, ending⟩ := by
  induction h with
  | here => exact ⟨1, by rw [Context.walk, he]⟩
  | go hstep _ ih =>
    obtain ⟨n, hn⟩ := ih he
    refine ⟨n + 1, ?_⟩
    rw [Context.walk, hstep]
    simp only [hn, Option.map_some]

/-- No step adds decisions. -/
theorem decisions_le_of_advance {action : Option (Action Value VariantId)} (h : c.advance w = .goes action w') :
    w'.decisions.length ≤ w.decisions.length := by
  unfold advance at h
  split at h
  · cases h
  · split at h
    · cases h
      exact Nat.le_refl _
    · cases h
      exact Nat.le_refl _
    · rename_i t _ _
      cases t with
      | ret value => cases h
      | jump b =>
        cases h
        exact Nat.le_refl _
      | branch value ifTrue ifFalse =>
        simp only [Spot.leave] at h
        split at h <;> cases h
        rename_i d ds hds
        simp [Spot.enter, hds]
      | switch value targets fallback =>
        simp only [Spot.leave] at h
        split at h
        · cases h
        · rename_i d ds hds
          split at h <;> cases h <;> simp [Spot.enter, hds]
    · cases h

theorem Path.decisions_le (h : c.Path w actions w') : w'.decisions.length ≤ w.decisions.length := by
  induction h with
  | here => exact Nat.le_refl _
  | go hstep _ ih => exact Nat.le_trans ih (decisions_le_of_advance hstep)

end Context

/-! ## (4) Agreement -/

/-- No expression is a payload. -/
theorem Mirrors.shownIn_eq {σ : Site} {file : FileId} {e : Expr} {v : Value} (h : Mirrors σ file e v)
    (held : Holdings) : v.shownIn held = v := by
  cases h <;> rfl

/-- The value was made from what the origin names. -/
inductive Origin.Gives (σ : Site) (file : FileId) : Origin → Value → Prop
  | expr {e : Expr} {v : Value} : Mirrors σ file e v → Gives σ file (.expr e) v
  | unit {span : Span} : Gives σ file .unit (.unit TypeId.unit span)
  | argument {i : Nat} {p : Parameter} {span : Span} : σ.params[i]? = some p →
      Gives σ file (.argument i) (.arg i p.ty span)
  | payload {e : Expr} {v : Value} {written : TypeExpr} {d : VariantId} {ty : TypeId} {span : Span} :
      Mirrors σ file e v → Lowering.Names σ.types file v.ty written d ty →
      Gives σ file (.payload e written) (.project v d ty span)

/-- The same action, on a value and a variant that were made from the origin and the
annotation. -/
inductive Action.Agrees (σ : Site) (file : FileId) : Action Origin TypeExpr → Action Value VariantId → Prop
  | live {name : String} : Agrees σ file (.live name) (.live name)
  | store {name : String} {o : Origin} {v : Value} : o.Gives σ file v → Agrees σ file (.store name o) (.store name v)
  | test {o : Origin} {v : Value} {holds : Bool} : o.Gives σ file v → Agrees σ file (.test o holds) (.test v holds)
  | pick {o : Origin} {v : Value} {written : TypeExpr} {d : VariantId} {ty : TypeId} : o.Gives σ file v →
      Lowering.Names σ.types file v.ty written d ty → Agrees σ file (.pick o (some written)) (.pick v (some d))
  | pickNone {o : Origin} {v : Value} : o.Gives σ file v → Agrees σ file (.pick o none) (.pick v none)

inductive Ending.Agrees (σ : Site) (file : FileId) : Ending Origin → Ending Value → Prop
  | returned {o : Origin} {v : Value} : o.Gives σ file v → Agrees σ file (.returned o) (.returned v)
  | starved {o : Origin} {v : Value} : o.Gives σ file v → Agrees σ file (.starved o) (.starved v)

/-- The same actions in the same order, and the same end. -/
structure Walk.Agrees (σ : Site) (file : FileId) (source : Walk Origin TypeExpr) (blocks : Walk Value VariantId) :
    Prop where
  actions : List.Forall₂ (Action.Agrees σ file) source.actions blocks.actions
  ending : source.ending.Agrees σ file blocks.ending

end BlockCompiler
