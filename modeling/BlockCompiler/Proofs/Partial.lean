/-
  BlockCompiler.Proofs.Partial — what a step does if it ends.

  `Whenever act s Q`: if the step, taken in the state `s`, gives a result, then `Q` holds of the
  result and of the state it leaves. A step that stops at a fault satisfies it, so nothing has
  to be known of the state. `Answers act s Q R` is the same for a step that may also reject.

  These are the duals of `Ends` and `Judges`, and follow the step's structure in the same way.
  A step of lowering that succeeded tells what it needed: a block that was appended to exists,
  and one that was closed was open (`whenever_emit`, `whenever_terminate`).
-/
import BlockCompiler.Proofs.State

namespace BlockCompiler

/-! ## Steps that give a result -/

section Whenever

variable {ε σ α β : Type}

def Whenever (act : EStateM ε σ α) (s : σ) (Q : α → σ → Prop) : Prop :=
  ∀ a s', act s = .ok a s' → Q a s'

variable {act : EStateM ε σ α} {s s' : σ} {Q Q' : α → σ → Prop}

theorem whenever_iff : Whenever act s Q ↔ ¬ Ends act s fun a s' => ¬ Q a s' := by
  simp [Whenever, Ends]

theorem Whenever.mono (h : Whenever act s Q) (hQ : ∀ a s', Q a s' → Q' a s') : Whenever act s Q' :=
  fun a s' he => hQ a s' (h a s' he)

@[simp] theorem whenever_bind (f : α → EStateM ε σ β) (Q : β → σ → Prop) :
    Whenever (act >>= f) s Q ↔ Whenever act s fun a s' => Whenever (f a) s' Q := by
  simp [whenever_iff]

@[simp] theorem whenever_pure (a : α) : Whenever (pure a : EStateM ε σ α) s Q ↔ Q a s := by
  simp [whenever_iff]

@[simp] theorem whenever_get (Q : σ → σ → Prop) : Whenever (get : EStateM ε σ σ) s Q ↔ Q s s := by
  simp [whenever_iff]

@[simp] theorem whenever_modify (f : σ → σ) (Q : PUnit → σ → Prop) :
    Whenever (modify f : EStateM ε σ PUnit) s Q ↔ Q ⟨⟩ (f s) := by
  simp [whenever_iff]

@[simp] theorem whenever_modifyGet (f : σ → α × σ) :
    Whenever (modifyGet f : EStateM ε σ α) s Q ↔ Q (f s).1 (f s).2 := by
  simp [whenever_iff]

@[simp] theorem whenever_throw (e : ε) : Whenever (throw e : EStateM ε σ α) s Q := by
  simp [whenever_iff]

@[simp] theorem whenever_ofExcept (r : Except ε α) :
    Whenever (ofExcept r : EStateM ε σ α) s Q ↔ ∀ a, r = .ok a → Q a s := by
  simp [whenever_iff]

end Whenever

/-! ## Steps that may reject -/

section Answers

variable {ε δ σ α β : Type}

def Answers (act : ExceptT δ (EStateM ε σ) α) (s : σ) (Q : α → σ → Prop) (R : δ → σ → Prop) : Prop :=
  Whenever act.run s fun r s' =>
    match r with
    | .ok a => Q a s'
    | .error d => R d s'

variable {act : ExceptT δ (EStateM ε σ) α} {s s' : σ} {Q Q' : α → σ → Prop} {R R' : δ → σ → Prop}

theorem answers_iff : Answers act s Q R ↔ ¬ Judges act s (fun a s' => ¬ Q a s') fun d s' => ¬ R d s' := by
  rw [Answers, whenever_iff, Judges]
  refine not_congr ⟨fun h => h.mono fun r t hr => ?_, fun h => h.mono fun r t hr => ?_⟩ <;> cases r <;> exact hr

theorem Answers.mono (h : Answers act s Q R) (hQ : ∀ a s', Q a s' → Q' a s') (hR : ∀ d s', R d s' → R' d s') :
    Answers act s Q' R' := by
  refine Whenever.mono h fun r t hr => ?_
  cases r with
  | ok a => exact hQ a t hr
  | error d => exact hR d t hr

@[simp] theorem answers_bind (f : α → ExceptT δ (EStateM ε σ) β) (Q : β → σ → Prop) :
    Answers (act >>= f) s Q R ↔ Answers act s (fun a s' => Answers (f a) s' Q R) R := by
  simp [answers_iff]

@[simp] theorem answers_pure (a : α) : Answers (pure a : ExceptT δ (EStateM ε σ) α) s Q R ↔ Q a s := by
  simp [answers_iff]

@[simp] theorem answers_throw (d : δ) : Answers (throw d : ExceptT δ (EStateM ε σ) α) s Q R ↔ R d s := by
  simp [answers_iff]

@[simp] theorem answers_lift (step : EStateM ε σ α) :
    Answers (liftM step : ExceptT δ (EStateM ε σ) α) s Q R ↔ Whenever step s Q := by
  simp [answers_iff, whenever_iff]

@[simp] theorem answers_get (Q : σ → σ → Prop) :
    Answers (get : ExceptT δ (EStateM ε σ) σ) s Q R ↔ Q s s := by
  simp [answers_iff]

@[simp] theorem answers_modify (f : σ → σ) (Q : PUnit → σ → Prop) :
    Answers (modify f : ExceptT δ (EStateM ε σ) PUnit) s Q R ↔ Q ⟨⟩ (f s) := by
  simp [answers_iff]

end Answers

/-! ## Steps of lowering -/

namespace Lowering

section

variable {α : Type} {s : State} {cfg : Settings} {file : FileId}

@[simp] theorem whenever_onTyping (act : TypingM α) (Q : α → State → Prop) :
    Whenever (onTyping act) s Q ↔ Whenever act s.typing fun a st => Q a (s.withTyping st) := by
  simp [whenever_iff]

@[simp] theorem whenever_ask (f : Context → Except Fault α) (Q : α → State → Prop) :
    Whenever (ask f) s Q ↔ ∀ a, f s.context = .ok a → Q a s := by
  simp [whenever_iff]

@[simp] theorem whenever_checking (act : Env → CheckM α) (Q : Except Diagnostic α → State → Prop) :
    Whenever (checking cfg file act) s Q ↔
      Answers (act (s.env cfg.gate file)) s.typing (fun a st => Q (.ok a) (s.withTyping st))
        (fun d st => Q (.error d) (s.withTyping st)) := by
  simp [whenever_iff, answers_iff]

@[simp] theorem answers_checked (act : Env → CheckM α) (Q : α → State → Prop) (R : Diagnostic → State → Prop) :
    Answers (checked cfg file act) s Q R ↔
      Answers (act (s.env cfg.gate file)) s.typing (fun a st => Q a (s.withTyping st))
        (fun d st => R d (s.withTyping st)) := by
  simp [answers_iff]

@[simp] theorem answers_attempt (act : StmtM α) (Q : Except Diagnostic α → State → Prop)
    (R : Diagnostic → State → Prop) :
    Answers (attempt act) s Q R ↔ Answers act s (fun a => Q (.ok a)) (fun d => Q (.error d)) := by
  simp [answers_iff]

@[simp] theorem whenever_setContext (f : Context → Context) (Q : PUnit → State → Prop) :
    Whenever (setContext f) s Q ↔ Q ⟨⟩ { s with context := f s.context } := by
  simp [whenever_iff]

@[simp] theorem whenever_newBlock (Q : BlockId → State → Prop) :
    Whenever newBlock s Q ↔ Q s.blocks.next s.addBlock := by
  simp [whenever_iff]

@[simp] theorem whenever_newVar (ty : TypeId) (name : String) (Q : VarId → State → Prop) :
    Whenever (newVar ty name) s Q ↔ Q s.vars.next (s.addVar ty name) := by
  simp [whenever_iff]

@[simp] theorem whenever_pushScope (Q : PUnit → State → Prop) : Whenever pushScope s Q ↔ Q ⟨⟩ s.enter := by
  simp [whenever_iff]

@[simp] theorem whenever_lookup? (name : String) (Q : Option VarId → State → Prop) :
    Whenever (lookup? name) s Q ↔ Q (Scope.lookup? s.scopes name) s := by
  simp [whenever_iff]

@[simp] theorem whenever_note (level : Log.Level) (area text : String) (Q : PUnit → State → Prop) :
    Whenever (note cfg level area text) s Q ↔
      Q ⟨⟩ { s with journal := s.journal.note cfg.gate level area text } := by
  simp [whenever_iff]

@[simp] theorem whenever_report (d : Diagnostic) (Q : PUnit → State → Prop) :
    Whenever (report cfg d) s Q ↔ Q ⟨⟩ (s.reported cfg d) := by
  simp [whenever_iff]

@[simp] theorem whenever_limitReached (Q : Bool → State → Prop) :
    Whenever (limitReached cfg) s Q ↔ Q (decide (s.AtLimit cfg)) s := by
  simp [whenever_iff]

@[simp] theorem whenever_popScope (Q : PUnit → State → Prop) :
    Whenever popScope s Q ↔ (s.scopes ≠ [] → Q ⟨⟩ s.leave) := by
  by_cases h : s.scopes = []
  · simp [popScope, h]
  · simp [whenever_iff, ends_popScope h, h]

@[simp] theorem whenever_bindName (name : String) (v : VarId) (Q : PUnit → State → Prop) :
    Whenever (bindName name v) s Q ↔ (s.scopes ≠ [] → Q ⟨⟩ (s.bind name v)) := by
  by_cases h : s.scopes = []
  · simp [bindName, h]
  · simp [whenever_iff, ends_bindName h, h]

@[simp] theorem whenever_emit (b : BlockId) (x : BlockStmt) (Q : PUnit → State → Prop) :
    Whenever (emit b x) s Q ↔ (b.index < s.blocks.size → Q ⟨⟩ (s.append b x)) := by
  simp only [emit, putBlock, whenever_bind, whenever_ask, Arena.get_eq_ok, whenever_setContext]
  constructor
  · intro h hlt
    obtain ⟨block, hb⟩ := Arena.get?_of_lt hlt
    have hq := h block hb
    rwa [Arena.put_eq_modify hb fun block => { block with stmts := block.stmts.push x }] at hq
  · intro h block hb
    rw [Arena.put_eq_modify hb fun block => { block with stmts := block.stmts.push x }]
    exact h (Arena.get?_lt hb)

@[simp] theorem whenever_terminate (b : BlockId) (t : Terminator) (Q : PUnit → State → Prop) :
    Whenever (terminate b t) s Q ↔ (s.IsOpen b → Q ⟨⟩ (s.close b t)) := by
  by_cases ho : s.IsOpen b
  · simp [whenever_iff, ends_terminate ho, ho]
  · simp only [terminate, whenever_bind, whenever_ask, Arena.get_eq_ok, ho, false_imp_iff, iff_true]
    intro block hb
    cases hterm : block.terminator with
    | none => exact absurd ⟨block, hb, hterm⟩ ho
    | some t' => simp

end

end Lowering

end BlockCompiler
