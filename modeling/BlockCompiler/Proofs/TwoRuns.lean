/-
  BlockCompiler.Proofs.TwoRuns — two steps side by side.

  `Jointly act₁ s₁ act₂ s₂ Q`: if the step `act₁`, taken in the state `s₁`, and the step `act₂`,
  taken in the state `s₂`, both give a result, then `Q` holds of the two results and of the states
  left. `Concurs` is the same for steps that may reject: besides, they give results together or
  reject together.

  So a property of two runs follows their common structure, as one of a single run does
  (`jointly_bind`, `Concurs.bind`).
-/
import BlockCompiler.Proofs.Partial

namespace BlockCompiler

/-! ## Steps that give a result -/

section Jointly

variable {ε σ α1 α2 β1 β2 : Type}

def Jointly (act₁ : EStateM ε σ α₁) (s₁ : σ) (act₂ : EStateM ε σ α₂) (s₂ : σ) (Q : α₁ → σ → α₂ → σ → Prop) : Prop :=
  Whenever act₁ s₁ fun a s₁' => Whenever act₂ s₂ fun b s₂' => Q a s₁' b s₂'

variable {act1 : EStateM ε σ α1} {act2 : EStateM ε σ α2} {s1 s2 : σ} {Q Q' : α1 → σ → α2 → σ → Prop}

theorem Jointly.mono (h : Jointly act1 s1 act2 s2 Q) (hQ : ∀ a s b t, Q a s b t → Q' a s b t) :
    Jointly act1 s1 act2 s2 Q' :=
  Whenever.mono h fun a s hb => hb.mono fun b t => hQ a s b t

/-- What each step does by itself. -/
theorem Jointly.of_whenever {P1 : α1 → σ → Prop} {P2 : α2 → σ → Prop} (h1 : Whenever act1 s1 P1)
    (h2 : Whenever act2 s2 P2) : Jointly act1 s1 act2 s2 fun a s b t => P1 a s ∧ P2 b t :=
  h1.mono fun _ _ ha => h2.mono fun _ _ hb => ⟨ha, hb⟩

theorem Jointly.result (h : Jointly act1 s1 act2 s2 Q) {a : α1} {b : α2} {s t : σ} (h1 : act1 s1 = .ok a s)
    (h2 : act2 s2 = .ok b t) : Q a s b t := h a s h1 b t h2

@[simp] theorem jointly_bind (f1 : α1 → EStateM ε σ β1) (f2 : α2 → EStateM ε σ β2) (Q : β1 → σ → β2 → σ → Prop) :
    Jointly (act1 >>= f1) s1 (act2 >>= f2) s2 Q ↔
      Jointly act1 s1 act2 s2 fun a s b t => Jointly (f1 a) s (f2 b) t Q := by
  simp only [Jointly, whenever_bind]
  constructor
  · intro h a s ha b t hb c u hc
    exact h a s ha c u hc b t hb
  · intro h a s ha c u hc b t hb
    exact h a s ha b t hb c u hc

@[simp] theorem jointly_pure (a : α1) (b : α2) :
    Jointly (pure a : EStateM ε σ α1) s1 (pure b) s2 Q ↔ Q a s1 b s2 := by
  simp [Jointly]

@[simp] theorem jointly_get (Q : σ → σ → σ → σ → Prop) :
    Jointly (get : EStateM ε σ σ) s1 get s2 Q ↔ Q s1 s1 s2 s2 := by
  simp [Jointly]

@[simp] theorem jointly_modify (f1 f2 : σ → σ) (Q : PUnit → σ → PUnit → σ → Prop) :
    Jointly (modify f1 : EStateM ε σ PUnit) s1 (modify f2) s2 Q ↔ Q ⟨⟩ (f1 s1) ⟨⟩ (f2 s2) := by
  simp [Jointly]

@[simp] theorem jointly_ofExcept (r1 : Except ε α1) (r2 : Except ε α2) :
    Jointly (ofExcept r1 : EStateM ε σ α1) s1 (ofExcept r2) s2 Q ↔ ∀ a, r1 = .ok a → ∀ b, r2 = .ok b → Q a s1 b s2 := by
  simp [Jointly]

end Jointly

/-! ## Results without a state -/

section SameOutcome

variable {δ ε α1 α2 β : Type} {R R' : α1 → α2 → Prop} {E E' : δ → δ → Prop}

/-- Both give related results, or both give none, for related reasons. -/
inductive SameOutcome (R : α₁ → α₂ → Prop) (E : δ → δ → Prop) : Except δ α₁ → Except δ α₂ → Prop
  | ok {a : α₁} {b : α₂} : R a b → SameOutcome R E (.ok a) (.ok b)
  | error {d d' : δ} : E d d' → SameOutcome R E (.error d) (.error d')

section

variable {x : Except δ α1} {y : Except δ α2} (h : SameOutcome R E x y)
include h

theorem SameOutcome.mono (hR : ∀ a b, R a b → R' a b) (hE : ∀ d d', E d d' → E' d d') : SameOutcome R' E' x y := by
  cases h with
  | ok hab => exact .ok (hR _ _ hab)
  | error hd => exact .error (hE _ _ hd)

theorem SameOutcome.rel {a : α1} {b : α2} (hx : x = .ok a) (hy : y = .ok b) : R a b := by
  subst hx hy
  cases h with
  | ok hab => exact hab

end

theorem SameOutcome.of_eq {α : Type} {x y : Except ε α} (h : x = y) : SameOutcome Eq Eq x y := by
  subst h
  cases x with
  | ok a => exact .ok rfl
  | error e => exact .error rfl

theorem SameOutcome.bind_eq {x : Except ε α1} {y : Except ε α2} (h : SameOutcome R Eq x y) {k1 : α1 → Except ε β}
    {k2 : α2 → Except ε β} (hk : ∀ a b, R a b → k1 a = k2 b) : x >>= k1 = y >>= k2 := by
  cases h with
  | ok hab => exact hk _ _ hab
  | error he => exact congrArg Except.error he

end SameOutcome

/-! ## Steps that may reject -/

section Concurs

variable {ε δ σ α1 α2 β1 β2 : Type}

def Concurs (act₁ : ExceptT δ (EStateM ε σ) α₁) (s₁ : σ) (act₂ : ExceptT δ (EStateM ε σ) α₂) (s₂ : σ)
    (Q : α₁ → σ → α₂ → σ → Prop) (R : δ → σ → δ → σ → Prop) : Prop :=
  Jointly act₁.run s₁ act₂.run s₂ fun r s r' t => SameOutcome (fun a b => Q a s b t) (fun d d' => R d s d' t) r r'

variable {act1 : ExceptT δ (EStateM ε σ) α1} {act2 : ExceptT δ (EStateM ε σ) α2} {s1 s2 : σ}
  {Q Q' : α1 → σ → α2 → σ → Prop} {R R' : δ → σ → δ → σ → Prop}

theorem Concurs.mono (h : Concurs act1 s1 act2 s2 Q R) (hQ : ∀ a s b t, Q a s b t → Q' a s b t)
    (hR : ∀ d s d' t, R d s d' t → R' d s d' t) : Concurs act1 s1 act2 s2 Q' R' :=
  Jointly.mono h fun _ s _ t hr => hr.mono (fun a b => hQ a s b t) fun d d' => hR d s d' t

theorem Concurs.bind {f1 : α1 → ExceptT δ (EStateM ε σ) β1} {f2 : α2 → ExceptT δ (EStateM ε σ) β2}
    {Q : β1 → σ → β2 → σ → Prop}
    (h : Concurs act1 s1 act2 s2 (fun a s b t => Concurs (f1 a) s (f2 b) t Q R) R) :
    Concurs (act1 >>= f1) s1 (act2 >>= f2) s2 Q R := by
  unfold Concurs
  rw [ExceptT.run_bind, ExceptT.run_bind, jointly_bind]
  refine Jointly.mono h fun r s r' t hr => ?_
  cases hr with
  | ok hq => exact hq
  | error hd => exact (jointly_pure _ _).mpr (.error hd)

/-- What each step does by itself, if neither rejects. -/
theorem Concurs.of_answers {P1 : α1 → σ → Prop} {P2 : α2 → σ → Prop} (h1 : Answers act1 s1 P1 fun _ _ => False)
    (h2 : Answers act2 s2 P2 fun _ _ => False) : Concurs act1 s1 act2 s2 (fun a s b t => P1 a s ∧ P2 b t) R := by
  refine Jointly.mono (Jointly.of_whenever h1 h2) fun r s r' t h => ?_
  obtain ⟨hr, hr'⟩ := h
  cases r with
  | error d => exact hr.elim
  | ok a =>
    cases r' with
    | error d => exact hr'.elim
    | ok b => exact .ok ⟨hr, hr'⟩

@[simp] theorem concurs_pure (a : α1) (b : α2) :
    Concurs (pure a : ExceptT δ (EStateM ε σ) α1) s1 (pure b) s2 Q R ↔ Q a s1 b s2 :=
  (jointly_pure _ _).trans ⟨fun h => h.rel rfl rfl, fun h => .ok h⟩

@[simp] theorem concurs_throw (d d' : δ) :
    Concurs (throw d : ExceptT δ (EStateM ε σ) α1) s1 (throw d' : ExceptT δ (EStateM ε σ) α2) s2 Q R ↔
      R d s1 d' s2 := by
  refine (jointly_pure _ _).trans ⟨fun h => ?_, fun h => .error h⟩
  cases h with
  | error hd => exact hd

@[simp] theorem concurs_lift (step1 : EStateM ε σ α1) (step2 : EStateM ε σ α2) :
    Concurs (liftM step1 : ExceptT δ (EStateM ε σ) α1) s1 (liftM step2 : ExceptT δ (EStateM ε σ) α2) s2 Q R ↔
      Jointly step1 s1 step2 s2 Q := by
  unfold Concurs
  change Jointly (Except.ok <$> step1) s1 (Except.ok <$> step2) s2 _ ↔ _
  rw [map_eq_pure_bind, map_eq_pure_bind, jointly_bind]
  simp only [jointly_pure]
  exact ⟨fun h => h.mono fun _ _ _ _ hr => hr.rel rfl rfl, fun h => h.mono fun _ _ _ _ hq => .ok hq⟩

@[simp] theorem concurs_get (Q : σ → σ → σ → σ → Prop) :
    Concurs (get : ExceptT δ (EStateM ε σ) σ) s1 get s2 Q R ↔ Q s1 s1 s2 s2 :=
  (concurs_lift get get).trans (jointly_get Q)

end Concurs

/-! ## Steps of lowering -/

namespace Lowering

variable {α1 α2 : Type} {s1 s2 : State} {cfg1 cfg2 : Settings} {file1 file2 : FileId}

@[simp] theorem jointly_onTyping (act1 : TypingM α1) (act2 : TypingM α2) (Q : α1 → State → α2 → State → Prop) :
    Jointly (onTyping act1) s1 (onTyping act2) s2 Q ↔
      Jointly act1 s1.typing act2 s2.typing fun a st b st' => Q a (s1.withTyping st) b (s2.withTyping st') := by
  simp [Jointly]

@[simp] theorem jointly_ask (f1 : Context → Except Fault α1) (f2 : Context → Except Fault α2)
    (Q : α1 → State → α2 → State → Prop) :
    Jointly (ask f1) s1 (ask f2) s2 Q ↔
      ∀ a, f1 s1.context = .ok a → ∀ b, f2 s2.context = .ok b → Q a s1 b s2 := by
  simp [Jointly]

theorem jointly_checking {act1 : Env → CheckM α1} {act2 : Env → CheckM α2}
    {Q : Except Diagnostic α1 → State → Except Diagnostic α2 → State → Prop}
    (h : Concurs (act1 (s1.env cfg1.gate file1)) s1.typing (act2 (s2.env cfg2.gate file2)) s2.typing
      (fun a st b st' => Q (.ok a) (s1.withTyping st) (.ok b) (s2.withTyping st'))
      (fun d st d' st' => Q (.error d) (s1.withTyping st) (.error d') (s2.withTyping st'))) :
    Jointly (checking cfg1 file1 act1) s1 (checking cfg2 file2 act2) s2 Q := by
  simp only [checking, jointly_bind, jointly_get, jointly_onTyping]
  refine Jointly.mono h fun r st r' st' hr => ?_
  cases hr with
  | ok hq => exact hq
  | error hd => exact hd

theorem concurs_checked {act1 : Env → CheckM α1} {act2 : Env → CheckM α2} {Q : α1 → State → α2 → State → Prop}
    {R : Diagnostic → State → Diagnostic → State → Prop}
    (h : Concurs (act1 (s1.env cfg1.gate file1)) s1.typing (act2 (s2.env cfg2.gate file2)) s2.typing
      (fun a st b st' => Q a (s1.withTyping st) b (s2.withTyping st'))
      (fun d st d' st' => R d (s1.withTyping st) d' (s2.withTyping st'))) :
    Concurs (checked cfg1 file1 act1) s1 (checked cfg2 file2 act2) s2 Q R :=
  jointly_checking (h.mono (fun _ _ _ _ hq => .ok hq) fun _ _ _ _ hr => .error hr)

@[simp] theorem jointly_setContext (f1 f2 : Context → Context) (Q : PUnit → State → PUnit → State → Prop) :
    Jointly (setContext f1) s1 (setContext f2) s2 Q ↔
      Q ⟨⟩ { s1 with context := f1 s1.context } ⟨⟩ { s2 with context := f2 s2.context } := by
  simp [Jointly]

@[simp] theorem jointly_newBlock (Q : BlockId → State → BlockId → State → Prop) :
    Jointly newBlock s1 newBlock s2 Q ↔ Q s1.blocks.next s1.addBlock s2.blocks.next s2.addBlock := by
  simp [Jointly]

@[simp] theorem jointly_pushScope (Q : PUnit → State → PUnit → State → Prop) :
    Jointly pushScope s1 pushScope s2 Q ↔ Q ⟨⟩ s1.enter ⟨⟩ s2.enter := by
  simp [Jointly]

@[simp] theorem jointly_report (d1 d2 : Diagnostic) (Q : PUnit → State → PUnit → State → Prop) :
    Jointly (report cfg1 d1) s1 (report cfg2 d2) s2 Q ↔ Q ⟨⟩ (s1.reported cfg1 d1) ⟨⟩ (s2.reported cfg2 d2) := by
  simp [Jointly]

end Lowering

end BlockCompiler
