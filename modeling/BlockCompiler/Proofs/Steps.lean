/-
  BlockCompiler.Proofs.Steps — what a step does, as a predicate.

  A step on a state gives a result or stops at a fault. `Ends act s Q`: taken in the state
  `s`, the step does not stop, and `Q` holds of its result and of the state it leaves.
  `Judges act s Q R`: the same for a step that may also reject with a diagnostic; `Q` holds
  where it gives a result, `R` where it rejects.

  Both follow the step's own structure: what is bound is dealt with first (`ends_bind`,
  `judges_bind`). A step is a function of the state, so what holds of a step that ended can
  be read off its result (`Ends.result`).
-/
import BlockCompiler.Lowering.Module

namespace BlockCompiler

/-! ## Steps that give a result -/

section Ends

variable {ε σ α β : Type}

def Ends (act : EStateM ε σ α) (s : σ) (Q : α → σ → Prop) : Prop :=
  ∃ a s', act s = .ok a s' ∧ Q a s'

variable {act : EStateM ε σ α} {s s' : σ} {Q Q' : α → σ → Prop}

theorem Ends.mono (h : Ends act s Q) (hQ : ∀ a s', Q a s' → Q' a s') : Ends act s Q' := by
  obtain ⟨a, s', he, hq⟩ := h
  exact ⟨a, s', he, hQ a s' hq⟩

theorem Ends.result {a : α} (h : Ends act s Q) (he : act s = .ok a s') : Q a s' := by
  obtain ⟨a', t, he', hq⟩ := h
  rw [he] at he'
  cases he'
  exact hq

/-- The result is the one that the step gives. -/
theorem Ends.traced (h : Ends act s Q) : Ends act s fun a s' => act s = .ok a s' ∧ Q a s' := by
  obtain ⟨a, s', he, hq⟩ := h
  exact ⟨a, s', he, he, hq⟩

theorem ends_iff_of_eq {a : α} (he : act s = .ok a s') : Ends act s Q ↔ Q a s' :=
  ⟨fun h => h.result he, fun h => ⟨a, s', he, h⟩⟩

theorem not_ends_of_error {e : ε} (he : act s = .error e s') : ¬ Ends act s Q := by
  rintro ⟨a, t, ha, -⟩
  rw [he] at ha
  cases ha

/-- A step can be run to see how it ends. -/
instance [∀ a s', Decidable (Q a s')] : Decidable (Ends act s Q) :=
  match h : act s with
  | .ok a s' => decidable_of_iff (Q a s') (ends_iff_of_eq h).symm
  | .error _ _ => isFalse (not_ends_of_error h)

theorem run_bind_ok {a : α} (he : act s = .ok a s') (f : α → EStateM ε σ β) : (act >>= f) s = f a s' := by
  change EStateM.bind act f s = _
  simp only [EStateM.bind, he]

theorem run_bind_error {e : ε} (he : act s = .error e s') (f : α → EStateM ε σ β) : (act >>= f) s = .error e s' := by
  change EStateM.bind act f s = _
  simp only [EStateM.bind, he]

@[simp] theorem ends_bind (f : α → EStateM ε σ β) (Q : β → σ → Prop) :
    Ends (act >>= f) s Q ↔ Ends act s fun a s' => Ends (f a) s' Q := by
  cases he : act s with
  | ok a t => rw [ends_iff_of_eq he, Ends, Ends, run_bind_ok he]
  | error e t => exact iff_of_false (not_ends_of_error (run_bind_error he f)) (not_ends_of_error he)

@[simp] theorem ends_pure (a : α) : Ends (pure a : EStateM ε σ α) s Q ↔ Q a s :=
  ends_iff_of_eq rfl

@[simp] theorem ends_map (f : α → β) (Q : β → σ → Prop) :
    Ends (f <$> act) s Q ↔ Ends act s fun a s' => Q (f a) s' := by
  rw [map_eq_pure_bind, ends_bind]
  simp only [ends_pure]

@[simp] theorem ends_get (Q : σ → σ → Prop) : Ends (get : EStateM ε σ σ) s Q ↔ Q s s :=
  ends_iff_of_eq rfl

@[simp] theorem ends_modify (f : σ → σ) (Q : PUnit → σ → Prop) :
    Ends (modify f : EStateM ε σ PUnit) s Q ↔ Q ⟨⟩ (f s) :=
  ends_iff_of_eq rfl

@[simp] theorem ends_modifyGet (f : σ → α × σ) :
    Ends (modifyGet f : EStateM ε σ α) s Q ↔ Q (f s).1 (f s).2 :=
  ends_iff_of_eq rfl

@[simp] theorem ends_throw (e : ε) : ¬ Ends (throw e : EStateM ε σ α) s Q := by
  rintro ⟨a, t, he, -⟩
  cases he

@[simp] theorem ends_ofExcept (r : Except ε α) :
    Ends (ofExcept r : EStateM ε σ α) s Q ↔ ∃ a, r = .ok a ∧ Q a s := by
  cases r <;> simp [ofExcept]

end Ends

/-! ## Steps that may reject -/

section Judges

variable {ε δ σ α β : Type}

def Judges (act : ExceptT δ (EStateM ε σ) α) (s : σ) (Q : α → σ → Prop) (R : δ → σ → Prop) :
    Prop :=
  Ends act.run s fun r s' =>
    match r with
    | .ok a => Q a s'
    | .error d => R d s'

variable {act : ExceptT δ (EStateM ε σ) α} {s s' : σ} {Q Q' : α → σ → Prop} {R R' : δ → σ → Prop}

theorem Judges.mono (h : Judges act s Q R) (hQ : ∀ a s', Q a s' → Q' a s')
    (hR : ∀ d s', R d s' → R' d s') : Judges act s Q' R' := by
  refine Ends.mono h fun r t hr => ?_
  cases r with
  | ok a => exact hQ a t hr
  | error d => exact hR d t hr

theorem Judges.traced (h : Judges act s Q R) :
    Judges act s (fun a s' => act.run s = .ok (.ok a) s' ∧ Q a s')
      (fun d s' => act.run s = .ok (.error d) s' ∧ R d s') := by
  refine Ends.mono (Ends.traced h) fun r t hr => ?_
  cases r <;> exact hr

@[simp] theorem judges_bind (f : α → ExceptT δ (EStateM ε σ) β) (Q : β → σ → Prop) :
    Judges (act >>= f) s Q R ↔ Judges act s (fun a s' => Judges (f a) s' Q R) R := by
  unfold Judges
  rw [ExceptT.run_bind, ends_bind]
  refine iff_of_eq (congrArg _ ?_)
  funext r t
  cases r <;> simp

theorem Judges.then {f : α → ExceptT δ (EStateM ε σ) β} {Q' : β → σ → Prop} (h : Judges act s Q R)
    (hf : ∀ a s', Q a s' → Judges (f a) s' Q' R) : Judges (act >>= f) s Q' R :=
  (judges_bind f Q').mpr (h.mono hf fun _ _ h => h)

@[simp] theorem judges_pure (a : α) :
    Judges (pure a : ExceptT δ (EStateM ε σ) α) s Q R ↔ Q a s := ends_pure _

@[simp] theorem judges_throw (d : δ) :
    Judges (throw d : ExceptT δ (EStateM ε σ) α) s Q R ↔ R d s := ends_pure _

@[simp] theorem judges_map (f : α → β) (Q : β → σ → Prop) :
    Judges (f <$> act) s Q R ↔ Judges act s (fun a s' => Q (f a) s') R := by
  rw [map_eq_pure_bind, judges_bind]
  simp

@[simp] theorem judges_lift (step : EStateM ε σ α) :
    Judges (liftM step : ExceptT δ (EStateM ε σ) α) s Q R ↔ Ends step s Q := by
  unfold Judges
  change Ends (Except.ok <$> step) s _ ↔ _
  rw [ends_map]

@[simp] theorem judges_get (Q : σ → σ → Prop) :
    Judges (get : ExceptT δ (EStateM ε σ) σ) s Q R ↔ Q s s := by
  change Judges (liftM (get : EStateM ε σ σ)) s Q R ↔ _
  rw [judges_lift, ends_get]

@[simp] theorem judges_modify (f : σ → σ) (Q : PUnit → σ → Prop) :
    Judges (modify f : ExceptT δ (EStateM ε σ) PUnit) s Q R ↔ Q ⟨⟩ (f s) := by
  change Judges (liftM (modify f : EStateM ε σ PUnit)) s Q R ↔ _
  rw [judges_lift, ends_modify]

@[simp] theorem judges_exceptLift (step : EStateM ε σ α) :
    Judges (ExceptT.lift step : ExceptT δ (EStateM ε σ) α) s Q R ↔ Ends step s Q :=
  judges_lift step

end Judges

/-! ## Results without a state -/

section Results

variable {ε α β : Type}

theorem bind_eq_of_ok {x : Except ε α} {k : α → Except ε β} {a : α} (hx : x = .ok a) : x >>= k = k a := by
  rw [hx]
  rfl

theorem bind_ok {x : Except ε α} {k : α → Except ε β} {a : α} {b : β} (hx : x = .ok a) (hk : k a = .ok b) :
    x >>= k = .ok b := (bind_eq_of_ok hx).trans hk

theorem bind_eq_ok {x : Except ε α} {k : α → Except ε β} {b : β} : x >>= k = .ok b ↔ ∃ a, x = .ok a ∧ k a = .ok b := by
  constructor
  · intro h
    cases x with
    | error e => cases h
    | ok a => exact ⟨a, rfl, h⟩
  · rintro ⟨a, hx, hk⟩
    exact bind_ok hx hk

theorem andThen_eq_ok {x : Except ε Unit} {y : Except ε β} {b : β} : (do x; y) = .ok b ↔ x = .ok () ∧ y = .ok b := by
  rw [bind_eq_ok]
  exact ⟨fun ⟨_, h⟩ => h, fun h => ⟨_, h⟩⟩

theorem exists_bind_ok {x : Except ε α} {k : α → Except ε β} {a : α} (hx : x = .ok a) (hk : ∃ b, k a = .ok b) :
    ∃ b, x >>= k = .ok b := by
  obtain ⟨b, hb⟩ := hk
  exact ⟨b, bind_ok hx hb⟩

theorem bind_ok_of {x : Except ε α} {k : α → Except ε β} (hx : ∃ a, x = .ok a) (hk : ∀ a, ∃ b, k a = .ok b) :
    ∃ b, x >>= k = .ok b := by
  obtain ⟨a, ha⟩ := hx
  exact exists_bind_ok ha (hk a)

theorem exists_mapM_ok {f : α → Except ε β} :
    ∀ l : List α, (∀ x ∈ l, ∃ y, f x = .ok y) → ∃ ys, l.mapM f = .ok ys
  | [], _ => ⟨[], rfl⟩
  | x :: l, h => by
    obtain ⟨y, hy⟩ := h x (.head _)
    obtain ⟨ys, hys⟩ := exists_mapM_ok l fun z hz => h z (.tail _ hz)
    exact ⟨y :: ys, by rw [List.mapM_cons, hy, hys]; rfl⟩

theorem forM_ok {f : α → Except ε PUnit} :
    ∀ l : List α, (∀ x ∈ l, f x = .ok ⟨⟩) → l.forM f = .ok ⟨⟩
  | [], _ => rfl
  | x :: l, h => by
    rw [List.forM_eq_forM, List.forM_cons, h x List.mem_cons_self]
    exact forM_ok l fun z hz => h z (.tail _ hz)

theorem ok_of_forM {f : α → Except ε Unit} : ∀ {l : List α}, l.forM f = .ok () → ∀ x ∈ l, f x = .ok ()
  | y :: rest, h, x, hx => by
    rw [List.forM_eq_forM, List.forM_cons] at h
    obtain ⟨hy, hrest⟩ := andThen_eq_ok.mp h
    rcases List.mem_cons.mp hx with rfl | hx
    · exact hy
    · exact ok_of_forM hrest x hx

theorem forM_eq_ok {f : α → Except ε Unit} {l : List α} : l.forM f = .ok () ↔ ∀ x ∈ l, f x = .ok () :=
  ⟨ok_of_forM, forM_ok l⟩

theorem exists_foldlM_ok {f : β → α → Except ε β} :
    ∀ l : List α, (∀ b, ∀ x ∈ l, ∃ c, f b x = .ok c) → ∀ b, ∃ c, l.foldlM f b = .ok c
  | [], _, b => ⟨b, rfl⟩
  | x :: l, h, b => by
    obtain ⟨c, hc⟩ := h b x (.head _)
    rw [List.foldlM_cons, hc]
    exact exists_foldlM_ok l (fun b z hz => h b z (.tail _ hz)) c

end Results

end BlockCompiler
