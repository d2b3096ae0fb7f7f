/-
  BlockCompiler.Proofs.Keeping — what holds whatever the outcome of a step.

  A step that rejects the program, or stops at a fault, keeps what it did before. So what is said
  of the states that steps leave must hold of every outcome. `Keeps I act Q`: the step keeps the
  invariant `I` however it ends, and a result satisfies `Q`.

  (1) `Keeps` follows the structure of a step, as `Ends` and `Whenever` do.
  (2) Type checking adds compound types and logs messages, and a sum that it adds lists a type once.
      So annotations and expressions keep every invariant of types that allows for this
      (`Typing.Takes`). The values that they give read variables in force, and no argument and no
      payload (`Value.Plain`).
-/
import BlockCompiler.Proofs.Reading

namespace BlockCompiler

open Surface

variable {d : Diagnostic} {α : Type}

/-! ## (1) Invariants of steps -/

/-- It is about a part of a body, not about a function that lacks a return. -/
def Diagnostic.Inner (d : Diagnostic) : Prop := d.code ≠ Code.missingReturn

/-- It has exactly one primary label. -/
def Diagnostic.Pointed (d : Diagnostic) : Prop := d.labels.countP Label.isPrimary = 1

/-- An error about a part of a body. -/
structure Diagnostic.IsRejection (d : Diagnostic) : Prop where
  isError : d.isError = true
  inner : d.Inner
  pointed : d.Pointed

namespace Diagnostic.IsRejection

theorem error {code : String} (h : code ≠ Code.missingReturn) {message : String} {labels : List Label}
    (hlabels : labels.countP Label.isPrimary = 1) : (Diagnostic.error code message labels).IsRejection := ⟨rfl, h, hlabels⟩

theorem withHelp (h : d.IsRejection) (text : String) : (d.withHelp text).IsRejection :=
  ⟨h.isError, h.inner, h.pointed⟩

theorem withLabel (h : d.IsRejection) {label : Label} (hlabel : label.isPrimary = false) :
    (d.withLabel label).IsRejection := by
  refine ⟨h.isError, h.inner, ?_⟩
  have hone : d.labels.countP Label.isPrimary = 1 := h.pointed
  simp [Diagnostic.Pointed, Diagnostic.withLabel, List.countP_append, hone, hlabel]

theorem suggesting (h : d.IsRejection) (lead : String) (name : Option String) :
    (Lowering.suggesting d lead name).IsRejection := by
  cases name with
  | none => exact h
  | some name =>
    simp only [Lowering.suggesting]
    split
    · exact h
    · exact h.withHelp _

end Diagnostic.IsRejection

section Keeps

variable {ε σ α β : Type}

/-- Says nothing. -/
def Any (_ : α) : Prop := True

def Keeps (I : σ → Prop) (act : EStateM ε σ α) (Q : α → Prop) : Prop :=
  ∀ s, I s → match act s with
    | .ok a s' => I s' ∧ Q a
    | .error _ s' => I s'

/-- A result that satisfies `Q`, or an error about a part of a body. -/
def Concludes (Q : α → Prop) : Except Diagnostic α → Prop
  | .ok a => Q a
  | .error d => d.IsRejection

/-- The same for a step that may reject a part of a body. -/
def KeepsT (I : σ → Prop) (act : ExceptT Diagnostic (EStateM ε σ) α) (Q : α → Prop) : Prop :=
  Keeps I act.run (Concludes Q)

variable {I : σ → Prop} {Q Q' : α → Prop}

namespace Keeps

variable {act : EStateM ε σ α}

theorem mono (h : Keeps I act Q) (hQ : ∀ a, Q a → Q' a) : Keeps I act Q' := by
  intro s hs
  have hact := h s hs
  cases hr : act s with
  | ok a s' =>
    rw [hr] at hact
    exact ⟨hact.1, hQ a hact.2⟩
  | error e s' =>
    rw [hr] at hact
    exact hact

theorem any (h : Keeps I act Q) : Keeps I act Any := h.mono fun _ _ => trivial

theorem whenever {s : σ} (h : Keeps I act Q) (hs : I s) : Whenever act s fun a s' => I s' ∧ Q a := by
  intro a s' he
  have hact := h s hs
  rw [he] at hact
  exact hact

theorem bind (h : Keeps I act Q) {f : α → EStateM ε σ β} {Q' : β → Prop} (hf : ∀ a, Q a → Keeps I (f a) Q') :
    Keeps I (act >>= f) Q' := by
  intro s hs
  have hact := h s hs
  change match EStateM.bind act f s with
    | .ok a s' => I s' ∧ Q' a
    | .error _ s' => I s'
  unfold EStateM.bind
  cases hr : act s with
  | ok a s' =>
    rw [hr] at hact
    exact hf a hact.2 s' hact.1
  | error e s' =>
    rw [hr] at hact
    exact hact

end Keeps

theorem keeps_pure {a : α} (h : Q a) : Keeps I (pure a : EStateM ε σ α) Q := fun _ hs => ⟨hs, h⟩

theorem Keeps.discard {act : EStateM ε σ α} (h : Keeps I act Q) {f : α → β} : Keeps I (act >>= fun a => pure (f a)) Any :=
  h.bind fun _ _ => keeps_pure trivial

theorem keeps_throw (e : ε) : Keeps I (throw e : EStateM ε σ α) Q := fun _ hs => hs

theorem keeps_get : Keeps I (get : EStateM ε σ σ) I := fun _ hs => ⟨hs, hs⟩

theorem keeps_modify {f : σ → σ} (h : ∀ s, I s → I (f s)) : Keeps I (modify f : EStateM ε σ PUnit) Any :=
  fun s hs => ⟨h s hs, trivial⟩

theorem keeps_modifyGet {f : σ → α × σ} (h : ∀ s, I s → I (f s).2) : Keeps I (modifyGet f : EStateM ε σ α) Any :=
  fun s hs => ⟨h s hs, trivial⟩

theorem keeps_ofExcept (r : Except ε α) : Keeps I (ofExcept r : EStateM ε σ α) fun a => r = .ok a := by
  intro s hs
  cases r with
  | ok a => exact ⟨hs, rfl⟩
  | error e => exact hs

namespace KeepsT

variable {act : ExceptT Diagnostic (EStateM ε σ) α}

theorem bind (h : KeepsT I act Q) {f : α → ExceptT Diagnostic (EStateM ε σ) β} {Q' : β → Prop}
    (hf : ∀ a, Q a → KeepsT I (f a) Q') : KeepsT I (act >>= f) Q' := by
  unfold KeepsT
  rw [ExceptT.run_bind]
  refine Keeps.bind h fun r hr => ?_
  cases r with
  | ok a => exact hf a hr
  | error d => exact keeps_pure hr

theorem map (h : KeepsT I act Q) {f : α → β} {Q' : β → Prop} (hf : ∀ a, Q a → Q' (f a)) : KeepsT I (f <$> act) Q' := by
  rw [map_eq_pure_bind]
  exact h.bind fun a ha => keeps_pure (Q := Concludes Q') (hf a ha)

theorem mono (h : KeepsT I act Q) (hQ : ∀ a, Q a → Q' a) : KeepsT I act Q' :=
  Keeps.mono h fun r hr => by
    cases r with
    | ok a => exact hQ a hr
    | error d => exact hr

/-- What a step keeps holds of the state that it leaves, also if it rejects. -/
theorem answers {s : σ} (h : KeepsT I act Q) (hs : I s) :
    Answers act s (fun a s' => I s' ∧ Q a) fun d s' => I s' ∧ d.IsRejection := by
  intro r s' he
  have hact := h s hs
  rw [he] at hact
  cases r with
  | ok a => exact hact
  | error d => exact hact

end KeepsT

theorem keepsT_pure {a : α} (h : Q a) : KeepsT I (pure a : ExceptT Diagnostic (EStateM ε σ) α) Q :=
  keeps_pure (Q := Concludes Q) h

theorem KeepsT.discard {act : ExceptT Diagnostic (EStateM ε σ) α} (h : KeepsT I act Q) {f : α → β} :
    KeepsT I (act >>= fun a => pure (f a)) Any := h.bind fun _ _ => keepsT_pure trivial

theorem keepsT_throw (h : d.IsRejection) : KeepsT I (throw d : ExceptT Diagnostic (EStateM ε σ) α) Q :=
  keeps_pure (Q := Concludes Q) h

theorem keepsT_lift {step : EStateM ε σ α} (h : Keeps I step Q) :
    KeepsT I (liftM step : ExceptT Diagnostic (EStateM ε σ) α) Q := by
  have hrun : (liftM step : ExceptT Diagnostic (EStateM ε σ) α).run = Except.ok <$> step := rfl
  unfold KeepsT
  rw [hrun, map_eq_pure_bind]
  exact h.bind fun a ha => keeps_pure (Q := Concludes Q) ha

theorem keepsT_get : KeepsT I (get : ExceptT Diagnostic (EStateM ε σ) σ) I := by
  have hget : Keeps I (get : EStateM ε σ σ) I := keeps_get
  exact keepsT_lift hget

end Keeps

/-! ## (2) Type checking -/

/-- Types that are made of others; aliases apart. -/
def Ty.isCompound : Ty → Bool
  | ptr _ | array _ _ | struct _ | sum _ | func _ => true
  | _ => false

/-- An invariant of types that steps of type checking keep. -/
structure Typing.Takes (J : Typing → Prop) : Prop where
  add : ∀ {st ty}, J st → ty.isCompound = true → (∀ variants, ty = .sum variants → variants.Nodup) →
    J { st with types := (st.types.insert ty).2 }
  note : ∀ {st} (journal : Log.Journal), J st → J { st with journal }

/-- One that declaring and defining aliases keep as well. -/
structure Typing.Admits (N : String → Prop) (J : Typing → Prop) : Prop extends Typing.Takes J where
  declare : ∀ {st name}, J st → N name → J { st with types := (st.types.insert (.named name TypeId.invalid)).2 }
  define : ∀ {st id underlying t}, J st → st.types.defineAlias id underlying = .ok t → J { st with types := t }

section Checking

set_option linter.unusedSectionVars false

variable {J : Typing → Prop} (hJ : Typing.Takes J)

theorem keeps_typingAsk (f : TypeTable → Except Fault α) : Keeps J (Typing.ask f) Any :=
  keeps_get.bind fun st _ => (keeps_ofExcept (f st.types)).any

theorem keepsT_checkAsk (f : TypeTable → Except Fault α) : KeepsT J (Check.ask f) Any :=
  keepsT_lift (keeps_typingAsk f)

theorem keepsT_checkSettle (r : Except Fault α) : KeepsT J (Check.settle r) fun a => r = .ok a :=
  keepsT_lift (keeps_ofExcept r)

theorem keepsT_ask (f : TypeTable → Except Fault α) : KeepsT J (liftM (Typing.ask f) : CheckM α) Any :=
  keepsT_lift (keeps_typingAsk f)

include hJ

theorem keeps_intern {ty : Ty} (h : ty.isCompound = true) (hsum : ∀ variants, ty = .sum variants → variants.Nodup) :
    Keeps J (Typing.intern ty) Any := keeps_modifyGet fun _ hs => hJ.add hs h hsum

theorem keeps_typingNote (gate : Log.Gate) (level : Log.Level) (area text : String) :
    Keeps J (Typing.note gate level area text) Any := keeps_modify fun _ hs => hJ.note _ hs

namespace Annotation

mutual

theorem keepsT_resolve (file : FileId) : ∀ ty : TypeExpr, KeepsT J (resolve file ty) Any
  | .int _ _ | .float _ _ | .bool _ | .unit _ => by
    simp only [resolve]
    exact keepsT_pure trivial
  | .ptr part _ | .array part _ _ => by
    simp only [resolve]
    exact (keepsT_resolve file part).bind fun _ _ => keepsT_lift (keeps_intern hJ rfl (by simp))
  | .struct fields _ => by
    simp only [resolve]
    exact (keepsT_resolveFields file fields []).bind fun _ _ => keepsT_lift (keeps_intern hJ rfl (by simp))
  | .sum variants _ => by
    simp only [resolve]
    refine (keepsT_resolveVariants file variants [] List.nodup_nil).bind fun ids hids => ?_
    refine keepsT_lift (keeps_intern hJ rfl fun variants heq => ?_)
    cases heq
    exact hids
  | .func params result _ => by
    simp only [resolve]
    exact (keepsT_resolve file result).bind fun _ _ => (keepsT_resolveParams file params).bind fun _ _ =>
      keepsT_lift (keeps_intern hJ rfl (by simp))
  | .named name _ => by
    simp only [resolve]
    refine keepsT_get.bind fun st _ => ?_
    split
    · exact keepsT_pure trivial
    · exact keepsT_throw (.error (by decide) rfl)

theorem keepsT_resolveFields (file : FileId) : ∀ (fields : List (TypeExpr × String)) (earlier : List Field),
    KeepsT J (resolveFields file earlier fields) Any
  | [], _ => by
    simp only [resolveFields]
    exact keepsT_pure trivial
  | (ty, name) :: rest, earlier => by
    simp only [resolveFields]
    refine (keepsT_resolve file ty).bind fun id _ => ?_
    split
    · exact keepsT_throw (.error (by decide) rfl)
    · exact keepsT_resolveFields file rest _

/-- A type is listed once. -/
theorem keepsT_resolveVariants (file : FileId) : ∀ (variants : List TypeExpr) (earlier : List TypeId), earlier.Nodup →
    KeepsT J (resolveVariants file earlier variants) List.Nodup
  | [], _, hearlier => by
    simp only [resolveVariants]
    exact keepsT_pure hearlier
  | ty :: rest, earlier, hearlier => by
    simp only [resolveVariants]
    refine (keepsT_resolve file ty).bind fun id _ => ?_
    split
    · exact (keepsT_ask _).bind fun _ _ => keepsT_throw (.error (by decide) rfl)
    · rename_i hnew
      have hnodup : (earlier ++ [id]).Nodup :=
        List.Nodup.append hearlier (List.nodup_singleton id) (by simpa using hnew)
      exact keepsT_resolveVariants file rest _ hnodup

/-- Parameters get the names that they are given. -/
theorem keepsT_resolveParams (file : FileId) : ∀ params : List (TypeExpr × Option String),
    KeepsT J (resolveParams file params) fun ps => ps.map (·.name) = params.map (·.2)
  | [] => by
    simp only [resolveParams]
    exact keepsT_pure rfl
  | (ty, name) :: rest => by
    simp only [resolveParams]
    refine (keepsT_resolve file ty).bind fun id _ => (keepsT_resolveParams file rest).bind fun ps hps => keepsT_pure ?_
    simp only [List.map_cons, hps]

end

end Annotation

namespace Lowering

variable {env : Env}

theorem keepsT_access (name : String) (span : Span) : KeepsT J (access env name span) (Value.Plain env.Sees) := by
  unfold access
  split
  · rename_i x hx
    exact (keepsT_checkSettle _).bind fun _ _ => keepsT_pure (.leaf rfl ⟨name, hx⟩)
  · split
    · exact (keepsT_checkSettle _).bind fun _ _ => (keepsT_lift (keeps_intern hJ rfl (by simp))).bind fun _ _ =>
        keepsT_pure (.leaf rfl trivial)
    · exact keepsT_throw (.suggesting (.error (by decide) rfl) _ _)

theorem keepsT_typedBinary {lhs rhs : Value} (hl : lhs.Plain env.Sees) (hr : rhs.Plain env.Sees) (op : Operator) :
    KeepsT J (typedBinary env lhs op rhs) (Value.Plain env.Sees) := by
  unfold typedBinary
  simp only []
  split
  · exact keepsT_pure (Value.plain_binary hl hr)
  · refine (keepsT_ask _).bind fun l _ => (keepsT_ask _).bind fun r _ => ?_
    split
    · exact keepsT_pure (Value.plain_binary hl hr)
    · exact (keepsT_ask _).bind fun _ _ => (keepsT_ask _).bind fun _ _ =>
        (keepsT_lift (keeps_typingNote hJ _ _ _ _)).bind fun _ _ => keepsT_throw (.error (by decide) rfl)

theorem keepsT_typedUnary {operand : Value} (h : operand.Plain env.Sees) (op : Operator) :
    KeepsT J (typedUnary env op operand) (Value.Plain env.Sees) := by
  unfold typedUnary
  split
  · exact keepsT_pure (.above rfl trivial h)
  · refine (keepsT_ask _).bind fun t _ => ?_
    split
    · exact keepsT_pure (.above rfl trivial h)
    · exact (keepsT_lift (keeps_intern hJ rfl (by simp))).bind fun _ _ => keepsT_pure (.above rfl trivial h)
    · exact (keepsT_ask _).bind fun _ _ => (keepsT_lift (keeps_typingNote hJ _ _ _ _)).bind fun _ _ =>
        keepsT_throw (.error (by decide) rfl)

omit hJ in
theorem keepsT_typedCast {operand : Value} (h : operand.Plain env.Sees) (target : TypeId) (span : Span) :
    KeepsT J (typedCast env operand target span) (Value.Plain env.Sees) := by
  unfold typedCast
  split
  · exact keepsT_pure (.above rfl trivial h)
  · refine (keepsT_checkAsk _).bind fun variant _ => ?_
    split
    · exact keepsT_pure (.above rfl trivial h)
    · refine (keepsT_checkAsk _).bind fun allowed _ => ?_
      split
      · exact keepsT_pure (.above rfl trivial h)
      · exact (keepsT_ask _).bind fun _ _ => (keepsT_ask _).bind fun _ _ => keepsT_throw (.error (by decide) rfl)

omit hJ in
theorem keepsT_typedMember {base : Value} (h : base.Plain env.Sees) (field : String) (span : Span) :
    KeepsT J (typedMember env base field span) (Value.Plain env.Sees) := by
  unfold typedMember
  refine (keepsT_checkAsk _).bind fun id _ => ?_
  split
  · exact keepsT_pure (.above rfl trivial h)
  · refine (keepsT_ask _).bind fun t _ => ?_
    split
    · split
      · exact keepsT_pure (.above rfl trivial h)
      · exact (keepsT_ask _).bind fun _ _ => keepsT_throw (.suggesting (.error (by decide) rfl) _ _)
    · exact (keepsT_ask _).bind fun _ _ => keepsT_throw (.error (by decide) rfl)

omit hJ in
theorem keepsT_typedCall {callee : Value} {args : List Value} (h : callee.Plain env.Sees)
    (hargs : ∀ w ∈ args, w.Plain env.Sees) (span : Span) :
    KeepsT J (typedCall env callee args span) (Value.Plain env.Sees) := by
  unfold typedCall
  split
  · exact keepsT_pure (Value.plain_call h hargs)
  · refine (keepsT_ask _).bind fun t _ => ?_
    split
    · split
      · exact (keepsT_ask _).bind fun _ _ => keepsT_throw (.error (by decide) rfl)
      · split
        · exact keepsT_pure (Value.plain_call h hargs)
        · exact (keepsT_ask _).bind fun _ _ => (keepsT_ask _).bind fun _ _ => keepsT_throw (.error (by decide) rfl)
    · exact (keepsT_ask _).bind fun _ _ => keepsT_throw (.error (by decide) rfl)

mutual

theorem keepsT_lowerExpr (env : Env) : ∀ e : Expr, KeepsT J (lowerExpr env e) (Value.Plain env.Sees)
  | .int _ _ _ | .float _ _ _ | .bool _ _ | .unit _ => by
    simp only [lowerExpr]
    exact keepsT_pure (.leaf rfl trivial)
  | .name name span => by
    simp only [lowerExpr]
    exact keepsT_access hJ name span
  | .binary lhs op rhs _ => by
    simp only [lowerExpr]
    exact (keepsT_lowerExpr env lhs).bind fun _ hl => (keepsT_lowerExpr env rhs).bind fun _ hr =>
      keepsT_typedBinary hJ hl hr op
  | .unary op operand _ => by
    simp only [lowerExpr]
    exact (keepsT_lowerExpr env operand).bind fun _ h => keepsT_typedUnary hJ h op
  | .cast operand target span => by
    simp only [lowerExpr]
    exact (keepsT_lowerExpr env operand).bind fun _ h => ( Annotation.keepsT_resolve hJ _ target).bind fun _ _ =>
      keepsT_typedCast h _ span
  | .member base field span => by
    simp only [lowerExpr]
    exact (keepsT_lowerExpr env base).bind fun _ h => keepsT_typedMember h field span
  | .call callee args span => by
    simp only [lowerExpr]
    exact (keepsT_lowerExpr env callee).bind fun _ h => (keepsT_lowerArgs env args).bind fun _ hargs =>
      keepsT_typedCall h hargs span

theorem keepsT_lowerArgs (env : Env) : ∀ args : List Expr,
    KeepsT J (lowerArgs env args) fun vs => ∀ v ∈ vs, v.Plain env.Sees
  | [] => by
    simp only [lowerArgs]
    exact keepsT_pure (by simp)
  | e :: rest => by
    simp only [lowerArgs]
    refine (keepsT_lowerExpr env e).bind fun v hv => (keepsT_lowerArgs env rest).bind fun vs hvs => keepsT_pure ?_
    exact List.forall_mem_cons.mpr ⟨hv, hvs⟩

end

end Lowering

end Checking

/-! ### Aliases -/

section Aliases

variable {N : String → Prop} {J : Typing → Prop} (hJ : Typing.Admits N J)
include hJ

theorem keeps_typingDeclare (gate : Log.Gate) {name : String} (h : N name) :
    Keeps J (Typing.declareAlias gate name) Any := by
  have hintern : Keeps J (Typing.intern (.named name .invalid)) Any := keeps_modifyGet fun _ hs => hJ.declare hs h
  exact hintern.bind fun _ _ => (keeps_typingNote hJ.toTakes _ _ _ _).discard

theorem keeps_typingDefine (id underlying : TypeId) : Keeps J (Typing.defineAlias id underlying) Any := by
  intro st hst
  have hask : Typing.defineAlias id underlying st = (Typing.settle (st.types.defineAlias id underlying) >>= fun types =>
      modify fun st => { st with types }) st := rfl
  rw [hask]
  cases hd : st.types.defineAlias id underlying with
  | ok t => exact ⟨hJ.define hst hd, trivial⟩
  | error f => exact hst

end Aliases

end BlockCompiler
