/-
  BlockCompiler.Proofs.Development — what lowering can do to a context.

  A context develops when compound types, aliases, variables and functions are added to it, aliases
  are defined, and blocks and bodies change. Nothing else ever happens to it while a program is
  lowered, also where the program is rejected or a step stops at a fault.

  (1) Contexts that develop (`Context.Develops`). The names of aliases, variables and functions come
      from a given set, and so do those of the context that is reached (`Develops.named`).
  (2) Every step of lowering develops its context, with the names that the program introduces
      (`keeps_lowerModule` and its like).
-/
import BlockCompiler.Proofs.Keeping

namespace BlockCompiler

open Surface

variable (cfg : Settings) (file : FileId)

/-! ## (1) Contexts that develop -/

/-- The names of a function: its own and those of its parameters. -/
def Function.names (f : Function) : List String := f.name :: (f.signature.params.map (·.name)).filterMap id

/-- The context comes from another one by additions, by saying what aliases stand for, and by
changes to blocks and bodies. The names of what is added satisfy `N`. -/
inductive Context.Develops (N : String → Prop) (c : Context) : Context → Prop
  | refl : Develops N c c
  | addType {c' : Context} {ty : Ty} : Develops N c c' → ty.isCompound = true →
      (∀ variants, ty = .sum variants → variants.Nodup) → Develops N c { c' with types := (c'.types.insert ty).2 }
  | declareAlias {c' : Context} {name : String} : Develops N c c' → N name →
      Develops N c { c' with types := (c'.types.insert (.named name TypeId.invalid)).2 }
  | defineAlias {c' : Context} {id underlying : TypeId} {t : TypeTable} : Develops N c c' →
      c'.types.defineAlias id underlying = .ok t → Develops N c { c' with types := t }
  | addVar {c' : Context} {ty : TypeId} {name : String} : Develops N c c' → N name →
      Develops N c { c' with vars := c'.vars.insert { ty, name } }
  | addFun {c' : Context} {f : Function} : Develops N c c' → (∀ n ∈ f.names, N n) →
      Develops N c { c' with funs := c'.funs.insert f }
  | setFun {c' : Context} {fn : FunId} {f : Function} : Develops N c c' → (∀ n ∈ f.names, N n) →
      Develops N c { c' with funs := c'.funs.put fn f }
  | setBlocks {c' : Context} (blocks : Arena .block Block) : Develops N c c' → Develops N c { c' with blocks }

namespace Context

variable {N : String → Prop} {c c' : Context}

/-- Names that satisfy `N`, of functions, variables and aliases. -/
structure Named (N : String → Prop) (c : Context) : Prop where
  funs : ∀ fn f, c.funs.get? fn = some f → ∀ n ∈ f.names, N n
  vars : ∀ x v, c.vars.get? x = some v → N v.name
  aliases : ∀ id name u, c.types.get? id = some (.named name u) → N name

theorem Named.of_types (h : c.Named N) {t : TypeTable} (ht : ∀ id name u, t.get? id = some (.named name u) → N name) :
    Named N { c with types := t } := ⟨h.funs, h.vars, ht⟩

theorem Named.of_funs (h : c.Named N) {funs : Arena .function Function} {f : Function} (hf : ∀ n ∈ f.names, N n)
    (hfuns : ∀ fn g, funs.get? fn = some g → g = f ∨ c.funs.get? fn = some g) : Named N { c with funs } := by
  refine ⟨fun fn g hg => ?_, h.vars, h.aliases⟩
  rcases hfuns fn g hg with rfl | hold
  · exact hf
  · exact h.funs fn g hold

theorem Develops.named (h : c.Develops N c') (hc : c.Named N) : c'.Named N := by
  induction h with
  | refl => exact hc
  | @addType c' ty _ hty _ ih =>
    refine ih.of_types fun id name u hget => ?_
    rcases TypeTable.get?_insert_cases hget with hold | ⟨-, rfl⟩
    · exact ih.aliases id name u hold
    · cases hty
  | @declareAlias c' name _ hname ih =>
    refine ih.of_types fun id name' u hget => ?_
    rcases TypeTable.get?_insert_cases hget with hold | ⟨-, heq⟩
    · exact ih.aliases id name' u hold
    · cases heq
      exact hname
  | @defineAlias c' id u t _ hdefine ih =>
    obtain ⟨name, hid, -, hget⟩ := TypeTable.get?_of_defineAlias hdefine
    refine ih.of_types fun id' name' u' h' => ?_
    rw [hget] at h'
    split at h'
    · cases h'
      exact ih.aliases id name _ hid
    · exact ih.aliases id' name' u' h'
  | @addVar c' ty name _ hname ih =>
    refine ⟨ih.funs, fun x v hv => ?_, ih.aliases⟩
    rw [Arena.get?_insert] at hv
    split at hv
    · cases hv
      exact hname
    · exact ih.vars x v hv
  | @addFun c' f _ hf ih =>
    refine ih.of_funs hf fun fn g hg => ?_
    rw [Arena.get?_insert] at hg
    split at hg
    · exact .inl (Option.some.inj hg).symm
    · exact .inr hg
  | @setFun c' fn f _ hf ih =>
    refine ih.of_funs hf fun fn' g hg => ?_
    rw [Arena.get?, Arena.put, Array.getElem?_setIfInBounds] at hg
    split at hg
    · split at hg
      · exact .inl (Option.some.inj hg).symm
      · cases hg
    · exact .inr hg
  | setBlocks _ _ ih => exact ⟨ih.funs, ih.vars, ih.aliases⟩

theorem Develops.distinct (h : c.Develops N c') (hc : c.types.Distinct) : c'.types.Distinct := by
  induction h with
  | refl => exact hc
  | addType _ _ hsum ih => exact ih.insert hsum
  | declareAlias _ _ ih => exact ih.insert (by simp)
  | defineAlias _ hdefine ih => exact ih.defineAlias hdefine
  | addVar _ _ ih | addFun _ _ ih | setFun _ _ ih | setBlocks _ _ ih => exact ih

/-- Other types than compounds and aliases are those of a fresh table. -/
theorem Develops.primitive (h : Develops N {} c) : ∀ id ty, c.types.get? id = some ty →
    ty.isCompound = false → ty.isNamed = false → ty ∈ Ty.primitives := by
  induction h with
  | refl =>
    intro id ty hty _ _
    rw [show ({} : Context).types = TypeTable.fresh from rfl, TypeTable.get?_fresh] at hty
    exact List.mem_of_getElem? hty
  | @addType c' new _ hnew _ ih =>
    intro id ty hty hc hn
    rcases TypeTable.get?_insert_cases hty with hold | ⟨-, rfl⟩
    · exact ih id ty hold hc hn
    · rw [hnew] at hc
      cases hc
  | declareAlias _ _ ih =>
    intro id ty hty hc hn
    rcases TypeTable.get?_insert_cases hty with hold | ⟨-, rfl⟩
    · exact ih id ty hold hc hn
    · cases hn
  | defineAlias _ hdefine ih =>
    obtain ⟨name, hid, -, hget⟩ := TypeTable.get?_of_defineAlias hdefine
    intro id ty hty hc hn
    rw [hget] at hty
    split at hty
    · cases hty
      cases hn
    · exact ih id ty hty hc hn
  | addVar _ _ ih | addFun _ _ ih | setFun _ _ ih | setBlocks _ _ ih => exact ih

end Context

/-! ## (2) Steps of lowering -/

namespace Lowering

variable {α : Type}

mutual

/-- The names of the variables that a statement introduces. -/
def binders : Stmt → List String
  | .letVar name _ _ _ => [name]
  | .ifElse _ thenBody none _ => bindersOf thenBody
  | .ifElse _ thenBody (some elseBody) _ => bindersOf thenBody ++ bindersOf elseBody
  | .whileLoop _ body _ => bindersOf body
  | .matchOn _ arms none _ => armBinders arms
  | .matchOn _ arms (some fallback) _ => armBinders arms ++ bindersOf fallback
  | .block body _ => bindersOf body
  | _ => []

def bindersOf : List Stmt → List String
  | [] => []
  | x :: rest => binders x ++ bindersOf rest

def armBinders : List Arm → List String
  | [] => []
  | ⟨_, binding, body, _⟩ :: rest => binding.toList ++ bindersOf body ++ armBinders rest

end

/-- The names of variables that no program introduces. -/
def reservedNames : List String := ["_", "match"]

section

variable {N : String → Prop} {s₀ : State}

/-- The state comes from `s₀`. -/
structure From (N : String → Prop) (s₀ s : State) : Prop where
  develops : s₀.context.Develops N s.context
  pointed : ∀ d ∈ s.diags, d ∈ s₀.diags ∨ d.Pointed

theorem From.refl (N : String → Prop) (s : State) : From N s s := ⟨.refl, fun _ => .inl⟩

theorem admits_from (s : State) : Typing.Admits N fun st => From N s₀ (s.withTyping st) where
  add h hty hsum := ⟨.addType h.develops hty hsum, h.pointed⟩
  declare h hname := ⟨.declareAlias h.develops hname, h.pointed⟩
  define h hd := ⟨h.develops.defineAlias hd, h.pointed⟩
  note _ h := ⟨h.develops, h.pointed⟩

/-- A name in force stands for the variable, or did before it was hidden. -/
def State.InForce (s : State) (x : VarId) : Prop := ∃ scope ∈ s.scopes, ∃ name, (name, x) ∈ scope

/-- The variable is in force in a state that satisfies `I`. -/
def Seen (I : State → Prop) (x : VarId) : Prop := ∃ s, I s ∧ s.InForce x

/-- A step on types and journal keeps what it keeps with the rest of the state as it is. -/
theorem keeps_onTyping_of {I : State → Prop} {act : TypingM α} {Q : α → Prop}
    (h : ∀ s : State, Keeps (fun st => I (s.withTyping st)) act Q) : Keeps I (onTyping act) Q := by
  intro s hs
  have hact := h s s.typing hs
  unfold onTyping
  cases hr : act s.typing with
  | ok a st =>
    rw [hr] at hact
    exact hact
  | error f st =>
    rw [hr] at hact
    exact hact

theorem ask_of_ok {s : State} {f : Context → Except Fault α} {a : α} (h : f s.context = .ok a) :
    ask f s = .ok a s := by
  change settle (f s.context) s = _
  rw [h]
  rfl

theorem keeps_ask {I : State → Prop} (f : Context → Except Fault α) :
    Keeps I (ask f) fun a => ∃ s, I s ∧ f s.context = .ok a :=
  keeps_get.bind fun s hs => (keeps_ofExcept (f s.context)).mono fun _ ha => ⟨s, hs, ha⟩

end

/-- An invariant of states that type checking keeps. -/
class KeptByChecking (I : State → Prop) : Prop where
  typing : ∀ s : State, Typing.Takes fun st => I (s.withTyping st)

/-- One that building a graph keeps, where the names of the variables satisfy `N`. -/
class KeptByBuilding (N : outParam (String → Prop)) (I : State → Prop) : Prop extends KeptByChecking I where
  scopes : ∀ {s : State} scopes, I s → I { s with scopes }
  addBlock : ∀ {s : State}, I s → I s.addBlock
  addVar : ∀ {s : State} {ty : TypeId} {name : String}, I s → N name → I (s.addVar ty name)
  append : ∀ {s : State} {b : BlockId} {x : BlockStmt}, I s → I (s.append b x)
  close : ∀ {s : State} {b : BlockId} {t : Terminator}, I s → s.IsOpen b → I (s.close b t)

/-- One that reporting diagnostics keeps. -/
class KeptByReporting (I : State → Prop) : Prop extends KeptByChecking I where
  report : ∀ {s : State} diags errors, s.errors ≤ errors → (∀ d ∈ diags, d ∈ s.diags ∨ d.Pointed) → I s →
    I { s with diags, errors }

/-- One that lowering statements keeps. -/
class KeptByLowering (N : outParam (String → Prop)) (I : State → Prop) : Prop extends KeptByBuilding N I, KeptByReporting I

/-- One that lowering definitions of types keeps, where the names of aliases satisfy `N`. -/
class KeptByDefining (N : outParam (String → Prop)) (I : State → Prop) : Prop extends KeptByReporting I where
  aliases : ∀ s : State, Typing.Admits N fun st => I (s.withTyping st)

instance (N : String → Prop) (s₀ : State) : KeptByLowering N (From N s₀) where
  typing s := (admits_from s).toTakes
  scopes _ h := ⟨h.develops, h.pointed⟩
  addBlock h := ⟨.setBlocks _ h.develops, h.pointed⟩
  addVar h hname := ⟨.addVar h.develops hname, h.pointed⟩
  append h := ⟨.setBlocks _ h.develops, h.pointed⟩
  close h _ := ⟨.setBlocks _ h.develops, h.pointed⟩
  report _ _ _ hnew h := ⟨h.develops, fun d hd => (hnew d hd).elim (h.pointed d) .inr⟩

instance (N : String → Prop) (s₀ : State) : KeptByDefining N (From N s₀) where
  aliases := admits_from

/-! ### Checks -/

section Checks

variable {I : State → Prop} [hI : KeptByChecking I]
include hI

theorem keeps_lent {act : TypingM α} {Q : α → Prop} (h : ∀ J, Typing.Takes J → Keeps J act Q) :
    Keeps I (onTyping act) Q := keeps_onTyping_of fun s => h _ (hI.typing s)

theorem keepsT_checked {act : Env → CheckM α} {Q : α → Prop}
    (h : ∀ s J, I s → Typing.Takes J → KeepsT J (act (s.env cfg.gate file)) Q) : KeepsT I (checked cfg file act) Q :=
  keeps_get.bind fun s hs => keeps_lent fun J => h s J hs

theorem keeps_note (level : Log.Level) (area text : String) : Keeps I (note cfg level area text) Any :=
  keeps_lent fun _ hJ => keeps_typingNote hJ cfg.gate level area text

theorem keeps_typeName (id : TypeId) : Keeps I (typeName id) Any := keeps_lent fun _ _ => keeps_typingAsk _

theorem keeps_mismatch (span : Span) (what : String) (expected found : TypeId) :
    Keeps I (mismatch file span what expected found) Diagnostic.IsRejection :=
  (keeps_typeName _).bind fun _ _ => (keeps_typeName _).bind fun _ _ => keeps_pure (.error (by decide) rfl)

theorem keepsT_checkedExpr (e : Expr) :
    KeepsT I (checked cfg file fun env => lowerExpr env e) (Value.Plain (Seen I)) := by
  refine keepsT_checked cfg file fun s J hs hJ => (keepsT_lowerExpr hJ _ e).mono fun v hv => hv.mono ?_
  rintro x ⟨name, hx⟩
  obtain ⟨scope, hscope, hmem⟩ := State.mem_of_lookup? hx
  exact ⟨s, hs, scope, hscope, name, hmem⟩

theorem keepsT_checkedType (ty : TypeExpr) :
    KeepsT I (checked cfg file fun env => Annotation.resolve env.file ty) Any :=
  keepsT_checked cfg file fun _ _ _ hJ => Annotation.keepsT_resolve hJ _ ty

theorem keepsT_letValue (name : String) (ty : Option TypeExpr) (init : Option Expr) (span : Span) :
    KeepsT I (letValue cfg file name ty init span) fun r => ∀ v ∈ r.2, v.Plain (Seen I) := by
  have hty : ∀ ty, KeepsT I (some <$> checked cfg file fun env => Annotation.resolve env.file ty) Any :=
    fun ty => (keepsT_checkedType cfg file ty).map fun _ _ => trivial
  have hinit : ∀ e, KeepsT I (some <$> checked cfg file fun env => lowerExpr env e) fun o => ∀ v ∈ o, v.Plain (Seen I) :=
    fun e => (keepsT_checkedExpr cfg file e).map fun _ hv => by simpa using hv
  have hskip : KeepsT I (pure none : StmtM (Option TypeId)) Any := keepsT_pure trivial
  have hnone : KeepsT I (pure none : StmtM (Option Value)) fun o => ∀ v ∈ o, v.Plain (Seen I) := keepsT_pure (by simp)
  unfold letValue
  cases ty
  case' none => refine hskip.bind fun declared _ => ?_
  case' some ty => refine (hty ty).bind fun declared _ => ?_
  all_goals
    cases init
    case' none => refine hnone.bind fun value hvalue => ?_
    case' some e => refine (hinit e).bind fun value hvalue => ?_
    all_goals
      beta_reduce
      split
      · exact keepsT_throw (.withHelp (.error (by decide) rfl) _)
      · exact keepsT_pure hvalue
      · exact keepsT_pure hvalue
      · split
        · exact keepsT_pure hvalue
        · exact (keepsT_lift (keeps_mismatch _ _ _ _ _)).bind fun _ h => keepsT_throw h

theorem keepsT_condition (construct : String) (e : Expr) :
    KeepsT I (condition cfg file construct e) (Value.Plain (Seen I)) := by
  refine (keepsT_checkedExpr cfg file e).bind fun v hv => ?_
  split
  · exact keepsT_pure hv
  · refine (keepsT_lift (keeps_ask _)).bind fun ty _ => ?_
    split
    · exact keepsT_pure hv
    · exact (keepsT_lift (keeps_typeName _)).bind fun _ _ => keepsT_throw (.error (by decide) rfl)

theorem keepsT_matchedValue (e : Expr) : KeepsT I (matchedValue cfg file e) (Value.Plain (Seen I)) := by
  refine (keepsT_checkedExpr cfg file e).bind fun v hv => ?_
  split
  · exact keepsT_pure hv
  · refine (keepsT_lift (keeps_ask _)).bind fun ty _ => ?_
    split
    · exact keepsT_pure hv
    · exact (keepsT_lift (keeps_typeName _)).bind fun _ _ => keepsT_throw (.error (by decide) rfl)

theorem keepsT_armHead (value : Value) (earlier : List ArmHead) (ty : TypeExpr) (span : Span) :
    KeepsT I (armHead cfg file value earlier ty span) Any := by
  refine (keepsT_checkedType cfg file ty).bind fun id _ => (keepsT_lift (keeps_ask _)).bind fun variant _ => ?_
  split
  · exact (keepsT_lift (keeps_typeName _)).bind fun _ _ => (keepsT_lift (keeps_typeName _)).bind fun _ _ =>
      keepsT_throw (.error (by decide) rfl)
  · split
    · exact (keepsT_lift (keeps_typeName _)).bind fun _ _ => keepsT_throw (.error (by decide) rfl)
    · exact keepsT_pure trivial

theorem keepsT_armHeads (cfg : Settings) (file : FileId) (value : Value) : ∀ (arms : List Arm) (earlier : List ArmHead),
    KeepsT I (armHeads cfg file value earlier arms) Any
  | [], _ => by
    simp only [armHeads]
    exact keepsT_pure trivial
  | arm :: rest, earlier => by
    simp only [armHeads]
    exact (keepsT_armHead cfg file value earlier arm.variant arm.span).bind fun _ _ =>
      keepsT_armHeads cfg file value rest _

theorem keeps_inspectBody (fn : FunId) : Keeps I (inspectBody cfg fn) Any := by
  refine (keeps_ask _).bind fun _ _ => ?_
  split
  · exact (keeps_ask _).bind fun _ _ => keeps_note _ _ _ _
  · exact keeps_pure trivial

end Checks

/-! ### Effects -/

section Effects

variable {N : String → Prop} {I : State → Prop} [hI : KeptByBuilding N I]
include hI

theorem keeps_pushScope : Keeps I pushScope Any := keeps_modify fun _ => hI.scopes _

theorem keeps_popScope : Keeps I popScope Any := by
  refine keeps_get.bind fun s _ => ?_
  split
  · exact keeps_throw _
  · exact keeps_modify fun _ => hI.scopes _

theorem keeps_bindName (name : String) (v : VarId) : Keeps I (bindName name v) Any := by
  refine keeps_get.bind fun s _ => ?_
  split
  · exact keeps_throw _
  · exact keeps_modify fun _ => hI.scopes _

theorem keeps_inScope {act : LowerM α} {Q : α → Prop} (h : Keeps I act Q) : Keeps I (inScope act) Q :=
  keeps_pushScope.bind fun _ _ => h.bind fun _ ha => keeps_popScope.bind fun _ _ => keeps_pure ha

theorem keeps_newBlock : Keeps I newBlock Any := fun _ hs => ⟨hI.addBlock hs, trivial⟩

theorem keeps_newVar (ty : TypeId) {name : String} (h : N name) : Keeps I (newVar ty name) Any :=
  fun _ hs => ⟨hI.addVar hs h, trivial⟩

theorem keeps_emit (b : BlockId) (x : BlockStmt) : Keeps I (emit b x) Any := by
  intro s hs
  cases hb : s.blocks.get b with
  | error f =>
    rw [emit, run_bind_error (ask_eq_error hb)]
    exact hs
  | ok block =>
    have happend := hI.append (b := b) (x := x) hs
    rw [State.append, State.changeBlock, ← Arena.put_eq_modify (Arena.get_eq_ok.mp hb) fun block =>
      { block with stmts := block.stmts.push x }] at happend
    rw [emit, run_bind_ok (ask_of_ok hb)]
    exact ⟨happend, trivial⟩

theorem keeps_terminate (b : BlockId) (t : Terminator) : Keeps I (terminate b t) Any := by
  intro s hs
  cases hb : s.blocks.get b with
  | error f =>
    rw [terminate, run_bind_error (ask_eq_error hb)]
    exact hs
  | ok block =>
    rw [terminate, run_bind_ok (ask_of_ok hb)]
    cases ho : block.terminator with
    | some _ => exact hs
    | none =>
      have hclose := hI.close (t := t) hs ⟨block, Arena.get_eq_ok.mp hb, ho⟩
      rw [State.close, State.changeBlock, ← Arena.put_eq_modify (Arena.get_eq_ok.mp hb) fun block =>
        { block with terminator := some t }] at hclose
      exact ⟨hclose, trivial⟩

/-! ### Parts of statements -/

theorem keepsT_lowerLet {name : String} (hname : N name) (ty : Option TypeExpr) (init : Option Expr) (span : Span)
    (b : BlockId) : KeepsT I (lowerLet cfg file name ty init span b) Any := by
  have hattempt : KeepsT I (attempt (letValue cfg file name ty init span)) (Concludes Any) :=
    keepsT_lift ((keepsT_letValue cfg file name ty init span).mono fun _ _ => trivial)
  have hbind : ∀ v, KeepsT I (liftM (bindName name v) : StmtM Unit) Any := fun v =>
    keepsT_lift (keeps_bindName name v)
  refine hattempt.bind fun r hr => ?_
  split
  · have hpoison : Keeps I (poison name) Any := (keeps_newVar _ hname).bind fun _ _ => keeps_bindName _ _
    exact (keepsT_lift hpoison).bind fun _ _ => keepsT_throw hr
  · refine (keepsT_lift (keeps_newVar _ hname)).bind fun v _ => (keepsT_lift (keeps_emit _ _)).bind fun _ _ => ?_
    split
    · exact (keepsT_lift (keeps_emit _ _)).bind fun _ _ => (hbind v).discard
    · have hskip : KeepsT I (pure () : StmtM Unit) Any := keepsT_pure trivial
      exact hskip.bind fun _ _ => (hbind v).bind fun _ _ => keepsT_pure trivial

theorem keepsT_lowerAssign (name : String) (nameSpan : Span) (value : Expr) (b : BlockId) :
    KeepsT I (lowerAssign cfg file name nameSpan value b) Any := by
  have hlookup : Keeps I (lookup? name) Any := keeps_get.discard
  refine (keepsT_lift hlookup).bind fun o _ => ?_
  split
  · exact keepsT_throw (.error (by decide) rfl)
  · refine (keepsT_checkedExpr cfg file value).bind fun v _ => (keepsT_lift (keeps_ask _)).bind fun var _ => ?_
    split
    · exact (keepsT_lift (keeps_emit _ _)).discard
    · exact (keepsT_lift (keeps_mismatch _ _ _ _ _)).bind fun _ h => keepsT_throw (h.withLabel rfl)

theorem keepsT_lowerReturn (fn : FunId) (value : Option Expr) (span : Span) (b : BlockId) :
    KeepsT I (lowerReturn cfg file fn value span b) Any := by
  have hunit : KeepsT I (pure (.unit .unit span) : StmtM Value) Any := keepsT_pure trivial
  refine (keepsT_lift (keeps_ask _)).bind fun f _ => ?_
  cases value
  case' none => refine hunit.bind fun v _ => ?_
  case' some e => refine (keepsT_checkedExpr cfg file e).bind fun v _ => ?_
  all_goals
    beta_reduce
    split
    · exact (keepsT_lift (keeps_terminate _ _)).discard
    · exact (keepsT_lift (keeps_mismatch _ _ _ _ _)).bind fun _ h => keepsT_throw h

theorem keepsT_lowerEffect (hN : ∀ n ∈ reservedNames, N n) (cfg : Settings) (file : FileId) (e : Expr) (b : BlockId) :
    KeepsT I (lowerEffect cfg file e b) Any :=
  (keepsT_checkedExpr cfg file e).bind fun _ _ =>
    (keepsT_lift (keeps_newVar _ (hN "_" (by simp [reservedNames])))).bind fun _ _ =>
      (keepsT_lift (keeps_emit _ _)).bind fun _ _ => (keepsT_lift (keeps_emit _ _)).discard

theorem keeps_bindPayload (b : BlockId) (scrutinee : Value) (head : ArmHead) {binding : Option String}
    (h : ∀ n ∈ binding.toList, N n) : Keeps I (bindPayload b scrutinee head binding) Any := by
  cases binding with
  | none => exact keeps_pure trivial
  | some name =>
    exact (keeps_ask _).bind fun _ _ => (keeps_newVar _ (h name (by simp))).bind fun _ _ =>
      (keeps_emit _ _).bind fun _ _ => (keeps_emit _ _).bind fun _ _ => keeps_bindName _ _

theorem keeps_joinAll (join : BlockId) : ∀ ends : List BlockId, Keeps I (joinAll join ends) Any
  | [] => keeps_pure trivial
  | _ :: rest => (keeps_terminate _ _).bind fun _ _ => keeps_joinAll join rest

theorem keeps_joinEnds (ends : List BlockId) : Keeps I (joinEnds ends) Any := by
  unfold joinEnds
  split
  · exact keeps_pure trivial
  · exact keeps_newBlock.bind fun _ _ => (keeps_joinAll _ _).discard

theorem keeps_scrutinize (hN : ∀ n ∈ reservedNames, N n) (value : Value) (b : BlockId) :
    Keeps I (scrutinize value b) Any :=
  (keeps_newVar _ (hN "match" (by simp [reservedNames]))).bind fun _ _ => (keeps_emit _ _).bind fun _ _ =>
    (keeps_emit _ _).discard

theorem keeps_bindParams (entry : BlockId) (span : Span) : ∀ (params : List Parameter) (index : Nat),
    (∀ n ∈ (params.map (·.name)).filterMap id, N n) → Keeps I (bindParams entry span index params) Any
  | [], _, _ => keeps_pure trivial
  | { ty := _, name := none } :: rest, index, h => keeps_bindParams entry span rest (index + 1) (by simpa using h)
  | { ty, name := some name } :: rest, index, h => by
    have hrest := keeps_bindParams entry span rest (index + 1) fun n hn => h n (by simpa using .inr (by simpa using hn))
    exact (keeps_newVar ty (h name (by simp))).bind fun _ _ => (keeps_emit _ _).bind fun _ _ =>
      (keeps_emit _ _).bind fun _ _ => (keeps_bindName _ _).bind fun _ _ => hrest

end Effects

/-! ### Statements -/

section Statements

set_option linter.unusedSectionVars false

variable {N : String → Prop} {I : State → Prop}

theorem keeps_report [hI : KeptByReporting I] {d : Diagnostic} (hd : d.Pointed) : Keeps I (report cfg d) Any := by
  have hcount : Keeps I (modify fun s : State => { s with errors := s.errors + 1 } : LowerM PUnit) Any :=
    keeps_modify fun s => hI.report s.diags _ (Nat.le_succ _) fun _ => .inl
  have hpush : Keeps I (modify fun s : State => { s with diags := s.diags.push d } : LowerM PUnit) Any := by
    refine keeps_modify fun s => hI.report _ s.errors (Nat.le_refl _) fun d' hd' => ?_
    rcases Array.mem_push.mp hd' with h | rfl
    · exact .inl h
    · exact .inr hd
  unfold report
  split
  · exact hcount.bind fun _ _ => (keeps_note _ _ _ _).bind fun _ _ => hpush
  · exact (keeps_note _ _ _ _).bind fun _ _ => hpush

theorem keeps_limitReached : Keeps I (limitReached cfg) Any :=
  keeps_get.discard

variable [hI : KeptByLowering N I] (hN : ∀ n ∈ reservedNames, N n)
include hI hN

section

variable (cfg : Settings) (file : FileId) (fn : FunId)

mutual

theorem keepsT_lowerStmt : ∀ (x : Stmt) (b : BlockId),
    (∀ n ∈ binders x, N n) → KeepsT I (lowerStmt cfg file fn x b) Any
  | .letVar name ty init span, b, h => by
    rw [lowerStmt]
    exact keepsT_lowerLet cfg file (h name (by simp [binders])) ty init span b
  | .assign name nameSpan value _, b, _ => by
    rw [lowerStmt]
    exact keepsT_lowerAssign cfg file name nameSpan value b
  | .ret value span, b, _ => by
    rw [lowerStmt]
    exact keepsT_lowerReturn cfg file fn value span b
  | .expr value _, b, _ => by
    rw [lowerStmt]
    exact keepsT_lowerEffect hN cfg file value b
  | .block body _, b, h => by
    rw [lowerStmt]
    exact keepsT_lift (keeps_inScope (keeps_lowerStmts body (some b) (by simpa [binders] using h)))
  | .ifElse e thenBody elseBody _, b, h => by
    rcases elseBody with _ | elseBody
    all_goals
      simp only [binders, List.mem_append] at h
      simp only [lowerStmt]
      refine (keepsT_condition cfg file _ e).bind fun v _ => ?_
      refine (keepsT_lift keeps_newBlock).bind fun thenBlock _ => (keepsT_lift keeps_newBlock).bind fun elseBlock _ => ?_
      refine (keepsT_lift (keeps_terminate _ _)).bind fun _ _ => ?_
    · refine (keepsT_lift (keeps_inScope (keeps_lowerStmts thenBody _ h))).bind fun thenEnd _ => ?_
      exact (keepsT_lift (keeps_joinAll _ _)).discard
    · refine (keepsT_lift (keeps_inScope (keeps_lowerStmts thenBody _ fun n hn => h n (.inl hn)))).bind
        fun thenEnd _ => ?_
      refine (keepsT_lift (keeps_inScope (keeps_lowerStmts elseBody _ fun n hn => h n (.inr hn)))).bind
        fun elseEnd _ => ?_
      exact keepsT_lift (keeps_joinEnds _)
  | .whileLoop e body _, b, h => by
    simp only [lowerStmt]
    refine (keepsT_condition cfg file _ e).bind fun v _ => (keepsT_lift keeps_newBlock).bind fun head _ => ?_
    refine (keepsT_lift keeps_newBlock).bind fun bodyBlock _ => (keepsT_lift keeps_newBlock).bind fun exit _ => ?_
    refine (keepsT_lift (keeps_terminate _ _)).bind fun _ _ => (keepsT_lift (keeps_terminate _ _)).bind fun _ _ => ?_
    refine (keepsT_lift (keeps_inScope (keeps_lowerStmts body _ (by simpa [binders] using h)))).bind
      fun bodyEnd _ => ?_
    exact (keepsT_lift (keeps_joinAll _ _)).discard
  | .matchOn e arms fallback _, b, h => by
    rcases fallback with _ | fallback
    all_goals
      simp only [binders, List.mem_append] at h
      simp only [lowerStmt]
      refine (keepsT_matchedValue cfg file e).bind fun v _ => ?_
      split
      · exact keepsT_pure trivial
      refine (keepsT_armHeads cfg file v arms []).bind fun heads _ => ?_
      refine (keepsT_lift (keeps_scrutinize hN v b)).bind fun scrutinee _ => ?_
    · refine (keepsT_lift keeps_newBlock).bind fun join _ => ?_
      refine (keepsT_lift (keeps_lowerArms scrutinee arms heads h)).bind fun r _ => ?_
      exact (keepsT_lift (keeps_joinAll _ _)).bind fun _ _ => (keepsT_lift (keeps_terminate _ _)).discard
    · refine (keepsT_lift (keeps_lowerArms scrutinee arms heads fun n hn => h n (.inl hn))).bind
        fun r _ => ?_
      refine (keepsT_lift keeps_newBlock).bind fun fallbackBlock _ => ?_
      refine (keepsT_lift (keeps_inScope (keeps_lowerStmts fallback _ fun n hn => h n (.inr hn)))).bind
        fun fallbackEnd _ => ?_
      exact (keepsT_lift (keeps_joinEnds _)).bind fun _ _ => (keepsT_lift (keeps_terminate _ _)).discard

theorem keeps_lowerStmts : ∀ (body : List Stmt) (current : Option BlockId),
    (∀ n ∈ bindersOf body, N n) → Keeps I (lowerStmts cfg file fn body current) Any
  | [], _, _ => by
    simp only [lowerStmts]
    exact keeps_pure trivial
  | x :: rest, current, h => by
    simp only [bindersOf, List.mem_append] at h
    simp only [lowerStmts]
    refine (keeps_limitReached cfg).bind fun atLimit _ => ?_
    split
    · exact keeps_pure trivial
    · cases current with
      | none => exact (keeps_report cfg (d := unreachableCode file x.span) rfl).discard
      | some b =>
        refine Keeps.bind (keepsT_lowerStmt x b fun n hn => h n (.inl hn)) fun r hr => ?_
        have hrest := fun next => keeps_lowerStmts rest next fun n hn => h n (.inr hn)
        cases r with
        | error d => exact (keeps_report cfg hr.pointed).bind fun _ _ => hrest (some b)
        | ok next => exact hrest next

theorem keeps_lowerArms (scrutinee : Value) :
    ∀ (arms : List Arm) (heads : List ArmHead), (∀ n ∈ armBinders arms, N n) →
      Keeps I (lowerArms cfg file fn scrutinee arms heads) Any
  | [], _, _ | _ :: _, [], _ => by
    simp only [lowerArms]
    exact keeps_pure trivial
  | ⟨_, binding, body, _⟩ :: arms, head :: heads, h => by
    simp only [armBinders, List.mem_append] at h
    simp only [lowerArms]
    refine keeps_newBlock.bind fun b _ => Keeps.bind (Q := Any) (keeps_inScope ?_) fun last _ => ?_
    · exact (keeps_bindPayload b scrutinee head fun n hn => h n (.inl (.inl hn))).bind fun _ _ =>
        keeps_inScope (keeps_lowerStmts body _ fun n hn => h n (.inl (.inr hn)))
    · exact (keeps_lowerArms scrutinee arms heads fun n hn => h n (.inr hn)).discard

end

end

end Statements

/-! ### Types -/

section Types

variable {I : State → Prop}

theorem keeps_resolveType [KeptByChecking I] (ty : TypeExpr) : Keeps I (resolveType cfg file ty) (Concludes Any) :=
  keepsT_checkedType cfg file ty

theorem keeps_noteDeclared [KeptByChecking I] (f : Function) : Keeps I (noteDeclared cfg f) Any := by
  unfold noteDeclared
  split
  · exact (keeps_lent fun _ hJ => keeps_intern hJ rfl (by simp)).bind fun _ _ => (keeps_typeName _).bind fun _ _ =>
      keeps_note _ _ _ _
  · exact keeps_pure trivial

/-- Parameters get the names that they are given. -/
theorem keepsT_signature [KeptByChecking I] (d : FunDecl) :
    KeepsT I (checked cfg file fun env => resolveSignature env.file d)
      fun signature => signature.params.map (·.name) = d.params.map (·.name) := by
  refine keepsT_checked cfg file fun _ J _ hJ => ( Annotation.keepsT_resolve hJ _ _).bind fun result _ => ?_
  refine ( Annotation.keepsT_resolveParams hJ _ _).bind fun params hparams => keepsT_pure ?_
  rw [hparams, List.map_map]
  rfl

variable {N : String → Prop} [hI : KeptByDefining N I]
include hI

/-- What is declared is among what is given. -/
theorem keeps_declareTypes (cfg : Settings) (file : FileId) : ∀ defs : List TypeDef, (∀ d ∈ defs, N d.name) →
    Keeps I (declareTypes cfg file defs) Any
  | [], _ => keeps_pure trivial
  | d :: rest, h => by
    have hrest := keeps_declareTypes cfg file rest fun d hd => h d (.tail _ hd)
    have hdeclare : Keeps I (onTyping (Typing.declareAlias cfg.gate d.name)) Any :=
      keeps_onTyping_of fun s => keeps_typingDeclare (hI.aliases s) cfg.gate (h d (.head _))
    unfold declareTypes
    refine keeps_get.bind fun s _ => ?_
    split
    · exact (keeps_report cfg (d := duplicateType file d) rfl).bind fun _ _ => hrest
    · exact hdeclare.bind fun _ _ => hrest.discard

theorem keeps_defineTypes (cfg : Settings) (file : FileId) : ∀ declared : List (TypeId × TypeDef),
    Keeps I (defineTypes cfg file declared) Any
  | [] => keeps_pure trivial
  | (id, d) :: rest => by
    have hrest := keeps_defineTypes cfg file rest
    refine (keeps_resolveType cfg file d.ty).bind fun r hr => ?_
    split
    · exact (keeps_report cfg hr.pointed).bind fun _ _ => hrest
    · exact (keeps_onTyping_of fun s => keeps_typingDefine (hI.aliases s) id _).bind fun _ _ => hrest

theorem keeps_rejectCycles (cfg : Settings) (file : FileId) : ∀ declared : List (TypeId × TypeDef),
    Keeps I (rejectCycles cfg file declared) Any
  | [] => keeps_pure trivial
  | (id, d) :: rest => by
    have hrest := keeps_rejectCycles cfg file rest
    refine (keeps_ask _).bind fun cyclic _ => ?_
    split
    · exact (keeps_report cfg (d := cyclicType file d) rfl).bind fun _ _ => hrest
    · exact hrest

theorem keeps_lowerTypes (defs : List TypeDef) (h : ∀ d ∈ defs, N d.name) : Keeps I (lowerTypes cfg file defs) Any :=
  (keeps_declareTypes cfg file defs h).bind fun declared _ => (keeps_defineTypes cfg file declared).bind fun _ _ =>
    keeps_rejectCycles cfg file declared

end Types

/-! ### Functions -/

section

variable {N : String → Prop} {s₀ : State}

/-- The names that a function introduces. -/
def funBinders (d : FunDecl) : List String :=
  d.name :: (d.params.map (·.name)).filterMap id ++ bindersOf (d.body.getD [])

theorem keepsT_declareFun (d : FunDecl) (h : ∀ n ∈ funBinders d, N n) :
    KeepsT (From N s₀) (declareFun cfg file d) Any := by
  unfold declareFun
  refine keepsT_get.bind fun s _ => ?_
  split
  · exact (keepsT_lift (keeps_ask _)).bind fun _ _ => keepsT_throw (.error (by decide) rfl)
  · refine (keepsT_signature cfg file d).bind fun signature hnames => ?_
    have hadd : ∀ f : Function, f.name = d.name → f.signature = signature → Keeps (From N s₀) (newFun f) Any := by
      intro f hname hsig
      have hset : Keeps (From N s₀) (setContext fun c => { c with funs := c.funs.insert f }) Any :=
        keeps_modify fun _ hs => by
          refine ⟨.addFun hs.develops fun n hn => h n ?_, hs.pointed⟩
          rw [Function.names, hname, hsig, hnames] at hn
          exact List.mem_append_left _ hn
      exact keeps_get.bind fun _ _ => hset.discard
    refine (keepsT_lift (hadd _ rfl rfl)).bind fun fn _ => KeepsT.bind (Q := Any) (keepsT_lift (keeps_modify ?_)) fun _ _ => ?_
    · exact fun _ hs => ⟨hs.develops, hs.pointed⟩
    · exact (keepsT_lift (keeps_noteDeclared cfg _)).discard

theorem keeps_declareFuns (cfg : Settings) (file : FileId) : ∀ decls : List FunDecl,
    (∀ d ∈ decls, ∀ n ∈ funBinders d, N n) →
    Keeps (From N s₀) (declareFuns cfg file decls) fun declared => ∀ p ∈ declared, p.2 ∈ decls
  | [], _ => keeps_pure (by simp)
  | d :: rest, h => by
    have hrest := keeps_declareFuns cfg file rest fun d hd => h d (.tail _ hd)
    unfold declareFuns
    refine Keeps.bind (keepsT_declareFun cfg file d (h d (.head _))) fun r hr => ?_
    split
    · exact (keeps_report cfg hr.pointed).bind fun _ _ => hrest.mono fun l hl p hp => .tail _ (hl p hp)
    · refine hrest.bind fun l hl => keeps_pure fun p hp => ?_
      rcases List.mem_cons.mp hp with rfl | hp
      · exact .head _
      · exact .tail _ (hl p hp)

theorem keeps_finishBody (f : Function) (last : Option BlockId) : Keeps (From N s₀) (finishBody cfg f last) Any := by
  cases last with
  | none => exact keeps_pure trivial
  | some b =>
    simp only [finishBody]
    split
    · exact keeps_terminate _ _
    · refine (keeps_limitReached cfg).bind fun atLimit _ => ?_
      split
      · exact keeps_pure trivial
      · exact (keeps_typeName _).bind fun _ _ => keeps_report cfg rfl

section Bodies

variable (hN : ∀ n ∈ reservedNames, N n) (hc : s₀.context.Named N)
include hN hc

theorem keeps_lowerFunBody (cfg : Settings) (fn : FunId) (body : List Stmt) (h : ∀ n ∈ bindersOf body, N n) :
    Keeps (From N s₀) (lowerFunBody cfg fn body) Any := by
  unfold lowerFunBody
  refine keeps_get.bind fun s _ => (keeps_ask _).bind fun f hf => ?_
  obtain ⟨s1, hs1, hget⟩ := hf
  have hnames := (hs1.develops.named hc).funs fn f (Arena.get_eq_ok.mp hget)
  have hset : ∀ entry, Keeps (From N s₀)
      (setContext fun c => { c with funs := c.funs.put fn { f with body := some ⟨entry, fn⟩ } }) Any :=
    fun _ => keeps_modify fun _ hs => ⟨.setFun hs.develops hnames, hs.pointed⟩
  refine keeps_newBlock.bind fun entry _ => (hset entry).bind fun _ _ => ?_
  refine Keeps.bind (Q := Any) (keeps_inScope ?_) fun last _ => ?_
  · exact (keeps_bindParams entry f.span f.signature.params 0 fun n hn => hnames n (.tail _ hn)).bind
      fun _ _ => keeps_inScope (keeps_lowerStmts hN cfg f.file fn body _ h)
  · refine (keeps_finishBody cfg f last).bind fun _ _ => keeps_get.bind fun s' _ => ?_
    split
    · exact keeps_inspectBody cfg fn
    · exact keeps_pure trivial

theorem keeps_lowerBodies (cfg : Settings) : ∀ declared : List (FunId × FunDecl),
    (∀ p ∈ declared, ∀ n ∈ funBinders p.2, N n) → Keeps (From N s₀) (lowerBodies cfg declared) Any
  | [], _ => keeps_pure trivial
  | (fn, d) :: rest, h => by
    have hrest := keeps_lowerBodies cfg rest fun p hp => h p (.tail _ hp)
    refine (keeps_limitReached cfg).bind fun atLimit _ => ?_
    split
    · exact keeps_get.bind fun _ _ => keeps_note _ _ _ _
    · split
      · rename_i body hbody
        refine (keeps_lowerFunBody hN hc cfg fn body fun n hn => ?_).bind fun _ _ => hrest
        refine h (fn, d) (.head _) n (List.mem_append_right _ ?_)
        rw [hbody]
        exact hn
      · exact hrest

/-- The names that a module introduces. -/
def moduleBinders (m : Module) : List String := m.types.map (·.name) ++ m.funs.flatMap funBinders

theorem keeps_lowerModule (cfg : Settings) (m : Module) (h : ∀ n ∈ moduleBinders m, N n) :
    Keeps (From N s₀) (lowerModule cfg m) Any := by
  have htypes : ∀ d ∈ m.types, N d.name := fun d hd => h _ (List.mem_append_left _ (List.mem_map_of_mem hd))
  have hfuns : ∀ d ∈ m.funs, ∀ n ∈ funBinders d, N n := fun d hd n hn =>
    h n (List.mem_append_right _ (List.mem_flatMap.mpr ⟨d, hd, hn⟩))
  refine (keeps_note _ _ _ _).bind fun _ _ => (keeps_lowerTypes cfg m.file m.types htypes).bind fun _ _ => ?_
  refine (keeps_declareFuns cfg m.file m.funs hfuns).bind fun declared hdeclared => ?_
  refine (keeps_lowerBodies hN hc cfg declared fun p hp => hfuns _ (hdeclared p hp)).bind fun _ _ => ?_
  refine keeps_get.bind fun s _ => ?_
  split
  · exact keeps_pure trivial
  · exact keeps_pure trivial

end Bodies

end

end Lowering

end BlockCompiler
