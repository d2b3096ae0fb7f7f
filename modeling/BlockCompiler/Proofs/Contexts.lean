/-
  BlockCompiler.Proofs.Contexts — expressions in the contexts that operations lead to.

  A context starts out fresh and is changed by operations, which are given handles of types that
  it issued (`Reached`). A step that ends in a fault leaves it as it was.

  (1) In a context that was reached, the table of types is well formed, and the types of variables
      and functions are in it (`Reached.founded`).
  (2) So an expression is lowered exactly if it elaborates, whatever the names in force, and to
      what it elaborates to (`lowerExpr_elaborates`).
-/
import BlockCompiler.Proofs.Elaboration
import BlockCompiler.Session

namespace BlockCompiler

open Lowering
open Surface (Expr)
open TypeTable (Widens)

/-! ## (1) Operations -/

namespace Context

/-- What can be done to a context. -/
inductive Operation where
  | addType (ty : Ty)
  | declareAlias (name : String)
  | defineAlias (id underlying : TypeId)
  | addFun (f : Function)
  | changeFun (fn : FunId) (f : Function)
  | addFunType (fn : FunId)
  | addBlock (block : Block)
  | changeBlock (b : BlockId) (block : Block)
  | addVar (ty : TypeId) (name : String)

namespace Operation

def run (gate : Log.Gate) : Operation → LowerM Unit
  | addType ty => do let _ ← onTyping (Typing.intern ty)
  | declareAlias name => do let _ ← onTyping (Typing.declareAlias gate name)
  | defineAlias id underlying => onTyping (Typing.defineAlias id underlying)
  | addFun f => do let _ ← newFun f
  | changeFun fn f => do
    let _ ← ask (·.funs.get fn)
    setContext fun c => { c with funs := c.funs.put fn f }
  | addFunType fn => do let _ ← Session.funType fn
  | addBlock block => do let _ ← Session.insertBlock block
  | changeBlock b block => Session.replaceBlock b block
  | addVar ty name => do let _ ← newVar ty name

/-- The types that an operation is given. -/
def types : Operation → List TypeId
  | addType ty => ty.mentions
  | defineAlias id underlying => [id, underlying]
  | addFun f | changeFun _ f => (Ty.func f.signature).mentions
  | addVar ty _ => [ty]
  | _ => []

end Operation

/-- The contexts that operations lead to from a fresh one. -/
inductive Reached : Context → Prop
  | fresh : Reached {}
  | step {s s' : State} (gate : Log.Gate) (op : Operation) : Reached s.context →
      (∀ id ∈ op.types, id.index < s.types.size) → op.run gate s = .ok () s' → Reached s'.context
  | fault {s s' : State} {f : Fault} (gate : Log.Gate) (op : Operation) : Reached s.context →
      op.run gate s = .error f s' → Reached s'.context

/-- Types are well formed, and variables and functions have types that are there. -/
structure Founded (c : Context) : Prop where
  formed : c.types.Formed
  vars : ∀ x v, c.vars.get? x = some v → v.ty.index < c.types.size
  funs : ∀ fn f, c.funs.get? fn = some f → ∀ m ∈ (Ty.func f.signature).mentions, m.index < c.types.size

namespace Founded

variable {c : Context} (hc : c.Founded)
include hc

theorem withTypes {t : TypeTable} (hf : t.Formed) (hle : c.types.size ≤ t.size) : Founded { c with types := t } :=
  ⟨hf, fun x v h => Nat.lt_of_lt_of_le (hc.vars x v h) hle,
    fun fn f h m hm => Nat.lt_of_lt_of_le (hc.funs fn f h m hm) hle⟩

theorem addType {ty : Ty} (hm : ∀ m ∈ ty.mentions, m.index < c.types.size) :
    Founded { c with types := (c.types.insert ty).2 } :=
  hc.withTypes (hc.formed.insert hm) (TypeTable.insert_grows _ _).size_le

theorem withFun {funs : Arena .function Function} {f : Function}
    (hm : ∀ m ∈ (Ty.func f.signature).mentions, m.index < c.types.size)
    (h : ∀ fn g, funs.get? fn = some g → g = f ∨ c.funs.get? fn = some g) : Founded { c with funs } := by
  refine ⟨hc.formed, hc.vars, fun fn g hg => ?_⟩
  rcases h fn g hg with rfl | hold
  · exact hm
  · exact hc.funs fn g hold

theorem addVar {ty : TypeId} (hty : ty.index < c.types.size) (name : String) :
    Founded { c with vars := c.vars.insert { ty, name } } := by
  refine ⟨hc.formed, fun x v hv => ?_, hc.funs⟩
  rw [Arena.get?_insert] at hv
  split at hv
  · cases hv
    exact hty
  · exact hc.vars x v hv

end Founded

namespace Operation

variable {s s' : State} {gate : Log.Gate} {op : Operation}

theorem founded_of_run (hs : s.context.Founded) (hop : ∀ id ∈ op.types, id.index < s.types.size) :
    Whenever (op.run gate) s fun _ s' => s'.context.Founded := by
  cases op with
  | addType ty =>
    simp only [run, whenever_bind, whenever_onTyping, Typing.intern, whenever_modifyGet, whenever_pure]
    exact hs.addType hop
  | declareAlias name =>
    simp only [run, whenever_bind, whenever_onTyping, Typing.declareAlias, Typing.intern, Typing.note,
      whenever_modifyGet, whenever_modify, whenever_pure]
    refine hs.addType fun m hm => ?_
    rw [List.mem_singleton.mp hm]
    exact hs.formed.prim_lt (i := 12) (by omega)
  | defineAlias id u =>
    simp only [run, whenever_onTyping, Typing.defineAlias, whenever_bind, whenever_typingAsk, whenever_modify]
    intro t ht
    obtain ⟨-, -, hsize, -⟩ := TypeTable.get?_of_defineAlias ht
    exact hs.withTypes (hs.formed.defineAlias (hop u (by simp [types])) ht) hsize.ge
  | addFun f =>
    simp only [run, newFun, whenever_bind, whenever_get, whenever_setContext, whenever_pure]
    refine hs.withFun hop fun fn g hg => ?_
    rw [Arena.get?_insert] at hg
    split at hg
    · cases hg
      exact .inl rfl
    · exact .inr hg
  | changeFun fn f =>
    simp only [run, whenever_bind, whenever_ask, whenever_setContext]
    refine fun f' hf' => hs.withFun hop fun fn' g hg => ?_
    rw [Arena.put_eq_modify (Arena.get_eq_ok.mp hf') fun _ => f, Arena.get?_modify] at hg
    split at hg
    · obtain ⟨-, -, rfl⟩ := Option.map_eq_some_iff.mp hg
      exact .inl rfl
    · exact .inr hg
  | addFunType fn =>
    simp only [run, Session.funType, whenever_bind, whenever_ask, Arena.get_eq_ok, whenever_onTyping, Typing.intern,
      whenever_modifyGet, whenever_pure]
    exact fun f hf => hs.addType (hs.funs fn f hf)
  | addBlock block =>
    simp only [run, Session.insertBlock, whenever_bind, whenever_newBlock, putBlock, whenever_setContext, whenever_pure]
    exact ⟨hs.formed, hs.vars, hs.funs⟩
  | changeBlock b block =>
    simp only [run, Session.replaceBlock, whenever_bind, whenever_ask, putBlock, whenever_setContext]
    exact fun _ _ => ⟨hs.formed, hs.vars, hs.funs⟩
  | addVar ty name =>
    simp only [run, whenever_bind, whenever_newVar, whenever_pure]
    exact hs.addVar (hop ty (by simp [types])) name

/-- Where only the question can fault, nothing was done before. -/
theorem eq_of_ask_error {α β : Type} {question : Context → Except Fault α} {k : α → LowerM β} {f : Fault}
    (hk : ∀ a, k a s ≠ .error f s') (h : (ask question >>= k) s = .error f s') : s' = s := by
  change EStateM.bind (ask question) k s = _ at h
  have hask : ask question s = settle (question s.context) s := rfl
  rw [EStateM.bind, hask] at h
  cases hq : question s.context with
  | ok a =>
    rw [hq] at h
    exact absurd h (hk a)
  | error f' =>
    rw [hq] at h
    cases h
    rfl

/-- A fault leaves the context as it was. -/
theorem context_of_run_error {f : Fault} (h : op.run gate s = .error f s') : s'.context = s.context := by
  cases op with
  | defineAlias id u =>
    have hask : Typing.defineAlias id u s.typing = (Typing.settle (s.types.defineAlias id u) >>= fun types =>
        modify fun st => { st with types }) s.typing := rfl
    rw [run, onTyping, hask] at h
    cases hd : s.types.defineAlias id u with
    | ok t =>
      rw [hd] at h
      cases h
    | error f' =>
      rw [hd] at h
      cases h
      rfl
  | changeFun | changeBlock => exact congrArg State.context (eq_of_ask_error (fun _ => by rintro ⟨⟩) h)
  | addFunType fn =>
    rw [run, Session.funType, bind_assoc] at h
    exact congrArg State.context (eq_of_ask_error (fun _ => by rintro ⟨⟩) h)
  | _ => cases h

end Operation

/-- What operations lead to is well founded. -/
theorem Reached.founded {c : Context} (h : c.Reached) : c.Founded := by
  induction h with
  | fresh =>
    exact ⟨TypeTable.fresh_formed, fun x v h => by simp [Arena.get?, Arena.empty] at h,
      fun fn f h => by simp [Arena.get?, Arena.empty] at h⟩
  | step gate op _ hop hrun ih => exact Operation.founded_of_run ih hop () _ hrun
  | fault gate op _ hrun ih =>
    rw [Operation.context_of_run_error hrun]
    exact ih

/-- Does what an operation can do with the handles that it is given. -/
def Operation.perform (c : Context) (op : Operation) : Context :=
  if ∀ id ∈ op.types, id.index < c.types.size then
    match op.run {} { context := c } with
    | .ok _ s => s.context
    | .error _ s => s.context
  else c

/-- The context that operations make of a fresh one. -/
def after (ops : List Operation) : Context := ops.foldl Operation.perform {}

theorem reached_after (ops : List Operation) : (after ops).Reached := by
  refine List.foldlRecOn ops Operation.perform .fresh fun c h op _ => ?_
  unfold Operation.perform
  split
  · rename_i hop
    split
    · rename_i s hrun
      exact .step {} op h hop hrun
    · rename_i s hrun
      exact .fault {} op h hrun
  · exact h

end Context

/-! ## (2) Expressions -/

namespace Lowering

/-- In a context that was reached, with any scopes and functions in force, an expression is lowered
to a value of the type `τ` if and only if it has this type by the rules, and the value is the one
that the rules build. Types are only added on the way, and no alias among them; in the table that is
left, a handle has the shape of what it stands for, and no other handle has the same shape. -/
theorem lowerExpr_elaborates {s : State} (hs : s.context.Reached) (gate : Log.Gate) (file : FileId) (e : Expr) :
    (∀ k τ, Elaborates ((s.env gate file).glossary s.context.types) e k τ ↔
      ∃ v st, (lowerExpr (s.env gate file) e).run s.typing = .ok (.ok v) st ∧ v.term = k ∧
        st.types.Names v.ty τ) ∧
    ∀ v st, (lowerExpr (s.env gate file) e).run s.typing = .ok (.ok v) st →
      s.context.types.Widens st.types ∧
      (∀ id ty, st.types.get? id = some ty → st.types.shape id = ty.shapeBy st.types.shape) ∧
      ∀ id id', id.index < st.types.size → id'.index < st.types.size →
        st.types.shape id = st.types.shape id' → id = id' := by
  have hc := hs.founded
  have henv : (s.env gate file).Issued s.types := ⟨hc.vars, hc.funs⟩
  have hwidens : s.types.Widens s.typing.types := Widens.refl hc.formed
  have hsettles := lowerExpr_settles henv e hwidens
  refine ⟨fun k τ => ⟨fun h => ?_, ?_⟩, fun v st hrun => ?_⟩
  · obtain ⟨v, st, hrun⟩ := hsettles.exists_result fun hnone => hnone (k, τ) h
    obtain ⟨-, b, ⟨hterm, hnames⟩, honly⟩ := hsettles.result hrun
    cases (honly (k, τ)).mp h
    exact ⟨v, st, hrun, hterm.symm, hnames⟩
  · rintro ⟨v, st, hrun, rfl, hlt, rfl⟩
    obtain ⟨-, b, ⟨hterm, -, hshape⟩, honly⟩ := hsettles.result hrun
    exact (honly (v.term, st.types.shape v.ty)).mpr (Prod.ext hterm.symm hshape)
  · obtain ⟨hw, -⟩ := hsettles.result hrun
    exact ⟨hw, fun id ty => hw.formed.shape_of_get?, fun id id' => hw.formed.shape_inj⟩

/-- A sum `S` of `i32` and `bool`, a function from `S` to `i32`, and a variable that is a `bool`. -/
def sampleScope : State where
  context := Context.after [
    .addType (.sum [TypeId.int true 32, TypeId.bool]),
    .declareAlias "S",
    .defineAlias ⟨14⟩ ⟨13⟩,
    .addFun { name := "f", signature := ⟨[⟨⟨14⟩, none⟩], TypeId.int true 32⟩, file := 0, span := .none },
    .addVar TypeId.bool "x"]
  scopes := [[("x", ⟨0⟩)]]
  functions := [("f", ⟨0⟩)]

def sampleGlossary : Glossary := (sampleScope.env {} 0).glossary sampleScope.types

/-- `f(x as S)`. -/
def sampleCall : Expr := .call (.name "f" .none) [.cast (.name "x" .none) (.named "S" .none) .none] .none

theorem sampleCall_elaborates : sampleScope.context.Reached ∧
    ∃ v st, (lowerExpr (sampleScope.env {} 0) sampleCall).run sampleScope.typing = .ok (.ok v) st ∧
      v.term = .call (.func ⟨0⟩) [.inject ⟨1⟩ (.var ⟨0⟩)] ∧ st.types.Names v.ty (.int true 32) := by
  have hreached : sampleScope.context.Reached := Context.reached_after _
  have hf := hreached.founded.formed
  have hint : sampleScope.types.shape (TypeId.int true 32) = .int true 32 := hf.shape_prim (i := 2) rfl
  have hbool : sampleScope.types.shape TypeId.bool = .bool := hf.shape_prim (i := 8) rfl
  have hsum : sampleScope.types.shape ⟨13⟩ = .sum [.int true 32, .bool] := by
    have hentry : sampleScope.types.get? ⟨13⟩ = some (.sum [TypeId.int true 32, TypeId.bool]) := by
      decide +kernel
    rw [hf.shape_of_get? hentry]
    simp only [Ty.shapeBy, List.map_cons, List.map_nil, hint, hbool]
  have hget : sampleScope.types.get? ⟨14⟩ = some (.named "S" ⟨13⟩) := by decide +kernel
  have halias : sampleScope.types.alias? "S" = some (.sum [.int true 32, .bool]) :=
    hf.alias?_eq_some.mpr ⟨_, _, hget, hsum⟩
  have hvar : sampleGlossary.var? ⟨0⟩ = some .bool := by
    have h : sampleScope.vars.get? ⟨0⟩ = some ⟨TypeId.bool, "x"⟩ := by decide +kernel
    simp only [sampleGlossary, Env.glossary, State.env, h, Option.map_some, hbool]
  have hfun : sampleGlossary.fun? ⟨0⟩ = some (.func [none] [.named "S"] (.int true 32)) := by
    have h : (sampleScope.funs.get? ⟨0⟩).map (·.signature) = some ⟨[⟨⟨14⟩, none⟩], TypeId.int true 32⟩ := by
      decide +kernel
    obtain ⟨f, hf', hsignature⟩ := Option.map_eq_some_iff.mp h
    simp only [sampleGlossary, Env.glossary, State.env, hf', Option.map_some, hsignature, Ty.shapeBy, List.map_cons,
      List.map_nil, hint, hf.shape_of_get? hget]
  have hcast : Elaborates sampleGlossary (.cast (.name "x" .none) (.named "S" .none) .none) (.inject ⟨1⟩ (.var ⟨0⟩))
      (.named "S") :=
    .cast .none (.var .none rfl hvar) (.named .none halias)
      (.variant (fun h => by cases h) (.inl (.through halias (.itself rfl))) ⟨rfl, by simp⟩)
  exact ⟨hreached, ((lowerExpr_elaborates hreached {} 0 sampleCall).1 _ _).mp
    (.call .none (.func .none rfl rfl hfun) (.cons hcast .nil) (.func (.inl (.itself rfl)) (.cons (.inl rfl) .nil)))⟩

end Lowering

end BlockCompiler
