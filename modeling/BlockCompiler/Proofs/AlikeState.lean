/-
  BlockCompiler.Proofs.AlikeState — the states of two runs.

  (1) Stores whose entries correspond from some handle on (`Arena.Like`), and blocks, variables
      and functions that correspond.
  (2) States that correspond (`State.Like`): names in force mean the same, what was built and
      reported since the first handles corresponds. Every effect of lowering, taken in both
      states, keeps that.
  (3) Steps of lowering taken in both runs (`Parallel`, and `Marches` for those that may reject):
      the states left correspond again, and each table of types only widens.
-/
import BlockCompiler.Proofs.AlikeExpr

namespace BlockCompiler

open TypeTable (Formed Widens Alike Congruent)

variable {a b : TypeId} {c : BlockId} {x y : BlockStmt} {d d' : Diagnostic}

/-! ## (1) What is stored -/

section

variable {k : Kind} {α β : Type} {R R' : α → β → Prop} {a b : Nat}

theorem Arena.get?_modify_eq_map (x : Arena k α) (h : Handle k) (f : α → α) (h' : Handle k) :
    (x.modify h f).get? h' = (x.get? h').map fun u => if h' = h then f u else u := by
  rw [get?_modify]
  split
  · rename_i heq
    rw [heq]
  · exact (Option.map_id' ..).symm

/-- From the handles `a` and `b` on, the entries correspond. -/
structure Arena.Like (R : α → β → Prop) (a b : Nat) (x : Arena k α) (y : Arena k β) : Prop where
  next : x.next.Shifted a b y.next
  get? : ∀ h h', h.Shifted a b h' → Option.Rel R (x.get? h) (y.get? h')

namespace Arena.Like

variable {x : Arena k α} {y : Arena k β}

theorem mono (h : x.Like R a b y) (hR : ∀ u v, R u v → R' u v) : x.Like R' a b y :=
  ⟨h.next, fun i j hij => optionRel_mono (h.get? i j hij) hR⟩

/-- Nothing is stored yet from the next handles on. -/
theorem start (x : Arena k α) (y : Arena k β) : x.Like R x.size y.size y := by
  refine ⟨⟨0, rfl, rfl⟩, ?_⟩
  rintro i j ⟨n, hi, hj⟩
  have hx : x.get? i = none := Array.getElem?_eq_none (by rw [hi]; exact Nat.le_add_right _ _)
  have hy : y.get? j = none := Array.getElem?_eq_none (by rw [hj]; exact Nat.le_add_right _ _)
  rw [hx, hy]
  exact .none

theorem insert (h : x.Like R a b y) {u : α} {v : β} (huv : R u v) : (x.insert u).Like R a b (y.insert v) := by
  refine ⟨?_, fun i j hij => ?_⟩
  · obtain ⟨n, hx, hy⟩ := h.next
    exact ⟨n + 1, by simp only [next_index, size_insert] at hx ⊢; omega,
      by simp only [next_index, size_insert] at hy ⊢; omega⟩
  · rw [get?_insert, get?_insert]
    simp only [hij.eq_iff h.next]
    split
    · exact .some huv
    · exact h.get? i j hij

theorem modify (h : x.Like R a b y) {i j : Handle k} (hij : i.Shifted a b j) {f : α → α} {g : β → β}
    (hfg : ∀ u v, R u v → R (f u) (g v)) : (x.modify i f).Like R a b (y.modify j g) := by
  refine ⟨?_, fun i' j' hij' => ?_⟩
  · obtain ⟨n, hx, hy⟩ := h.next
    exact ⟨n, by simpa using hx, by simpa using hy⟩
  · rw [get?_modify, get?_modify]
    simp only [hij'.eq_iff hij]
    split
    · exact optionRel_map (h.get? i j hij) hfg
    · exact h.get? i' j' hij'

theorem rel (h : x.Like R a b y) {i j : Handle k} (hij : i.Shifted a b j) {u : α} {v : β} (hu : x.get? i = some u)
    (hv : y.get? j = some v) : R u v := optionRel_some (h.get? i j hij) hu hv

end Arena.Like

end

section

variable {T T' : TypeId → TypeId → Prop} {p : Pairing}

structure Variable.Like (T : TypeId → TypeId → Prop) (x y : Variable) : Prop where
  name : x.name = y.name
  ty : T x.ty y.ty

inductive BlockStmt.Like (T : TypeId → TypeId → Prop) (p : Pairing) : BlockStmt → BlockStmt → Prop
  | live {v w : VarId} : p.vars v w → Like T p (.live v) (.live w)
  | store {v w : VarId} {x y : Value} : p.vars v w → x.Like T p y → Like T p (.store v x) (.store w y)

/-- Where the variants of a switch go corresponds. -/
def TargetsLike (p : Pairing) : List (VariantId × BlockId) → List (VariantId × BlockId) → Prop :=
  List.Forall₂ fun x y => x.1 = y.1 ∧ p.blocks x.2 y.2

inductive Terminator.Like (T : TypeId → TypeId → Prop) (p : Pairing) : Terminator → Terminator → Prop
  | ret {v w : Value} : v.Like T p w → Like T p (.ret v) (.ret w)
  | jump {b c : BlockId} : p.blocks b c → Like T p (.jump b) (.jump c)
  | branch {v w : Value} {b c b' c' : BlockId} : v.Like T p w → p.blocks b c → p.blocks b' c' →
      Like T p (.branch v b b') (.branch w c c')
  | switch {v w : Value} {ts us : List (VariantId × BlockId)} {b c : BlockId} : v.Like T p w → TargetsLike p ts us →
      p.blocks b c → Like T p (.switch v ts b) (.switch w us c)

structure Block.Like (T : TypeId → TypeId → Prop) (p : Pairing) (b c : Block) : Prop where
  stmts : List.Forall₂ (BlockStmt.Like T p) b.stmts.toList c.stmts.toList
  terminator : Option.Rel (Terminator.Like T p) b.terminator c.terminator

/-- The functions are declared alike; where all is the same, their bodies are the same. -/
structure Function.Like (T : TypeId → TypeId → Prop) (p : Pairing) (f g : Function) : Prop where
  name : f.name = g.name
  signature : f.signature.Like T g.signature
  file : f.file = g.file
  span : f.span = g.span
  flags : f.flags = g.flags
  body : p.exact → f.body = g.body

theorem Signature.Like.mono {f g : Signature} (h : f.Like T g) (hT : ∀ a b, T a b → T' a b) : f.Like T' g :=
  ⟨h.params.imp fun _ _ hp => ⟨hp.1, hT _ _ hp.2⟩, hT _ _ h.result⟩

theorem Variable.Like.mono {x y : Variable} (h : x.Like T y) (hT : ∀ a b, T a b → T' a b) : x.Like T' y :=
  ⟨h.name, hT _ _ h.ty⟩

theorem BlockStmt.Like.mono (h : x.Like T p y) (hT : ∀ a b, T a b → T' a b) : x.Like T' p y := by
  cases h with
  | live hv => exact .live hv
  | store hv he => exact .store hv (he.mono hT)

theorem Terminator.Like.mono {x y : Terminator} (h : x.Like T p y) (hT : ∀ a b, T a b → T' a b) : x.Like T' p y := by
  cases h with
  | ret hv => exact .ret (hv.mono hT)
  | jump hb => exact .jump hb
  | branch hv hb hc => exact .branch (hv.mono hT) hb hc
  | switch hv ht hb => exact .switch (hv.mono hT) ht hb

theorem Block.Like.mono {b c : Block} (h : b.Like T p c) (hT : ∀ a b, T a b → T' a b) : b.Like T' p c := by
  obtain ⟨stmts, terminator⟩ := b
  obtain ⟨stmts', terminator'⟩ := c
  refine ⟨h.stmts.imp fun _ _ hx => hx.mono hT, ?_⟩
  cases h.terminator with
  | some ht => exact .some (ht.mono hT)
  | none => exact .none

theorem Function.Like.mono {f g : Function} (h : f.Like T p g) (hT : ∀ a b, T a b → T' a b) : f.Like T' p g :=
  ⟨h.name, h.signature.mono hT, h.file, h.span, h.flags, h.body⟩

end

/-! ## (2) States -/

/-- Bindings of the same names to corresponding things. -/
def BindingsLike {α : Type} (R : α → α → Prop) : List (String × α) → List (String × α) → Prop :=
  List.Forall₂ fun x y => x.1 = y.1 ∧ R x.2 y.2

theorem BindingsLike.lookup {α : Type} {R : α → α → Prop} {l l' : List (String × α)} (h : BindingsLike R l l')
    (name : String) : Option.Rel R (l.lookup name) (l'.lookup name) := by
  induction h with
  | nil => exact .none
  | @cons x y _ _ hxy _ ih =>
    obtain ⟨key, u⟩ := x
    obtain ⟨key', v⟩ := y
    obtain ⟨rfl, huv⟩ : key = key' ∧ R u v := hxy
    simp only [List.lookup_cons]
    cases name == key with
    | true => exact .some huv
    | false => exact ih

theorem BindingsLike.names {α : Type} {R : α → α → Prop} {l l' : List (String × α)} (h : BindingsLike R l l') :
    l.map (·.1) = l'.map (·.1) := map_eq_of_forall₂ h fun _ _ hxy => hxy.1

/-- The names of all scopes mean corresponding variables. -/
def ScopesLike (p : Pairing) : List Scope → List Scope → Prop := List.Forall₂ (BindingsLike p.vars)

theorem ScopesLike.lookup? {p : Pairing} {l l' : List Scope} (h : ScopesLike p l l') (name : String) :
    Option.Rel p.vars (Scope.lookup? l name) (Scope.lookup? l' name) := by
  induction h with
  | nil => exact .none
  | @cons x y l l' hxy _ ih =>
    have hlookup := BindingsLike.lookup hxy name
    simp only [Scope.lookup?, List.findSome?_cons]
    generalize List.lookup name x = u at hlookup ⊢
    generalize List.lookup name y = v at hlookup ⊢
    cases hlookup with
    | some huv => exact .some huv
    | none => exact ih

/-- One limit on errors holds for both runs, and it is reached in both at once. -/
structure Pairing.Limits (p : Pairing) (cfg₁ cfg₂ : Settings) : Prop where
  maxErrors : cfg₁.maxErrors = cfg₂.maxErrors
  errors : cfg₁.maxErrors = 0 ∨ p.errors₁ = p.errors₂

namespace Lowering

structure State.Like (p : Pairing) (s₁ s₂ : State) : Prop where
  types : s₁.types.Congruent s₂.types
  vars : s₁.vars.Like (Variable.Like (s₁.types.Alike s₂.types)) p.var₁ p.var₂ s₂.vars
  blocks : s₁.blocks.Like (Block.Like (s₁.types.Alike s₂.types) p) p.block₁ p.block₂
    s₂.blocks
  funs : ∀ f g, p.funs f g → Option.Rel (Function.Like (s₁.types.Alike s₂.types) p)
    (s₁.funs.get? f) (s₂.funs.get? g)
  functions : ∀ name, Option.Rel p.funs (s₁.functions.lookup name) (s₂.functions.lookup name)
  names : p.exact → s₁.functions.map (·.1) = s₂.functions.map (·.1)
  scopes : ScopesLike p s₁.scopes s₂.scopes
  diags : ∃ ds ds', s₁.diags.toList = p.diags₁ ++ ds ∧ s₂.diags.toList = p.diags₂ ++ ds' ∧
    List.Forall₂ (Diagnostic.Like p.exact) ds ds'
  errors : ∃ n, s₁.errors = p.errors₁ + n ∧ s₂.errors = p.errors₂ + n

namespace State.Like

variable {p : Pairing} {s1 s2 : State} (hs : s1.Like p s2)
include hs

theorem env (gate1 gate2 : Log.Gate) (file : FileId) :
    (s1.env gate1 file).Like p s1.types s2.types (s2.env gate2 file) where
  file := rfl
  locals := hs.scopes.lookup?
  vars v w x y hvw hx hy := (hs.vars.rel hvw hx hy).ty
  functions := hs.functions
  funs f g x y hfg hx hy := (optionRel_some (hs.funs f g hfg) hx hy).signature
  names hexact := by
    have hscopes : s1.scopes.map (·.map (·.1)) = s2.scopes.map (·.map (·.1)) :=
      map_eq_of_forall₂ hs.scopes fun _ _ hxy => BindingsLike.names hxy
    simp only [Env.names, State.env, hs.names hexact, List.flatMap_def, List.map_reverse, hscopes]

theorem journal (j1 j2 : Log.Journal) : State.Like p { s1 with journal := j1 } { s2 with journal := j2 } := { hs with }

theorem withTyping {st1 st2 : Typing} (w1 : s1.types.Widens st1.types) (w2 : s2.types.Widens st2.types) :
    (s1.withTyping st1).Like p (s2.withTyping st2) := by
  have hT : ∀ a b, s1.types.Alike s2.types a b → st1.types.Alike st2.types a b :=
    fun a b => Alike.widens w1 w2
  exact { hs with
    types := hs.types.widens w1 w2
    vars := hs.vars.mono fun _ _ h => h.mono hT
    blocks := hs.blocks.mono fun _ _ h => h.mono hT
    funs f g hfg := optionRel_mono (hs.funs f g hfg) fun _ _ h => h.mono hT }

theorem addVar (hab : s1.types.Alike s2.types a b) (name : String) :
    (s1.addVar a name).Like p (s2.addVar b name) := { hs with vars := hs.vars.insert ⟨rfl, hab⟩ }

theorem addBlock : s1.addBlock.Like p s2.addBlock := { hs with blocks := hs.blocks.insert ⟨.nil, .none⟩ }

theorem append {b : BlockId} (hbc : p.blocks b c) (hxy : x.Like (s1.types.Alike s2.types) p y) :
    (s1.append b x).Like p (s2.append c y) := by
  refine { hs with blocks := hs.blocks.modify hbc fun u v huv => ⟨?_, huv.terminator⟩ }
  rw [Array.toList_push, Array.toList_push]
  exact List.rel_append huv.stmts (.cons hxy .nil)

theorem close {b : BlockId} (hbc : p.blocks b c) {x y : Terminator}
    (hxy : x.Like (s1.types.Alike s2.types) p y) : (s1.close b x).Like p (s2.close c y) :=
  { hs with blocks := hs.blocks.modify hbc fun _ _ huv => ⟨huv.stmts, .some hxy⟩ }

theorem enter : s1.enter.Like p s2.enter := { hs with scopes := .cons .nil hs.scopes }

theorem leave : s1.leave.Like p s2.leave := by
  refine { hs with scopes := ?_ }
  have hscopes := hs.scopes
  simp only [State.leave]
  generalize s1.scopes = l at hscopes ⊢
  generalize s2.scopes = l' at hscopes ⊢
  cases hscopes with
  | nil => exact .nil
  | cons _ hrest => exact hrest

theorem bind {v w : VarId} (hvw : p.vars v w) (name : String) : (s1.bind name v).Like p (s2.bind name w) := by
  refine { hs with scopes := ?_ }
  have hscopes := hs.scopes
  simp only [State.bind]
  generalize s1.scopes = l at hscopes ⊢
  generalize s2.scopes = l' at hscopes ⊢
  cases hscopes with
  | nil => exact .nil
  | cons hscope hrest => exact .cons (.cons ⟨rfl, hvw⟩ hscope) hrest

theorem reported (hd : d.Like p.exact d') (cfg1 cfg2 : Settings) :
    (s1.reported cfg1 d).Like p (s2.reported cfg2 d') := by
  refine { hs with diags := ?_, errors := ?_ }
  · obtain ⟨ds, ds', h1, h2, hds⟩ := hs.diags
    refine ⟨ds ++ [d], ds' ++ [d'], ?_, ?_, List.rel_append hds (.cons hd .nil)⟩
    · simp [State.reported, h1]
    · simp [State.reported, h2]
  · obtain ⟨n, h1, h2⟩ := hs.errors
    simp only [State.reported, hd.isError_eq]
    split
    · exact ⟨n + 1, by omega, by omega⟩
    · exact ⟨n, h1, h2⟩

theorem atLimit_iff {cfg1 cfg2 : Settings} (hl : p.Limits cfg1 cfg2) : s1.AtLimit cfg1 ↔ s2.AtLimit cfg2 := by
  obtain ⟨n, h1, h2⟩ := hs.errors
  unfold State.AtLimit
  rw [← hl.maxErrors]
  rcases hl.errors with h | h
  · simp [h]
  · rw [h1, h2, h]

end State.Like

/-! ## (3) Steps -/

variable {α β α' β' : Type} {p : Pairing} {cfg1 cfg2 : Settings} {s1 s2 : State}

/-- The states left correspond, and each table has widened. -/
structure Abreast (p : Pairing) (s₁ s₂ s₁' s₂' : State) : Prop extends like : s₁'.Like p s₂' where
  left : s₁.types.Widens s₁'.types
  right : s₂.types.Widens s₂'.types

namespace Abreast

variable {s1' s2' s1'' s2'' : State}

theorem trans (h : Abreast p s1 s2 s1' s2') (h' : Abreast p s1' s2' s1'' s2'') : Abreast p s1 s2 s1'' s2'' :=
  ⟨h'.like, h.left.trans h'.left, h.right.trans h'.right⟩

theorem alike (h : Abreast p s1 s2 s1' s2') (hab : s1.types.Alike s2.types a b) :
    s1'.types.Alike s2'.types a b := hab.widens h.left h.right

theorem value (h : Abreast p s1 s2 s1' s2') {v w : Value} (hv : ValueAlike p s1.types s2.types v w) :
    ValueAlike p s1'.types s2'.types v w := hv.widens h.left h.right

end Abreast

/-- A step that leaves the tables as they are. -/
theorem State.Like.abreast {s1' s2' : State} (hs : s1.Like p s2) (h : s1'.Like p s2')
    (h1 : s1'.types = s1.types) (h2 : s2'.types = s2.types) : Abreast p s1 s2 s1' s2' :=
  ⟨h, by rw [h1]; exact .refl hs.types.left, by rw [h2]; exact .refl hs.types.right⟩

def Parallel (p : Pairing) (act₁ : LowerM α) (s₁ : State) (act₂ : LowerM β) (s₂ : State)
    (Q : TypeTable → TypeTable → α → β → Prop) : Prop :=
  Jointly act₁ s₁ act₂ s₂ fun a s₁' b s₂' => Abreast p s₁ s₂ s₁' s₂' ∧ Q s₁'.types s₂'.types a b

def Marches (p : Pairing) (act₁ : StmtM α) (s₁ : State) (act₂ : StmtM β) (s₂ : State)
    (Q : TypeTable → TypeTable → α → β → Prop) : Prop :=
  Concurs act₁ s₁ act₂ s₂
    (fun a s₁' b s₂' => Abreast p s₁ s₂ s₁' s₂' ∧ Q s₁'.types s₂'.types a b)
    (fun d s₁' d' s₂' => Abreast p s₁ s₂ s₁' s₂' ∧ d.Like p.exact d')

variable {Q : TypeTable → TypeTable → α → β → Prop}

theorem Parallel.bind {act1 : LowerM α'} {act2 : LowerM β'} {f1 : α' → LowerM α} {f2 : β' → LowerM β}
    {P : TypeTable → TypeTable → α' → β' → Prop} (h : Parallel p act1 s1 act2 s2 P)
    (hf : ∀ a b s1' s2', Abreast p s1 s2 s1' s2' → P s1'.types s2'.types a b →
      Parallel p (f1 a) s1' (f2 b) s2' Q) :
    Parallel p (act1 >>= f1) s1 (act2 >>= f2) s2 Q := by
  refine (jointly_bind _ _ _).mpr (Jointly.mono h fun a s1' b s2' hr => ?_)
  obtain ⟨hon, hq⟩ := hr
  exact (hf a b s1' s2' hon hq).mono fun _ _ _ _ hq' => ⟨hon.trans hq'.1, hq'.2⟩

theorem Marches.bind {act1 : StmtM α'} {act2 : StmtM β'} {f1 : α' → StmtM α} {f2 : β' → StmtM β}
    {P : TypeTable → TypeTable → α' → β' → Prop} (h : Marches p act1 s1 act2 s2 P)
    (hf : ∀ a b s1' s2', Abreast p s1 s2 s1' s2' → P s1'.types s2'.types a b →
      Marches p (f1 a) s1' (f2 b) s2' Q) :
    Marches p (act1 >>= f1) s1 (act2 >>= f2) s2 Q := by
  refine Concurs.bind (Concurs.mono h (fun a s1' b s2' hr => ?_) fun _ _ _ _ hr => hr)
  obtain ⟨hon, hq⟩ := hr
  exact (hf a b s1' s2' hon hq).mono (fun _ _ _ _ hq' => ⟨hon.trans hq'.1, hq'.2⟩)
    fun _ _ _ _ hr => ⟨hon.trans hr.1, hr.2⟩

theorem Parallel.lift {act1 : LowerM α} {act2 : LowerM β} (h : Parallel p act1 s1 act2 s2 Q) :
    Marches p (liftM act1) s1 (liftM act2) s2 Q := (concurs_lift act1 act2).mpr h

/-- The diagnostic is a result. -/
theorem Marches.run {act1 : StmtM α} {act2 : StmtM β} (h : Marches p act1 s1 act2 s2 Q) :
    Parallel p act1.run s1 act2.run s2 fun t1 t2 => SameOutcome (Q t1 t2) (Diagnostic.Like p.exact) := by
  refine Jointly.mono h fun r s r' t hr => ?_
  cases hr with
  | ok hq => exact ⟨hq.1, .ok hq.2⟩
  | error hd => exact ⟨hd.1, .error hd.2⟩

section

variable (hs : s1.Like p s2)
include hs

theorem parallel_pure {a : α} {b : β} (h : Q s1.types s2.types a b) :
    Parallel p (pure a) s1 (pure b) s2 Q := (jointly_pure a b).mpr ⟨hs.abreast hs rfl rfl, h⟩

theorem marches_pure {a : α} {b : β} (h : Q s1.types s2.types a b) :
    Marches p (pure a) s1 (pure b) s2 Q := (concurs_pure a b).mpr ⟨hs.abreast hs rfl rfl, h⟩

theorem marches_throw (h : d.Like p.exact d') : Marches p (throw d) s1 (throw d') s2 Q :=
  (concurs_throw d d').mpr ⟨hs.abreast hs rfl rfl, h⟩

/-- Something is type checked in both runs. -/
theorem checked_marches {file : FileId} {act1 : Env → CheckM α} {act2 : Env → CheckM β}
    (h : Tallies p.exact (act1 (s1.env cfg1.gate file)) s1.typing (act2 (s2.env cfg2.gate file)) s2.typing Q) :
    Marches p (checked cfg1 file act1) s1 (checked cfg2 file act2) s2 Q := by
  refine concurs_checked (Concurs.mono h (fun a st b st' hq => ⟨?_, hq.2⟩) fun d st d' st' hr => ⟨?_, hr.2⟩)
  · exact ⟨hs.withTyping hq.1.1 hq.1.2, hq.1.1, hq.1.2⟩
  · exact ⟨hs.withTyping hr.1.1 hr.1.2, hr.1.1, hr.1.2⟩

theorem parallel_ask {f1 : Context → Except Fault α} {f2 : Context → Except Fault β}
    (h : ∀ a, f1 s1.context = .ok a → ∀ b, f2 s2.context = .ok b → Q s1.types s2.types a b) :
    Parallel p (ask f1) s1 (ask f2) s2 Q :=
  (jointly_ask f1 f2 _).mpr fun a ha b hb => ⟨hs.abreast hs rfl rfl, h a ha b hb⟩

theorem parallel_typeName (hab : s1.types.Alike s2.types a b) :
    Parallel p (typeName a) s1 (typeName b) s2 fun _ _ => Eq := by
  simp only [Parallel, typeName, jointly_onTyping, Typing.nameOf, Typing.ask, Typing.settle, jointly_bind, jointly_get,
    jointly_ofExcept]
  intro name hname name' hname'
  have heq := hab.name_eq hs.types.left hs.types.right
  refine ⟨hs.abreast hs rfl rfl, ?_⟩
  rw [State.typing] at hname hname'
  rw [heq, hname'] at hname
  exact (Except.ok.inj hname).symm

theorem parallel_newVar (hab : s1.types.Alike s2.types a b) (name : String) :
    Parallel p (newVar a name) s1 (newVar b name) s2 fun _ _ => p.vars := by
  simpa [Parallel, Jointly] using ⟨hs.abreast (hs.addVar hab name) rfl rfl, hs.vars.next⟩

theorem parallel_newBlock : Parallel p newBlock s1 newBlock s2 fun _ _ => p.blocks :=
  (jointly_newBlock _).mpr ⟨hs.abreast hs.addBlock rfl rfl, hs.blocks.next⟩

theorem parallel_emit {b : BlockId} (hbc : p.blocks b c) (hxy : x.Like (s1.types.Alike s2.types) p y) :
    Parallel p (emit b x) s1 (emit c y) s2 fun _ _ _ _ => True := by
  simpa [Parallel, Jointly] using fun _ _ => hs.abreast (hs.append hbc hxy) rfl rfl

theorem parallel_terminate {b : BlockId} (hbc : p.blocks b c) {x y : Terminator}
    (hxy : x.Like (s1.types.Alike s2.types) p y) :
    Parallel p (terminate b x) s1 (terminate c y) s2 fun _ _ _ _ => True := by
  simpa [Parallel, Jointly] using fun _ _ => hs.abreast (hs.close hbc hxy) rfl rfl

theorem parallel_bindName {v w : VarId} (hvw : p.vars v w) (name : String) :
    Parallel p (bindName name v) s1 (bindName name w) s2 fun _ _ _ _ => True := by
  simpa [Parallel, Jointly] using fun _ _ => hs.abreast (hs.bind hvw name) rfl rfl

theorem parallel_report (hd : d.Like p.exact d') :
    Parallel p (report cfg1 d) s1 (report cfg2 d') s2 fun _ _ _ _ => True :=
  (jointly_report d d' _).mpr ⟨hs.abreast (hs.reported hd cfg1 cfg2) rfl rfl, trivial⟩

theorem parallel_limitReached (hl : p.Limits cfg1 cfg2) :
    Parallel p (limitReached cfg1) s1 (limitReached cfg2) s2 fun _ _ => Eq := by
  simpa [Parallel, Jointly] using ⟨hs.abreast hs rfl rfl, hs.atLimit_iff hl⟩

theorem parallel_lookup? (name : String) :
    Parallel p (lookup? name) s1 (lookup? name) s2 fun _ _ => Option.Rel p.vars := by
  simpa [Parallel, Jointly] using ⟨hs.abreast hs rfl rfl, hs.scopes.lookup? name⟩

theorem parallel_inScope {act1 : LowerM α} {act2 : LowerM β}
    (h : ∀ s1' s2', Abreast p s1 s2 s1' s2' → Parallel p act1 s1' act2 s2' Q) :
    Parallel p (inScope act1) s1 (inScope act2) s2 Q := by
  have hpush := hs.abreast hs.enter rfl rfl
  simp only [Parallel, inScope, jointly_bind, jointly_pushScope, jointly_pure]
  refine Jointly.mono (h _ _ hpush) fun a s1' b s2' hr => ?_
  obtain ⟨hon, hq⟩ := hr
  have hpop := hpush.trans (hon.trans (hon.like.abreast hon.like.leave rfl rfl))
  simpa [Jointly] using fun _ _ => ⟨hpop, hq⟩

end

end Lowering

end BlockCompiler
