/-
  BlockCompiler.Proofs.Expr — lowering an expression gives a typed value that mirrors it.

  `Mirrors σ file e v`: the value `v` has the shape of the expression `e`. Literals are the
  same, a name has become a variable or a function of that name, operators, fields and
  arguments stand in their places, and casts go to the type that was written.

  In a sound environment lowering ends (`lowerExpr_judges`). It rejects with an error, or
  gives a value all of whose handles were issued. If moreover no variable in force has the
  type `invalid` (`Env.Clean`), the value has a type other than `invalid` and mirrors the
  expression, and in an acyclic table it is typed.
-/
import BlockCompiler.Proofs.ValueTyping

namespace BlockCompiler

open Interner (get?_of_lt get_eq_ok)
open TypeTable (Grows Sound StandsFor Acyclic)
open Typing (Adds)
open Surface (Expr TypeExpr)

variable {st : Typing} {e : Expr} {t t' : TypeTable} {v : Value} {id : TypeId}
  {file : FileId} {ty : TypeId} {span : Span} {callee operand : Value} {args vs : List Value}
  {R : Diagnostic → Typing → Prop} {d : Diagnostic} {ps : List Parameter}

/-! ## Environments -/

/-- All types of a signature are proper. -/
def Signature.Proper (t : TypeTable) (s : Signature) : Prop := ∀ m ∈ (Ty.func s).mentions, t.Proper m

theorem Signature.Proper.grows (hg : Grows t t') {s : Signature} (h : s.Proper t) : s.Proper t' :=
  fun m hm => (h m hm).grows hg

/-- Names stand for variables and functions of that name. -/
structure Env.Sound (env : Env) (t : TypeTable) : Prop where
  locals : ∀ name v, env.local? name = some v →
    ∃ var, env.vars.get? v = some var ∧ var.name = name ∧ var.ty.index < t.size
  functions : ∀ name fn, env.function? name = some fn →
    ∃ f, env.funs.get? fn = some f ∧ f.name = name ∧ f.signature.Proper t

theorem Env.Sound.grows {env : Env} (hg : Grows t t') (h : env.Sound t) : env.Sound t' := by
  refine ⟨fun name v hv => ?_, fun name fn hfn => ?_⟩
  · obtain ⟨var, hvar, hn, hlt⟩ := h.locals name v hv
    exact ⟨var, hvar, hn, Nat.lt_of_lt_of_le hlt hg.size_le⟩
  · obtain ⟨f, hf, hn, hp⟩ := h.functions name fn hfn
    exact ⟨f, hf, hn, hp.grows hg⟩

/-- No variable in force has the type `invalid`. -/
def Env.Clean (env : Env) : Prop :=
  ∀ name v var, env.local? name = some v → env.vars.get? v = some var → var.ty ≠ TypeId.invalid

theorem Env.site_extends (env : Env) {st' : Typing} (h : st.Adds st') (params : List Parameter) :
    (env.site st.types params).Extends (env.site st'.types params) :=
  ⟨h.grows, fun _ _ hv => hv, fun _ f hf => ⟨f, hf, rfl, rfl⟩, rfl⟩

/-! ## Values that mirror expressions -/

/-- An annotation stands for a type of the table. -/
def Resolves (t : TypeTable) (file : FileId) (ty : TypeExpr) (id : TypeId) : Prop :=
  ∃ st st', ( Annotation.resolve file ty).run st = .ok (.ok id) st' ∧ Grows st'.types t

theorem Resolves.grows (hg : Grows t t') {ty : TypeExpr} (h : Resolves t file ty id) : Resolves t' file ty id := by
  obtain ⟨st, st', he, hg'⟩ := h
  exact ⟨st, st', he, hg'.trans hg⟩

inductive Mirrors (σ : Site) (file : FileId) : Expr → Value → Prop
  | int {n : UInt64} {s : Surface.IntType} {span : Span} :
      Mirrors σ file (.int n (some s) span) (.int n (TypeId.int s.signed s.width.bits) span)
  | plainInt {n : UInt64} {span : Span} : Mirrors σ file (.int n none span) (.int n TypeId.i32 span)
  | float {bits : UInt64} {double : Bool} {span : Span} :
      Mirrors σ file (.float bits double span) (.float bits (TypeId.float double) span)
  | bool {b : Bool} {span : Span} : Mirrors σ file (.bool b span) (.bool b TypeId.bool span)
  | unit {span : Span} : Mirrors σ file (.unit span) (.unit TypeId.unit span)
  | var {name : String} {v : VarId} {var : Variable} {span : Span} : σ.vars.get? v = some var → var.name = name →
      Mirrors σ file (.name name span) (.var v var.ty span)
  | func {name : String} {fn : FunId} {f : Function} {ty : TypeId} {span : Span} : σ.funs.get? fn = some f →
      f.name = name → Mirrors σ file (.name name span) (.func fn ty span)
  | binary {l r : Expr} {lhs rhs : Value} {op : Operator} {ty : TypeId} {span span' : Span} :
      Mirrors σ file l lhs → Mirrors σ file r rhs → Mirrors σ file (.binary l op r span) (.binary lhs op rhs ty span')
  | unary {e : Expr} {v : Value} {op : Operator} {ty : TypeId} {span span' : Span} : Mirrors σ file e v →
      Mirrors σ file (.unary op e span) (.unary op v ty span')
  | cast {e : Expr} {v : Value} {target : TypeExpr} {ty : TypeId} {span : Span} : Mirrors σ file e v →
      Resolves σ.types file target ty → Mirrors σ file (.cast e target span) (.cast v ty span)
  | inject {e : Expr} {v : Value} {target : TypeExpr} {d : VariantId} {ty : TypeId} {span : Span} :
      Mirrors σ file e v → Resolves σ.types file target ty →
      Mirrors σ file (.cast e target span) (.inject d v ty span)
  | member {e : Expr} {v : Value} {s : TypeId} {fields : List Field} {i : Nat} {field : Field} {span : Span} :
      Mirrors σ file e v → StandsFor σ.types v.ty s → σ.types.get? s = some (.struct fields) →
      fields[i]? = some field → Mirrors σ file (.member e field.name span) (.member v i field.ty span)
  | call {e : Expr} {v : Value} {es : List Expr} {vs : List Value} {ty : TypeId} {span : Span} :
      Mirrors σ file e v → es.length = vs.length →
      (∀ (i : Nat) (e' : Expr) (v' : Value), es[i]? = some e' → vs[i]? = some v' → Mirrors σ file e' v') →
      Mirrors σ file (.call e es span) (.call v vs ty span)

theorem Mirrors.extends {σ σ' : Site} (he : σ.Extends σ') (h : Mirrors σ file e v) : Mirrors σ' file e v := by
  induction h with
  | int => exact .int
  | plainInt => exact .plainInt
  | float => exact .float
  | bool => exact .bool
  | unit => exact .unit
  | var hv hn => exact .var (he.vars _ _ hv) hn
  | func hf hn =>
    obtain ⟨f', hf', hname, -⟩ := he.funs _ _ hf
    exact .func hf' (hname.trans hn)
  | binary _ _ ihl ihr => exact .binary ihl ihr
  | unary _ ih => exact .unary ih
  | cast _ hr ih => exact .cast ih (hr.grows he.types)
  | inject _ hr ih => exact .inject ih (hr.grows he.types)
  | member _ hs hf hi ih => exact .member ih (hs.grows he.types) (he.types _ _ hf) hi
  | call _ hl _ ih ihs => exact .call ih hl ihs

/-! ## What lowering an expression gives -/

structure Lowered (params : List Parameter) (env : Env) (st : Typing) (e : Expr) (v : Value) (st' : Typing) :
    Prop where
  start : Sound st.types
  adds : st.Adds st'
  within : v.Within (env.site st'.types params)
  clean : env.Clean → v.ty ≠ TypeId.invalid
  mirrors : env.Clean → Mirrors (env.site st'.types params) env.file e v
  typed : Acyclic st.types → env.Clean → v.Typed (env.site st'.types params)

namespace Lowered

variable {params : List Parameter} {env : Env} {st st1 st2 : Typing} {e : Expr} {v : Value}

theorem later (h : Lowered params env st e v st1) (ha : st1.Adds st2) : Lowered params env st e v st2 := by
  have hext := env.site_extends ha params
  exact ⟨h.start, h.adds.trans ha, h.within.extends hext, h.clean, fun hc => (h.mirrors hc).extends hext,
    fun hacyc hc => (h.typed hacyc hc).extends hext⟩

theorem earlier (hs : Sound st.types) (ha : st.Adds st1) (h : Lowered params env st1 e v st2) :
    Lowered params env st e v st2 :=
  ⟨hs, ha.trans h.adds, h.within, h.clean, h.mirrors, fun hacyc => h.typed (hacyc.adds hs ha)⟩

/-- With something `invalid` in force, nothing is said beyond the handles. -/
theorem dirty (hs : Sound st.types) (ha : st.Adds st1) (hw : v.Within (env.site st1.types params))
    (hd : ¬ env.Clean) : Lowered params env st e v st1 :=
  ⟨hs, ha, hw, fun hc => absurd hc hd, fun hc => absurd hc hd, fun _ hc => absurd hc hd⟩

theorem ty_lt (h : Lowered params env st e v st1) : v.ty.index < st1.types.size := h.within.ty_lt

end Lowered

namespace Value.Within

variable {σ : Site}

/-- A node with one part. -/
theorem above {w : Value} (hp : v.parts = [w]) (hv : v.Issued σ) (hw : w.Within σ) : v.Within σ :=
  within_iff.mpr ⟨hv, hp ▸ List.forall_mem_singleton.mpr hw⟩

theorem binary {l r : Value} {op : Operator} (hty : ty.index < σ.types.size) (hl : l.Within σ) (hr : r.Within σ) :
    (Value.binary l op r ty span).Within σ :=
  within_iff.mpr ⟨⟨hty, trivial⟩, List.forall_mem_cons.mpr ⟨hl, List.forall_mem_singleton.mpr hr⟩⟩

theorem call (hty : ty.index < σ.types.size) (hc : callee.Within σ) (ha : ∀ a ∈ args, a.Within σ) :
    (Value.call callee args ty span).Within σ :=
  within_iff.mpr ⟨⟨hty, trivial⟩, List.forall_mem_cons.mpr ⟨hc, ha⟩⟩

theorem leaf (hp : v.parts = []) (hv : v.Issued σ) : v.Within σ :=
  within_iff.mpr ⟨hv, hp ▸ List.forall_mem_nil _⟩

end Value.Within

namespace Lowering

open Annotation (Refused judges_after)

@[simp] theorem settle_judges {α : Type} (r : Except Fault α) (Q : α → Typing → Prop) (R : Diagnostic → Typing → Prop) :
    Judges (Check.settle r) st Q R ↔ ∃ a, r = .ok a ∧ Q a st := by
  simp [Check.settle]

@[simp] theorem ask_judges {α : Type} (f : TypeTable → Except Fault α) (Q : α → Typing → Prop)
    (R : Diagnostic → Typing → Prop) : Judges (Check.ask f) st Q R ↔ ∃ a, f st.types = .ok a ∧ Q a st := by
  simp [Check.ask]

variable {α : Type} {Q : α → Typing → Prop} {params : List Parameter} {env : Env} {st st1 st2 : Typing}

theorem nameOf_judges (hs : Sound st.types) (h : id.index < st.types.size) {f : String → CheckM α}
    (hf : ∀ name, Judges (f name) st Q R) : Judges (liftM (Typing.nameOf id) >>= f) st Q R := by
  rw [judges_bind, judges_lift]
  refine (Typing.nameOf_ends hs h).mono fun name st' he => ?_
  rw [he]
  exact hf name

theorem typeAt_judges (h : id.index < st.types.size) {f : Ty → CheckM α}
    (hf : ∀ ty, st.types.get? id = some ty → Judges (f ty) st Q R) : Judges (liftM (Typing.typeAt id) >>= f) st Q R := by
  obtain ⟨ty, hty⟩ := get?_of_lt h
  rw [judges_bind, judges_lift]
  exact (Typing.ask_ends _ _).mpr ⟨ty, get_eq_ok.mpr hty, hf ty hty⟩

theorem throw_judges (ha : st.Adds st1) (h : d.isError = true) : Judges (throw d : CheckM α) st1 Q (Refused st) :=
  (judges_throw ..).mpr ⟨ha, h⟩

theorem suggesting_isError (h : d.isError = true) (lead : String) (found : Option String) :
    (suggesting d lead found).isError = true := by
  unfold suggesting
  split
  · split <;> exact h
  · exact h

/-! ### Names -/

theorem access_judges (hs : Sound st.types) (he : env.Sound st.types) (name : String) (span : Span) :
    Judges (access env name span) st (Lowered params env st (.name name span)) (Refused st) := by
  unfold access
  split
  · rename_i v hv
    obtain ⟨var, hvar, hn, hlt⟩ := he.locals name v hv
    simp only [judges_bind, settle_judges, judges_pure]
    refine ⟨var, Arena.get_eq_ok.mpr hvar, hs, Adds.refl hs, ?_, fun hc => hc name v var hv hvar,
      fun _ => .var hvar hn, fun _ hc => .var hvar (hc name v var hv hvar) hlt⟩
    exact .leaf rfl ⟨hlt, Arena.get?_lt hvar⟩
  · split
    · rename_i fn hfn
      obtain ⟨f, hf, hn, hp⟩ := he.functions name fn hfn
      simp only [judges_bind, settle_judges, judges_lift, judges_pure]
      refine ⟨f, Arena.get_eq_ok.mpr hf, ?_⟩
      refine (Typing.intern_ends hs rfl (by simp) hp).mono fun id st' h => ?_
      obtain ⟨hadds, hget, hproper⟩ := h
      refine ⟨hs, hadds, ?_, fun _ => hproper.2, fun _ => .func hf hn, fun _ _ => .func hf hget⟩
      exact .leaf rfl ⟨hproper.1, Arena.get?_lt hf⟩
    · exact throw_judges (Adds.refl hs) (suggesting_isError rfl _ _)

/-! ### Operators -/

theorem typedBinary_judges {l r : Expr} {lhs rhs : Value} (op : Operator) (span : Span)
    (hl : Lowered params env st l lhs st1) (hr : Lowered params env st r rhs st1) :
    Judges (typedBinary env lhs op rhs) st1 (Lowered params env st (.binary l op r span)) (Refused st) := by
  have hs := hl.adds.sound
  unfold typedBinary
  dsimp only
  split
  · rename_i hbad
    simp only [judges_pure]
    exact .dirty hl.start hl.adds (.binary hs.invalid_lt hl.within hr.within) fun hc =>
      hbad.elim (hl.clean hc) (hr.clean hc)
  · refine typeAt_judges hl.ty_lt fun lt hlt => typeAt_judges hr.ty_lt fun rt hrt => ?_
    split
    · rename_i ty hty
      have hrow := Operator.binary_of_binaryType? hlt hrt hty
      have hproper := hrow.proper hs
      simp only [judges_pure]
      exact ⟨hl.start, hl.adds, .binary hproper.1 hl.within hr.within, fun _ => hproper.2,
        fun hc => .binary (hl.mirrors hc) (hr.mirrors hc),
        fun ha hc => .binary (hl.typed ha hc) (hr.typed ha hc) hrow⟩
    · refine nameOf_judges hs hl.ty_lt fun ln => nameOf_judges hs hr.ty_lt fun rn => ?_
      rw [judges_bind, judges_lift]
      exact (Typing.note_adds hs _ _ _ _).mono fun _ st2 h2 => throw_judges (hl.adds.trans h2) rfl

theorem typedUnary_judges (op : Operator) (span : Span) (h : Lowered params env st e operand st1) :
    Judges (typedUnary env op operand) st1 (Lowered params env st (.unary op e span)) (Refused st) := by
  have hs := h.adds.sound
  unfold typedUnary
  split
  · rename_i hbad
    simp only [judges_pure]
    exact .dirty h.start h.adds (.above rfl ⟨hs.invalid_lt, trivial⟩ h.within) fun hc =>
      h.clean hc hbad
  · rename_i hne
    refine typeAt_judges h.ty_lt fun ty hty => ?_
    split
    · rename_i r hr
      have hrow := Operator.unary_of_unaryType? hty hr
      have hproper := hrow.proper hs
      simp only [judges_pure]
      exact ⟨h.start, h.adds, .above rfl ⟨hproper.1, trivial⟩ h.within, fun _ => hproper.2,
        fun hc => .unary (h.mirrors hc), fun ha hc => .unary (h.typed ha hc) hrow⟩
    · rename_i hop
      have hbit := Operator.eq_bitAnd_of_unaryType? hop
      subst hbit
      simp only [judges_bind, judges_lift, judges_pure]
      have hm : ∀ m ∈ (Ty.ptr operand.ty).mentions, st1.types.Proper m := by
        simp only [Ty.mentions, List.mem_singleton]
        rintro m rfl
        exact ⟨h.ty_lt, hne⟩
      refine (Typing.intern_ends hs rfl (by simp) hm).mono fun id st2 h2 => ?_
      obtain ⟨hadds, hget, hproper⟩ := h2
      have h := h.later hadds
      exact ⟨h.start, h.adds, .above rfl ⟨hproper.1, trivial⟩ h.within, fun _ => hproper.2,
        fun hc => .unary (h.mirrors hc), fun ha hc => .unary (h.typed ha hc) (.address hget)⟩
    · refine nameOf_judges hs h.ty_lt fun name => ?_
      rw [judges_bind, judges_lift]
      exact (Typing.note_adds hs _ _ _ _).mono fun _ st2 h2 => throw_judges (h.adds.trans h2) rfl

/-! ### Casts and members -/

theorem castAllowed_ok (hs : Sound t) {a b : TypeId} (ha : a.index < t.size) (hb : b.index < t.size) :
    ∃ r, castAllowed t a b = .ok r := by
  obtain ⟨v, hv, hvl⟩ := hs.unwrapAlias ha
  obtain ⟨w, hw, hwl⟩ := hs.unwrapAlias hb
  obtain ⟨s, hs'⟩ := get?_of_lt hvl
  obtain ⟨g, hg⟩ := get?_of_lt hwl
  exact ⟨_, castAllowed_run hv hw hs' hg⟩

theorem typedCast_judges {written : TypeExpr} {target : TypeId} (span : Span) (h : Lowered params env st e operand st1)
    (ht : st1.types.Proper target) (hr : Resolves st1.types env.file written target) :
    Judges (typedCast env operand target span) st1 (Lowered params env st (.cast e written span)) (Refused st) := by
  have hs := h.adds.sound
  unfold typedCast
  split
  · rename_i hbad
    simp only [judges_pure]
    exact .dirty h.start h.adds (.above rfl ⟨hs.invalid_lt, trivial⟩ h.within) fun hc =>
      h.clean hc hbad
  · obtain ⟨found, hfound⟩ := hs.variant? ht.1 operand.ty
    simp only [judges_bind, ask_judges]
    refine ⟨found, hfound, ?_⟩
    cases found with
    | some d =>
      obtain ⟨variants, hres, hd⟩ := TypeTable.variant?_eq_some hfound
      obtain ⟨s, hst, hsum⟩ := TypeTable.standsFor_of_resolved hs hres (by simp)
      simp only [judges_pure]
      exact ⟨h.start, h.adds, .above rfl ⟨ht.1, trivial⟩ h.within, fun _ => ht.2,
        fun hc => .inject (h.mirrors hc) hr, fun ha hc => .inject (h.typed ha hc) hst hsum hd⟩
    | none =>
      obtain ⟨allowed, hallowed⟩ := castAllowed_ok hs h.ty_lt ht.1
      simp only [judges_bind, ask_judges]
      refine ⟨allowed, hallowed, ?_⟩
      split
      · rename_i hyes
        subst hyes
        simp only [judges_pure]
        refine ⟨h.start, h.adds, .above rfl ⟨ht.1, trivial⟩ h.within, fun _ => ht.2,
          fun hc => .cast (h.mirrors hc) hr, fun ha hc => .cast (h.typed ha hc) ?_ ht.2⟩
        exact converts_of_castAllowed hs (ha.adds h.start h.adds) h.ty_lt ht.1 hallowed
      · exact nameOf_judges hs h.ty_lt fun _ => nameOf_judges hs ht.1 fun _ => throw_judges h.adds rfl

theorem typedMember_judges {base : Value} (field : String) (span : Span) (h : Lowered params env st e base st1) :
    Judges (typedMember env base field span) st1 (Lowered params env st (.member e field span)) (Refused st) := by
  have hs := h.adds.sound
  obtain ⟨s, hunwrap, hsl⟩ := hs.unwrapAlias h.ty_lt
  unfold typedMember
  simp only [judges_bind, ask_judges]
  refine ⟨s, hunwrap, ?_⟩
  split
  · rename_i hbad
    simp only [judges_pure]
    exact .dirty h.start h.adds (.above rfl ⟨hs.invalid_lt, trivial⟩ h.within) fun hc =>
      h.clean hc hbad
  · refine typeAt_judges hsl fun ty hty => ?_
    split
    · rename_i fields
      have hst := TypeTable.standsFor_of_unwrapAlias hs hunwrap hty (by simp)
      split
      · rename_i i hi
        obtain ⟨f, hf, hname⟩ : ∃ f, fields[i]? = some f ∧ f.name = field := by
          obtain ⟨hlt, hp, -⟩ := List.findIdx?_eq_some_iff_getElem.mp hi
          exact ⟨fields[i], List.getElem?_eq_getElem hlt, by simpa using hp⟩
        have hproper : st1.types.Proper f.ty :=
          hs.proper_mention hty rfl (List.mem_map_of_mem (List.mem_of_getElem? hf))
        subst hname
        simp only [judges_pure, hf, Option.map_some, Option.getD_some]
        exact ⟨h.start, h.adds, .above rfl ⟨hproper.1, trivial⟩ h.within, fun _ => hproper.2,
          fun hc => .member (h.mirrors hc) hst hty hf, fun ha hc => .member (h.typed ha hc) hst hty hf⟩
      · exact nameOf_judges hs h.ty_lt fun _ => throw_judges h.adds (suggesting_isError rfl _ _)
    · exact nameOf_judges hs h.ty_lt fun _ => throw_judges h.adds rfl

/-! ### Calls -/

theorem mismatch?_some {p : Parameter} (h : mismatch? ps vs = some (p, v)) :
    p ∈ ps ∧ v ∈ vs ∧ assignable p.ty v.ty = false := by
  induction ps generalizing vs with
  | nil => cases vs <;> cases h
  | cons q ps ih =>
    cases vs with
    | nil => cases h
    | cons w vs =>
      simp only [mismatch?] at h
      split at h
      · obtain ⟨hp, hv, hnot⟩ := ih h
        exact ⟨.tail _ hp, .tail _ hv, hnot⟩
      · rename_i hnot
        cases h
        exact ⟨.head _, .head _, Bool.eq_false_iff.mpr hnot⟩

theorem eq_of_assignable {expected actual : TypeId} (h : assignable expected actual = true)
    (he : expected ≠ .invalid) (ha : actual ≠ .invalid) : expected = actual := by
  simpa [assignable, he, ha] using h

theorem types_eq_of_mismatch? (h : mismatch? ps vs = none) (hlen : ps.length = vs.length)
    (hp : ∀ p ∈ ps, p.ty ≠ .invalid) (hv : ∀ v ∈ vs, v.ty ≠ .invalid) : vs.map (·.ty) = ps.map (·.ty) := by
  induction ps generalizing vs with
  | nil => simpa using hlen.symm
  | cons p ps ih =>
    cases vs with
    | nil => simp at hlen
    | cons v vs =>
      simp only [mismatch?] at h
      split at h
      · rename_i ha
        have heq := eq_of_assignable ha (hp p (.head _)) (hv v (.head _))
        have hrest := ih h (by simpa using hlen) (fun q hq => hp q (.tail _ hq))
          fun w hw => hv w (.tail _ hw)
        simp only [List.map_cons, heq, hrest]
      · cases h

theorem typedCall_judges {es : List Expr} (span : Span) (h : Lowered params env st e callee st1)
    (ha : List.Forall₂ (fun e v => Lowered params env st e v st1) es args) :
    Judges (typedCall env callee args span) st1 (Lowered params env st (.call e es span)) (Refused st) := by
  have hs := h.adds.sound
  have hargs : ∀ v ∈ args, ∃ e, Lowered params env st e v st1 := fun v hv => by
    obtain ⟨i, hi⟩ := List.mem_iff_getElem?.mp hv
    obtain ⟨hlt, rfl⟩ := List.getElem?_eq_some_iff.mp hi
    exact ⟨_, ha.get (by rw [ha.length_eq]; exact hlt) hlt⟩
  have hwithin : ∀ v ∈ args, v.Within (env.site st1.types params) := fun v hv => (hargs v hv).choose_spec.within
  unfold typedCall
  split
  · rename_i hbad
    simp only [judges_pure]
    exact .dirty h.start h.adds (.call hs.invalid_lt h.within hwithin) fun hc => h.clean hc hbad
  · obtain ⟨ty, hty⟩ := hs.resolved h.ty_lt
    simp only [judges_bind, judges_lift]
    refine (Typing.ask_ends _ _).mpr ⟨ty, hty, ?_⟩
    split
    · rename_i signature
      obtain ⟨s, hst, hfunc⟩ := TypeTable.standsFor_of_resolved hs hty (by simp)
      have hproper : ∀ m ∈ (Ty.func signature).mentions, st1.types.Proper m := fun m hm =>
        hs.proper_mention hfunc rfl hm
      have hresult := hproper signature.result (.head _)
      have hparam : ∀ p ∈ signature.params, st1.types.Proper p.ty := fun p hp =>
        hproper p.ty (.tail _ (List.mem_map_of_mem hp))
      split
      · exact nameOf_judges hs h.ty_lt fun _ => throw_judges h.adds rfl
      · rename_i hlen
        split
        · rename_i hnone
          simp only [judges_pure]
          refine ⟨h.start, h.adds, .call hresult.1 h.within hwithin, fun _ => hresult.2, fun hc => ?_, fun hac hc => ?_⟩
          · refine .call (h.mirrors hc) ha.length_eq fun i e' v' he' hv' => ?_
            obtain ⟨hi, rfl⟩ := List.getElem?_eq_some_iff.mp he'
            obtain ⟨hj, rfl⟩ := List.getElem?_eq_some_iff.mp hv'
            exact (ha.get hi hj).mirrors hc
          · refine .call (h.typed hac hc) (fun a hain => ?_) hst hfunc ?_
            · exact (hargs a hain).choose_spec.typed hac hc
            · exact types_eq_of_mismatch? hnone (Decidable.of_not_not hlen) (fun p hp => (hparam p hp).2)
                fun v hv => (hargs v hv).choose_spec.clean hc
        · rename_i p v hsome
          obtain ⟨hp, hv, -⟩ := mismatch?_some hsome
          exact nameOf_judges hs (hparam p hp).1 fun _ => nameOf_judges hs (hwithin v hv).ty_lt fun _ => throw_judges h.adds rfl
    · exact nameOf_judges hs h.ty_lt fun _ => throw_judges h.adds rfl

/-! ### Expressions -/

mutual

theorem lowerExpr_judges (params : List Parameter) (env : Env) : ∀ (e : Expr) {st : Typing}, Sound st.types →
    env.Sound st.types → Judges (lowerExpr env e) st (Lowered params env st e) (Refused st)
  | .int n suffix span, st, hs, he => by
    cases suffix with
    | none =>
      simp only [lowerExpr, judges_pure]
      have h := hs.proper_prim (i := 2) (by omega)
      exact ⟨hs, Adds.refl hs, .leaf rfl ⟨h.1, trivial⟩, fun _ => h.2, fun _ => .plainInt,
        fun _ _ => .int (hs.primitive 2 _ rfl)⟩
    | some s =>
      simp only [lowerExpr, judges_pure]
      have h := hs.proper_int s.signed s.width.bits
      exact ⟨hs, Adds.refl hs, .leaf rfl ⟨h.1, trivial⟩, fun _ => h.2, fun _ => .int,
        fun _ _ => .int (hs.get?_int s)⟩
  | .float bits double span, st, hs, he => by
    simp only [lowerExpr, judges_pure]
    have h := hs.proper_float double
    exact ⟨hs, Adds.refl hs, .leaf rfl ⟨h.1, trivial⟩, fun _ => h.2, fun _ => .float,
      fun _ _ => .float (hs.get?_float double)⟩
  | .bool b span, st, hs, he => by
    simp only [lowerExpr, judges_pure]
    have h := hs.proper_prim (i := 8) (by omega)
    exact ⟨hs, Adds.refl hs, .leaf rfl ⟨h.1, trivial⟩, fun _ => h.2, fun _ => .bool,
      fun _ _ => .bool⟩
  | .unit span, st, hs, he => by
    simp only [lowerExpr, judges_pure]
    have h := hs.proper_prim (i := 9) (by omega)
    exact ⟨hs, Adds.refl hs, .leaf rfl ⟨h.1, trivial⟩, fun _ => h.2, fun _ => .unit,
      fun _ _ => .unit⟩
  | .name name span, st, hs, he => by
    simp only [lowerExpr]
    exact access_judges hs he name span
  | .binary l op r span, st, hs, he => by
    simp only [lowerExpr]
    refine (lowerExpr_judges params env l hs he).then fun lhs st1 hl => ?_
    have hrhs := lowerExpr_judges params env r hl.adds.sound (he.grows hl.adds.grows)
    refine (judges_after hl.adds hrhs).then fun rhs st2 hr => ?_
    exact typedBinary_judges op span (hl.later hr.adds) (hr.earlier hs hl.adds)
  | .unary op operand span, st, hs, he => by
    simp only [lowerExpr]
    refine (lowerExpr_judges params env operand hs he).then fun v st1 h => ?_
    exact typedUnary_judges op span h
  | .cast operand target span, st, hs, he => by
    simp only [lowerExpr]
    refine (lowerExpr_judges params env operand hs he).then fun v st1 h => ?_
    have htarget := judges_after h.adds ( Annotation.resolve_judges env.file target h.adds.sound)
    rw [judges_bind]
    refine htarget.traced.mono (fun id st2 hid => ?_) fun _ _ hd => hd.2
    exact typedCast_judges span (h.later hid.2.1) hid.2.2 ⟨st1, st2, hid.1, Grows.refl _⟩
  | .member base field span, st, hs, he => by
    simp only [lowerExpr]
    refine (lowerExpr_judges params env base hs he).then fun v st1 h => ?_
    exact typedMember_judges field span h
  | .call callee args span, st, hs, he => by
    simp only [lowerExpr]
    refine (lowerExpr_judges params env callee hs he).then fun v st1 h => ?_
    have hargs := lowerArgs_judges params env args h.adds.sound (he.grows h.adds.grows)
    refine (judges_after h.adds hargs).then fun vs st2 hvs => ?_
    exact typedCall_judges span (h.later hvs.1) (hvs.2.imp fun _ _ hv => hv.earlier hs h.adds)

theorem lowerArgs_judges (params : List Parameter) (env : Env) : ∀ (es : List Expr) {st : Typing}, Sound st.types →
    env.Sound st.types → Judges (lowerArgs env es) st
      (fun vs st' => st.Adds st' ∧ List.Forall₂ (fun e v => Lowered params env st e v st') es vs) (Refused st)
  | [], st, hs, he => by
    simp only [lowerArgs, judges_pure]
    exact ⟨Adds.refl hs, .nil⟩
  | e :: rest, st, hs, he => by
    simp only [lowerArgs]
    refine (lowerExpr_judges params env e hs he).then fun v st1 h => ?_
    have hrest := lowerArgs_judges params env rest h.adds.sound (he.grows h.adds.grows)
    refine (judges_after h.adds hrest).then fun vs st2 hvs => ?_
    exact (judges_pure _).mpr ⟨h.adds.trans hvs.1, .cons (h.later hvs.1) (hvs.2.imp fun _ _ hv => hv.earlier hs h.adds)⟩

end

end Lowering

end BlockCompiler
