/-
  BlockCompiler.Proofs.Canonical — annotations and the handles of their types.

  The compiler compares types by handle, so a handle must stand for one annotation and an annotation
  for one handle, whatever happened to the context before and in between.

  (1) A compilation is a sequence of requests: changes to the context by hand, with any handles, and
      steps of lowering (`Request`). No request brings a type into the table twice, and each keeps the
      entries that are there, but for what aliases stand for (`Continues`).
  (2) A type is unfolded into an annotation without spans, which stops at names (`Unfolds`). It has at
      most one unfolding, and in a keyed table no two handles have the same (`Unfolds.inj`).
  (3) Resolving an annotation decides whether it is valid, and gives a handle that unfolds to it
      (`resolve_decides`).
  (4) So the handle of an annotation is a canonical encoding of it (`resolveType_canonical`).
-/
import BlockCompiler.Proofs.Contexts
import BlockCompiler.Proofs.Development

namespace BlockCompiler

open Surface

variable {id : TypeId} {ty : Ty} {c c' : Context} {P : TypeTable → Prop} {r : Request} {cfg : Settings} {s : State}
  {st : Typing} {N : Prop}

/-! ## (1) Requests -/

namespace TypeTable

/-- The table comes from an earlier one whose entries it has, but for what aliases stand for. -/
structure Continues (t t' : TypeTable) : Prop where
  keyed : t'.Keyed
  entries : ∀ id ty, t.get? id = some ty → ∃ ty', t'.get? id = some ty' ∧ ty'.key = ty.key

namespace Continues

variable {t t' t'' : TypeTable}

theorem refl (h : t.Keyed) : t.Continues t := ⟨h, fun _ ty hty => ⟨ty, hty, rfl⟩⟩

section

variable (h : t.Continues t')
include h

theorem trans (h' : t'.Continues t'') : t.Continues t'' := by
  refine ⟨h'.keyed, fun id ty hty => ?_⟩
  obtain ⟨ty1, hty1, hkey1⟩ := h.entries id ty hty
  obtain ⟨ty2, hty2, hkey2⟩ := h'.entries id ty1 hty1
  exact ⟨ty2, hty2, hkey2.trans hkey1⟩

theorem insert (ty : Ty) : t.Continues (t'.insert ty).2 :=
  h.trans ⟨h.keyed.insert ty, fun id ty' hty' => ⟨ty', insert_grows t' ty id ty' hty', rfl⟩⟩

theorem defineAlias {u : TypeId} (hdefine : t'.defineAlias id u = .ok t'') : t.Continues t'' := by
  refine h.trans ⟨h.keyed.defineAlias hdefine, fun id' ty hty => ?_⟩
  obtain ⟨name, hid, -, hget⟩ := get?_of_defineAlias hdefine
  by_cases heq : id' = id
  · rw [heq, hid] at hty
    cases hty
    exact ⟨.named name u, by rw [hget, if_pos heq], rfl⟩
  · exact ⟨ty, by rw [hget, if_neg heq, hty], rfl⟩

theorem entry (hty : t.get? id = some ty) (hn : ty.isNamed = false) : t'.get? id = some ty := by
  obtain ⟨ty', hty', hkey⟩ := h.entries id ty hty
  rwa [Ty.eq_of_key_eq hn hkey] at hty'

theorem named {id u : TypeId} {name : String} (hty : t.get? id = some (.named name u)) :
    ∃ u', t'.get? id = some (.named name u') := by
  obtain ⟨ty', hty', hkey⟩ := h.entries id _ hty
  cases ty' with
  | named name' u' =>
    obtain rfl : name' = name := by simpa [Ty.key] using hkey
    exact ⟨u', hty'⟩
  | _ => simp [Ty.key] at hkey

end

end Continues

end TypeTable

/-- Interning and defining keep what holds of a table. -/
structure TypeTable.Kept (P : TypeTable → Prop) : Prop where
  insert : ∀ {t : TypeTable} (ty : Ty), P t → P (t.insert ty).2
  define : ∀ {t t' : TypeTable} {id u : TypeId}, P t → t.defineAlias id u = .ok t' → P t'

theorem TypeTable.Keyed.kept : TypeTable.Kept TypeTable.Keyed :=
  ⟨fun ty h => h.insert ty, fun h hdefine => h.defineAlias hdefine⟩

theorem TypeTable.Continues.kept (t : TypeTable) : TypeTable.Kept t.Continues :=
  ⟨fun ty h => h.insert ty, fun h hdefine => h.defineAlias hdefine⟩

open Lowering

theorem Context.Develops.types (hP : TypeTable.Kept P) {N : String → Prop} (h : c.Develops N c') (hc : P c.types) :
    P c'.types := by
  induction h with
  | refl => exact hc
  | addType _ _ _ ih => exact hP.insert _ ih
  | declareAlias _ _ ih => exact hP.insert _ ih
  | defineAlias _ hdefine ih => exact hP.define ih hdefine
  | addVar _ _ ih => exact ih
  | addFun _ _ ih => exact ih
  | setFun _ _ ih => exact ih
  | setBlocks _ _ ih => exact ih

namespace Lowering

/-- What a compilation can be asked to do to its context. -/
inductive Request where
  /-- A change to the context by hand. -/
  | change (op : Context.Operation)
  | setBody (fn : FunId) (body : Body)
  | newLocal (name : String) (ty : TypeId)
  | resolveType (file : FileId) (ty : TypeExpr)
  | declareFun (file : FileId) (d : FunDecl)
  | lowerFunBody (fn : FunId) (body : List Stmt)
  | lowerExpr (file : FileId) (e : Expr)
  | lowerStmt (file : FileId) (fn : FunId) (x : Stmt) (b : BlockId)
  | lowerBlock (file : FileId) (fn : FunId) (body : List Stmt) (b : BlockId)
  | lowerModule (m : Module)

namespace Request

def run (cfg : Settings) : Request → LowerM Unit
  | change op => op.run cfg.gate
  | setBody fn body => Session.setBody fn body
  | newLocal name ty => do let _ ← Session.newLocal name ty
  | resolveType file ty => do let _ ← Lowering.resolveType cfg file ty
  | declareFun file d => do let _ ← (Lowering.declareFun cfg file d).run
  | lowerFunBody fn body => Lowering.lowerFunBody cfg fn body
  | lowerExpr file e => do let _ ← checking cfg file fun env => Lowering.lowerExpr env e
  | lowerStmt file fn x b => do let _ ← (Lowering.lowerStmt cfg file fn x b).run
  | lowerBlock file fn body b => do let _ ← Lowering.lowerBlock cfg file fn body b
  | lowerModule m => do let _ ← Lowering.lowerModule cfg m

/-- The state that a request leaves, with a result or with a fault. -/
def perform (r : Request) (cfg : Settings) (s : State) : State :=
  match r.run cfg s with
  | .ok _ s' => s'
  | .error _ s' => s'

end Request

end Lowering

/-- What requests make of a context. Names in force, settings and diagnostics may be any at each. -/
inductive Context.Becomes (c : Context) : Context → Prop
  | refl : Becomes c c
  | step {s : Lowering.State} (cfg : Settings) (r : Lowering.Request) : Becomes c s.context →
      Becomes c (r.perform cfg s).context

namespace Lowering

variable {P : TypeTable → Prop} {α : Type}

theorem keeps_operation (hP : TypeTable.Kept P) (gate : Log.Gate) (op : Context.Operation) :
    Keeps (fun s : State => P s.types) (op.run gate) Any := by
  have hintern : ∀ ty, Keeps (fun s : State => P s.types) (onTyping (Typing.intern ty)) Any := fun ty =>
    keeps_onTyping_of fun _ => keeps_modifyGet fun _ h => hP.insert ty h
  have hadmits : ∀ s : State, Typing.Admits Any fun st => P (s.withTyping st).types := fun s =>
    ⟨⟨fun h _ _ => hP.insert _ h, fun _ h => h⟩, fun h _ => hP.insert _ h, fun h hd => hP.define h hd⟩
  have hset : ∀ f : Context → Context, (∀ c, (f c).types = c.types) →
      Keeps (fun s : State => P s.types) (setContext f) Any := by
    intro f hf
    refine keeps_modify fun s hs => ?_
    rw [hf]
    exact hs
  have hnew : Keeps (fun s : State => P s.types) newBlock Any :=
    keeps_get.bind fun _ _ => (hset _ fun _ => rfl).bind fun _ _ => keeps_pure trivial
  cases op with
  | addType ty => exact (hintern ty).discard
  | declareAlias name =>
    exact (keeps_onTyping_of fun s => keeps_typingDeclare (hadmits s) gate trivial).discard
  | defineAlias id u => exact keeps_onTyping_of fun s => keeps_typingDefine (hadmits s) id u
  | addFun | addVar =>
    refine Keeps.discard (Q := Any) (keeps_get.bind fun _ _ => ?_)
    exact (hset _ fun _ => rfl).bind fun _ _ => keeps_pure trivial
  | changeFun | changeBlock => exact (keeps_ask _).bind fun _ _ => hset _ fun _ => rfl
  | addFunType fn => exact ((keeps_ask _).bind fun _ _ => hintern _).discard
  | addBlock block =>
    refine Keeps.discard (Q := Any) (hnew.bind fun _ _ => ?_)
    exact (hset _ fun _ => rfl).bind fun _ _ => keeps_pure trivial

/-- What develops every context keeps what interning and defining keep. -/
theorem keeps_of_develops (hP : TypeTable.Kept P) {act : LowerM α} (h : ∀ s₀, Keeps (From Any s₀) act Any) :
    Keeps (fun s : State => P s.types) act Any := by
  intro s hs
  have hact := h s s (.refl Any s)
  cases hr : act s with
  | ok a s' =>
    rw [hr] at hact
    exact ⟨hact.1.develops.types hP hs, trivial⟩
  | error f s' =>
    rw [hr] at hact
    exact hact.develops.types hP hs

namespace Request

/-- By hand, aliases are declared and defined at most. -/
def developing : Request → Bool
  | change (.declareAlias _) | change (.defineAlias _ _) => true
  | change _ => false
  | _ => true

theorem keeps_from (hr : r.developing = true) (cfg : Settings) (s₀ : State) : Keeps (From Any s₀) (r.run cfg) Any := by
  have hany : ∀ {names : List String}, ∀ n ∈ names, Any n := fun _ _ => trivial
  have hnamed : s₀.context.Named Any := ⟨fun _ _ _ _ _ => trivial, fun _ _ _ => trivial, fun _ _ _ _ => trivial⟩
  cases r with
  | change op =>
    cases op with
    | declareAlias name =>
      exact (keeps_onTyping_of fun s => keeps_typingDeclare (admits_from s) cfg.gate trivial).discard
    | defineAlias id u => exact keeps_onTyping_of fun s => keeps_typingDefine (admits_from s) id u
    | _ => cases hr
  | setBody fn body => exact (keeps_ask _).bind fun f _ => keeps_modify fun _ hs => ⟨hs.develops.setFun hany, hs.pointed⟩
  | resolveType file ty => exact (keeps_resolveType cfg file ty).discard
  | declareFun file d => exact Keeps.discard (keepsT_declareFun cfg file d hany).any
  | lowerFunBody fn body => exact keeps_lowerFunBody hany hnamed cfg fn body hany
  | lowerExpr file e => exact Keeps.discard (keepsT_checkedExpr cfg file e).any
  | lowerStmt file fn x b =>
    exact Keeps.discard (keepsT_lowerStmt hany cfg file fn x b hany).any
  | lowerBlock file fn body b =>
    exact (keeps_inScope (keeps_lowerStmts hany cfg file fn body _ hany)).discard
  | lowerModule m => exact (keeps_lowerModule hany hnamed cfg m hany).discard
  | newLocal name ty =>
    refine Keeps.discard (Q := Any) ?_
    exact (keeps_newVar ty trivial).bind fun _ _ => (keeps_bindName _ _).discard

theorem keeps (hP : TypeTable.Kept P) (cfg : Settings) (r : Request) :
    Keeps (fun s : State => P s.types) (r.run cfg) Any := by
  cases r with
  | change op => exact keeps_operation hP cfg.gate op
  | _ => exact keeps_of_develops hP (keeps_from rfl cfg)

theorem perform_of_keeps {I : State → Prop} (h : Keeps I (r.run cfg) Any) (hs : I s) : I (r.perform cfg s) := by
  have hrun := h s hs
  unfold perform
  split
  · rename_i he
    rw [he] at hrun
    exact hrun.1
  · rename_i he
    rw [he] at hrun
    exact hrun

end Request

end Lowering

/-- Whatever is asked, what interning and defining keep goes on to hold of the types. -/
theorem Context.Becomes.types (hP : TypeTable.Kept P) (h : c.Becomes c') (hc : P c.types) : P c'.types := by
  induction h with
  | refl => exact hc
  | @step s cfg r _ ih => exact Request.perform_of_keeps (Request.keeps hP cfg r) ih

theorem Context.Becomes.continues (h : c.Becomes c') (hc : c.types.Keyed) : c.types.Continues c'.types :=
  h.types (TypeTable.Continues.kept c.types) (.refl hc)

/-! ## (2) Unfolding -/

namespace Surface.TypeExpr

mutual

/-- The annotation without its spans. -/
def erased : TypeExpr → TypeExpr
  | int ty _ => int ty .none
  | float double _ => float double .none
  | bool _ => bool .none
  | unit _ => unit .none
  | ptr pointee _ => ptr pointee.erased .none
  | array element length _ => array element.erased length .none
  | struct fields _ => struct (erasedFields fields) .none
  | sum variants _ => sum (erasedAll variants) .none
  | func params result _ => func (erasedParams params) result.erased .none
  | named name _ => named name .none

def erasedAll : List TypeExpr → List TypeExpr
  | [] => []
  | ty :: rest => ty.erased :: erasedAll rest

def erasedFields : List (TypeExpr × String) → List (TypeExpr × String)
  | [] => []
  | (ty, name) :: rest => (ty.erased, name) :: erasedFields rest

def erasedParams : List (TypeExpr × Option String) → List (TypeExpr × Option String)
  | [] => []
  | (ty, name) :: rest => (ty.erased, name) :: erasedParams rest

end

mutual

/-- The annotation can be given a type where the aliases `D` are declared: every named type in it is
declared, no struct has two fields of one name, and no sum lists two variants that are the same up
to spans. -/
def Valid (D : String → Prop) : TypeExpr → Prop
  | int _ _ | float _ _ | bool _ | unit _ => True
  | ptr pointee _ => pointee.Valid D
  | array element _ _ => element.Valid D
  | struct fields _ => ValidFields D fields ∧ (fields.map (·.2)).Nodup
  | sum variants _ => ValidAll D variants ∧ (erasedAll variants).Nodup
  | func params result _ => result.Valid D ∧ ValidParams D params
  | named name _ => D name

def ValidAll (D : String → Prop) : List TypeExpr → Prop
  | [] => True
  | ty :: rest => ty.Valid D ∧ ValidAll D rest

def ValidFields (D : String → Prop) : List (TypeExpr × String) → Prop
  | [] => True
  | (ty, _) :: rest => ty.Valid D ∧ ValidFields D rest

def ValidParams (D : String → Prop) : List (TypeExpr × Option String) → Prop
  | [] => True
  | (ty, _) :: rest => ty.Valid D ∧ ValidParams D rest

end

end Surface.TypeExpr

namespace TypeTable

variable {t t' : TypeTable}

mutual

/-- The type, written out as an annotation without spans. Aliases stay names. -/
inductive Unfolds (t : TypeTable) : TypeId → TypeExpr → Prop
  | int {id : TypeId} {ty : IntType} : t.get? id = some (.int ty.signed ty.width.bits) → Unfolds t id (.int ty .none)
  | float {id : TypeId} {double : Bool} : t.get? id = some (.float double) → Unfolds t id (.float double .none)
  | bool {id : TypeId} : t.get? id = some .bool → Unfolds t id (.bool .none)
  | unit {id : TypeId} : t.get? id = some .unit → Unfolds t id (.unit .none)
  | ptr {id pointee : TypeId} {e : TypeExpr} : t.get? id = some (.ptr pointee) → Unfolds t pointee e →
      Unfolds t id (.ptr e .none)
  | array {id element : TypeId} {length : UInt64} {e : TypeExpr} : t.get? id = some (.array element length) →
      Unfolds t element e → Unfolds t id (.array e length .none)
  | struct {id : TypeId} {fs : List Field} {fields : List (TypeExpr × String)} : t.get? id = some (.struct fs) →
      fs.map (·.name) = fields.map (·.2) → UnfoldsAll t (fs.map (·.ty)) (fields.map (·.1)) →
      Unfolds t id (.struct fields .none)
  | sum {id : TypeId} {ids : List TypeId} {variants : List TypeExpr} : t.get? id = some (.sum ids) →
      UnfoldsAll t ids variants → Unfolds t id (.sum variants .none)
  | func {id : TypeId} {signature : Signature} {params : List (TypeExpr × Option String)} {e : TypeExpr} :
      t.get? id = some (.func signature) → Unfolds t signature.result e →
      signature.params.map (·.name) = params.map (·.2) →
      UnfoldsAll t (signature.params.map (·.ty)) (params.map (·.1)) → Unfolds t id (.func params e .none)
  | named {id : TypeId} {name : String} {underlying : TypeId} : t.get? id = some (.named name underlying) →
      Unfolds t id (.named name .none)

inductive UnfoldsAll (t : TypeTable) : List TypeId → List TypeExpr → Prop
  | nil : UnfoldsAll t [] []
  | cons {id : TypeId} {e : TypeExpr} {ids : List TypeId} {es : List TypeExpr} : Unfolds t id e → UnfoldsAll t ids es →
      UnfoldsAll t (id :: ids) (e :: es)

end

/-- Pairs are the same when their parts are. -/
theorem eq_of_parts {α β : Type} {l l' : List (α × β)} (h1 : l.map (·.1) = l'.map (·.1))
    (h2 : l.map (·.2) = l'.map (·.2)) : l = l' :=
  eq_of_forall₂ (forall₂_of_map_eq h1 h2 fun _ _ _ _ => And.intro) fun _ _ h => Prod.ext h.1 h.2

theorem eq_of_bits {ty ty' : IntType} (hs : ty.signed = ty'.signed) (hw : ty.width.bits = ty'.width.bits) : ty = ty' := by
  obtain ⟨signed, width⟩ := ty
  obtain ⟨signed', width'⟩ := ty'
  cases width <;> cases width' <;> simp_all [Width.bits]

mutual

/-- A type has one unfolding. -/
theorem Unfolds.unique : ∀ {id : TypeId} {e e' : TypeExpr}, t.Unfolds id e → t.Unfolds id e' → e = e'
  | _, _, _, .int h, h' => by
    cases h' with
    | int h'' =>
      simp only [h, Option.some.injEq, Ty.int.injEq] at h''
      rw [eq_of_bits h''.1 h''.2]
    | _ => simp_all
  | _, _, _, .float h, h' => by cases h' <;> simp_all
  | _, _, _, .bool h, h' => by cases h' <;> simp_all
  | _, _, _, .unit h, h' => by cases h' <;> simp_all
  | _, _, _, .ptr h hp, h' => by
    cases h' with
    | ptr h'' hp' =>
      rw [h] at h''
      cases h''
      rw [hp.unique hp']
    | _ => simp_all
  | _, _, _, .array h he, h' => by
    cases h' with
    | array h'' he' =>
      rw [h] at h''
      cases h''
      rw [he.unique he']
    | _ => simp_all
  | _, _, _, .struct h hnames hall, h' => by
    cases h' with
    | struct h'' hnames' hall' =>
      rw [h] at h''
      cases h''
      rw [eq_of_parts (hall.unique hall') (hnames.symm.trans hnames')]
    | _ => simp_all
  | _, _, _, .sum h hall, h' => by
    cases h' with
    | sum h'' hall' =>
      rw [h] at h''
      cases h''
      rw [hall.unique hall']
    | _ => simp_all
  | _, _, _, .func h hresult hnames hall, h' => by
    cases h' with
    | func h'' hresult' hnames' hall' =>
      rw [h] at h''
      cases h''
      rw [hresult.unique hresult', eq_of_parts (hall.unique hall') (hnames.symm.trans hnames')]
    | _ => simp_all
  | _, _, _, .named h, h' => by cases h' <;> simp_all

theorem UnfoldsAll.unique : ∀ {ids : List TypeId} {es es' : List TypeExpr}, t.UnfoldsAll ids es → t.UnfoldsAll ids es' →
    es = es'
  | _, _, _, .nil, .nil => rfl
  | _, _, _, .cons h hrest, .cons h' hrest' => by rw [h.unique h', hrest.unique hrest']

end

section

set_option linter.unusedSectionVars false

variable (hk : t.Keyed)
include hk

mutual

/-- In a keyed table, no two handles have the same unfolding. -/
theorem Unfolds.inj : ∀ {id id' : TypeId} {e : TypeExpr}, t.Unfolds id e → t.Unfolds id' e → id = id'
  | _, _, _, .int h, .int h' | _, _, _, .float h, .float h' | _, _, _, .bool h, .bool h' | _, _, _, .unit h, .unit h' =>
    hk.single _ _ _ _ h h' rfl
  | _, _, _, .ptr h hp, .ptr h' hp' => hk.single _ _ _ _ h h' (Ty.Like.ptr (hp.inj hp')).key_eq
  | _, _, _, .array h he, .array h' he' => hk.single _ _ _ _ h h' (Ty.Like.array _ (he.inj he')).key_eq
  | _, _, _, .struct h hnames hall, .struct h' hnames' hall' => by
    have hfields := forall₂_of_map_eq (hnames.trans hnames'.symm) (hall.inj hall') fun _ _ _ _ => And.intro
    exact hk.single _ _ _ _ h h' (Ty.Like.struct hfields).key_eq
  | _, _, _, .sum h hall, .sum h' hall' => by
    rw [hall.inj hall'] at h
    exact hk.single _ _ _ _ h h' rfl
  | _, _, _, .func h hresult hnames hall, .func h' hresult' hnames' hall' => by
    have hparams := forall₂_of_map_eq (hnames.trans hnames'.symm) (hall.inj hall') fun _ _ _ _ => And.intro
    exact hk.single _ _ _ _ h h' (Ty.Like.func ⟨hparams, hresult.inj hresult'⟩).key_eq
  | _, _, _, .named h, .named h' => hk.single _ _ _ _ h h' rfl

theorem UnfoldsAll.inj : ∀ {ids ids' : List TypeId} {es : List TypeExpr}, t.UnfoldsAll ids es → t.UnfoldsAll ids' es →
    ids = ids'
  | _, _, _, .nil, .nil => rfl
  | _, _, _, .cons h hrest, .cons h' hrest' => by rw [h.inj h', hrest.inj hrest']

end

end

mutual

/-- Unfoldings stay as they are. -/
theorem Unfolds.continues (hc : t.Continues t') : ∀ {id : TypeId} {e : TypeExpr}, t.Unfolds id e → t'.Unfolds id e
  | _, _, .int h => .int (hc.entry h rfl)
  | _, _, .float h => .float (hc.entry h rfl)
  | _, _, .bool h => .bool (hc.entry h rfl)
  | _, _, .unit h => .unit (hc.entry h rfl)
  | _, _, .ptr h hp => .ptr (hc.entry h rfl) (hp.continues hc)
  | _, _, .array h he => .array (hc.entry h rfl) (he.continues hc)
  | _, _, .struct h hnames hall => .struct (hc.entry h rfl) hnames (hall.continues hc)
  | _, _, .sum h hall => .sum (hc.entry h rfl) (hall.continues hc)
  | _, _, .func h hresult hnames hall => .func (hc.entry h rfl) (hresult.continues hc) hnames (hall.continues hc)
  | _, _, .named h => by
    obtain ⟨u, hu⟩ := hc.named h
    exact .named hu

theorem UnfoldsAll.continues (hc : t.Continues t') : ∀ {ids : List TypeId} {es : List TypeExpr}, t.UnfoldsAll ids es →
    t'.UnfoldsAll ids es
  | _, _, .nil => .nil
  | _, _, .cons h hrest => .cons (h.continues hc) (hrest.continues hc)

end

/-- The aliases that are declared. -/
def Declares (t : TypeTable) (name : String) : Prop := ∃ id u, t.get? id = some (.named name u)

/-- Types were added to a keyed table, and no alias. -/
structure Enlarges (t t' : TypeTable) : Prop where
  keyed : t'.Keyed
  grows : Grows t t'
  declares : ∀ name, t'.Declares name ↔ t.Declares name

namespace Enlarges

variable {t'' : TypeTable}

theorem refl (h : t.Keyed) : t.Enlarges t := ⟨h, Grows.refl t, fun _ => Iff.rfl⟩

theorem trans (h : t.Enlarges t') (h' : t'.Enlarges t'') : t.Enlarges t'' :=
  ⟨h'.keyed, h.grows.trans h'.grows, fun name => (h'.declares name).trans (h.declares name)⟩

theorem insert (h : t.Keyed) (hn : ty.isNamed = false) : t.Enlarges (t.insert ty).2 := by
  refine ⟨h.insert ty, insert_grows t ty, fun name => ⟨?_, ?_⟩⟩
  · rintro ⟨id, u, hid⟩
    rcases get?_insert_cases hid with hold | ⟨-, rfl⟩
    · exact ⟨id, u, hold⟩
    · cases hn
  · rintro ⟨id, u, hid⟩
    exact ⟨id, u, insert_grows t ty _ _ hid⟩

theorem continues (h : t.Enlarges t') : t.Continues t' := ⟨h.keyed, fun id ty hty => ⟨ty, h.grows id ty hty, rfl⟩⟩

end Enlarges

theorem UnfoldsAll.append : ∀ {ids ids' : List TypeId} {es es' : List TypeExpr}, t.UnfoldsAll ids es →
    t.UnfoldsAll ids' es' → t.UnfoldsAll (ids ++ ids') (es ++ es')
  | _, _, _, _, .nil, h' => h'
  | _, _, _, _, .cons h hrest, h' => .cons h (hrest.append h')

/-- Handles and unfoldings are in their lists together. -/
theorem UnfoldsAll.mem_iff (hk : t.Keyed) {e : TypeExpr} (h : t.Unfolds id e) :
    ∀ {ids : List TypeId} {es : List TypeExpr}, t.UnfoldsAll ids es → (id ∈ ids ↔ e ∈ es)
  | _, _, .nil => by simp
  | id' :: ids, e' :: es, .cons h' hrest => by
    have hhead : id = id' ↔ e = e' := by
      constructor
      · rintro rfl
        exact h.unique h'
      · rintro rfl
        exact h.inj hk h'
    rw [List.mem_cons, List.mem_cons, hhead, hrest.mem_iff hk h]

end TypeTable

/-! ## (3) Resolving -/

open TypeTable (Enlarges Unfolds UnfoldsAll)
open Surface.TypeExpr

namespace Annotation

variable {D : String → Prop}

theorem decides_get {α : Type} {f : Typing → CheckM α} {Q : α → Typing → Prop} :
    Decides (get >>= f) st Q N ↔ Decides (f st) st Q N := Iff.rfl

/-- Interning ends the resolution of a compound type. -/
theorem decides_intern {Q : TypeId → Typing → Prop} (hk : st.types.Keyed) (hn : ty.isNamed = false)
    (h : ∀ id st', st.types.Enlarges st'.types → st'.types.get? id = some ty → Q id st') :
    Decides (liftM (Typing.intern ty) : CheckM TypeId) st Q N := by
  have hrun : Typing.intern ty st = .ok (st.types.insert ty).1 { st with types := (st.types.insert ty).2 } := rfl
  exact (decides_of_ok hrun).mpr (h _ _ (.insert hk hn) (TypeTable.get?_insert st.types hn))

mutual

/-- Resolving decides validity, and a handle that it gives unfolds to the annotation. -/
theorem resolve_decides (file : FileId) : ∀ (ty : TypeExpr) {st : Typing}, st.types.Keyed →
    (∀ name, st.types.Declares name ↔ D name) →
    Decides (resolve file ty) st
      (fun id st' => st.types.Enlarges st'.types ∧ st'.types.Unfolds id ty.erased ∧ ty.Valid D) (¬ ty.Valid D)
  | .int ty _, st, hk, _ => by
    simp only [resolve, erased, Valid, decides_pure]
    refine ⟨.refl hk, .int (hk.primitive (TypeId.int ty.signed ty.width.bits).index _ ?_), trivial⟩
    obtain ⟨signed, width⟩ := ty
    cases signed <;> cases width <;> rfl
  | .float double _, st, hk, _ => by
    simp only [resolve, erased, Valid, decides_pure]
    refine ⟨.refl hk, .float (hk.primitive (TypeId.float double).index _ ?_), trivial⟩
    cases double <;> rfl
  | .bool _, st, hk, _ => by
    simp only [resolve, erased, Valid, decides_pure]
    exact ⟨.refl hk, .bool (hk.primitive 8 _ rfl), trivial⟩
  | .unit _, st, hk, _ => by
    simp only [resolve, erased, Valid, decides_pure]
    exact ⟨.refl hk, .unit (hk.primitive 9 _ rfl), trivial⟩
  | .ptr pointee _, st, hk, hD => by
    simp only [resolve, erased, Valid, decides_bind]
    refine (resolve_decides file pointee hk hD).mono (fun id st1 ⟨he, hid, hvalid⟩ => ?_) fun h => h
    refine decides_intern he.keyed rfl fun id' st2 he2 hid' => ⟨he.trans he2, ?_, hvalid⟩
    exact .ptr hid' (hid.continues he2.continues)
  | .array element length _, st, hk, hD => by
    simp only [resolve, erased, Valid, decides_bind]
    refine (resolve_decides file element hk hD).mono (fun id st1 ⟨he, hid, hvalid⟩ => ?_) fun h => h
    refine decides_intern he.keyed rfl fun id' st2 he2 hid' => ⟨he.trans he2, ?_, hvalid⟩
    exact .array hid' (hid.continues he2.continues)
  | .struct fields _, st, hk, hD => by
    simp only [resolve, erased, Valid, decides_bind]
    have hfields := resolveFields_decides file fields hk hD [] List.nodup_nil
    refine hfields.mono (fun fs st1 ⟨he, new, hfs, hnames, hnew, hvalid⟩ => ?_) fun h => h
    rw [List.nil_append] at hfs
    subst hfs
    refine decides_intern he.keyed rfl fun id st2 he2 hid => ⟨he.trans he2, ?_, hvalid⟩
    exact .struct hid hnames (hnew.continues he2.continues)
  | .sum variants _, st, hk, hD => by
    simp only [resolve, erased, Valid, decides_bind]
    refine (resolveVariants_decides file variants hk hD .nil List.nodup_nil).mono
      (fun ids st1 ⟨he, hids, hvalid⟩ => ?_) fun h => h
    refine decides_intern he.keyed rfl fun id st2 he2 hid => ⟨he.trans he2, ?_, hvalid⟩
    exact .sum hid (hids.continues he2.continues)
  | .func params result _, st, hk, hD => by
    simp only [resolve, erased, Valid, decides_bind]
    refine (resolve_decides file result hk hD).mono (fun id st1 ⟨he, hid, hvalid⟩ => ?_) fun h h' => h h'.1
    have hD1 := fun name => (he.declares name).trans (hD name)
    refine (resolveParams_decides file params he.keyed hD1).mono
      (fun ps st2 ⟨he2, hnames, hps, hvalids⟩ => ?_) fun h h' => h h'.2
    refine decides_intern he2.keyed rfl fun id' st3 he3 hid' =>
      ⟨he.trans (he2.trans he3), ?_, hvalid, hvalids⟩
    exact .func hid' (hid.continues (he2.trans he3).continues) hnames (hps.continues he3.continues)
  | .named name span, st, hk, hD => by
    simp only [resolve, erased, Valid, decides_get]
    cases hfind : st.types.findAlias? name with
    | some id =>
      obtain ⟨u, hu⟩ := TypeTable.findAlias?_eq_some hfind
      exact (decides_pure _).mpr ⟨.refl hk, .named hu, (hD name).mp ⟨id, u, hu⟩⟩
    | none =>
      refine (decides_throw _).mpr fun hname => ?_
      obtain ⟨id, u, hu⟩ := (hD name).mpr hname
      rw [hk.findAlias?_eq_some hu] at hfind
      cases hfind

theorem resolveFields_decides (file : FileId) : ∀ (fields : List (TypeExpr × String)) {st : Typing}, st.types.Keyed →
    (∀ name, st.types.Declares name ↔ D name) → ∀ (earlier : List Field), (earlier.map (·.name)).Nodup →
    Decides (resolveFields file earlier fields) st
      (fun fs st' => st.types.Enlarges st'.types ∧ ∃ new, fs = earlier ++ new ∧
        new.map (·.name) = (erasedFields fields).map (·.2) ∧
        st'.types.UnfoldsAll (new.map (·.ty)) ((erasedFields fields).map (·.1)) ∧
        ValidFields D fields ∧ (earlier.map (·.name) ++ fields.map (·.2)).Nodup)
      (¬ (ValidFields D fields ∧ (earlier.map (·.name) ++ fields.map (·.2)).Nodup))
  | [], st, hk, _, earlier, hnodup => by
    simp only [resolveFields, erasedFields, ValidFields, decides_pure, List.map_nil, List.append_nil]
    exact ⟨.refl hk, [], by simp, rfl, .nil, trivial, hnodup⟩
  | (ty, name) :: rest, st, hk, hD, earlier, hnodup => by
    simp only [resolveFields, erasedFields, ValidFields, decides_bind, List.map_cons]
    refine (resolve_decides file ty hk hD).mono (fun id st1 ⟨he, hid, hvalid⟩ => ?_) fun h h' => h h'.1.1
    split
    · rename_i hdup
      obtain ⟨f, hmem, hname⟩ := List.any_eq_true.mp hdup
      refine (decides_throw _).mpr fun h => ?_
      have hne := (List.nodup_append.mp h.2).2.2 f.name (List.mem_map_of_mem hmem) name (.head _)
      exact hne (by simpa using hname)
    · rename_i hnew
      have hD1 := fun name => (he.declares name).trans (hD name)
      have hnodup' : ((earlier ++ [(⟨id, name⟩ : Field)]).map (·.name)).Nodup := by
        rw [List.map_append]
        refine List.Nodup.append hnodup (List.nodup_singleton _) ?_
        simpa [List.any_eq_true] using hnew
      have hrest := resolveFields_decides file rest he.keyed hD1 (earlier ++ [⟨id, name⟩]) hnodup'
      simp only [List.map_append, List.map_cons, List.map_nil, List.append_assoc, List.singleton_append] at hrest
      refine hrest.mono (fun fs st2 ⟨he2, new, hfs, hnames, hunfolds, hvalids, hnodup2⟩ => ?_) fun h h' => h ⟨h'.1.2, h'.2⟩
      refine ⟨he.trans he2, ⟨id, name⟩ :: new, hfs, ?_, ?_, ⟨hvalid, hvalids⟩, hnodup2⟩
      · rw [List.map_cons, hnames]
      · exact .cons (hid.continues he2.continues) hunfolds

theorem resolveVariants_decides (file : FileId) : ∀ (variants : List TypeExpr) {st : Typing}, st.types.Keyed →
    (∀ name, st.types.Declares name ↔ D name) → ∀ {earlier : List TypeId} {es : List TypeExpr},
    st.types.UnfoldsAll earlier es → es.Nodup →
    Decides (resolveVariants file earlier variants) st
      (fun ids st' => st.types.Enlarges st'.types ∧ st'.types.UnfoldsAll ids (es ++ erasedAll variants) ∧
        ValidAll D variants ∧ (es ++ erasedAll variants).Nodup)
      (¬ (ValidAll D variants ∧ (es ++ erasedAll variants).Nodup))
  | [], st, hk, _, earlier, es, hes, hnodup => by
    simp only [resolveVariants, erasedAll, ValidAll, decides_pure, List.append_nil]
    exact ⟨.refl hk, hes, trivial, hnodup⟩
  | ty :: rest, st, hk, hD, earlier, es, hes, hnodup => by
    simp only [resolveVariants, erasedAll, ValidAll, decides_bind]
    refine (resolve_decides file ty hk hD).mono (fun id st1 ⟨he, hid, hvalid⟩ => ?_) fun h h' => h h'.1.1
    have hes1 := hes.continues he.continues
    have hmem := UnfoldsAll.mem_iff he.keyed hid hes1
    split
    · rename_i hdup
      have hno : ¬ ((ty.Valid D ∧ ValidAll D rest) ∧ (es ++ ty.erased :: erasedAll rest).Nodup) := fun h =>
        (List.nodup_append.mp h.2).2.2 ty.erased (hmem.mp hdup) ty.erased (.head _) rfl
      simpa using hno
    · rename_i hnew
      have hD1 := fun name => (he.declares name).trans (hD name)
      have hnodup' : (es ++ [ty.erased]).Nodup :=
        List.Nodup.append hnodup (List.nodup_singleton _) (by simpa using mt hmem.mpr hnew)
      have hrest := resolveVariants_decides file rest he.keyed hD1 (hes1.append (.cons hid .nil)) hnodup'
      simp only [List.append_assoc, List.singleton_append] at hrest
      refine hrest.mono (fun ids st2 ⟨he2, hids, hvalids, hnodup2⟩ => ?_) fun h h' => h ⟨h'.1.2, h'.2⟩
      exact ⟨he.trans he2, hids, ⟨hvalid, hvalids⟩, hnodup2⟩

theorem resolveParams_decides (file : FileId) : ∀ (params : List (TypeExpr × Option String)) {st : Typing},
    st.types.Keyed → (∀ name, st.types.Declares name ↔ D name) →
    Decides (resolveParams file params) st
      (fun ps st' => st.types.Enlarges st'.types ∧ ps.map (·.name) = (erasedParams params).map (·.2) ∧
        st'.types.UnfoldsAll (ps.map (·.ty)) ((erasedParams params).map (·.1)) ∧ ValidParams D params)
      (¬ ValidParams D params)
  | [], st, hk, _ => by
    simp only [resolveParams, erasedParams, ValidParams, decides_pure, List.map_nil]
    exact ⟨.refl hk, trivial, .nil, trivial⟩
  | (ty, name) :: rest, st, hk, hD => by
    simp only [resolveParams, erasedParams, ValidParams, decides_bind, decides_pure, List.map_cons]
    refine (resolve_decides file ty hk hD).mono (fun id st1 ⟨he, hid, hvalid⟩ => ?_) fun h h' => h h'.1
    have hD1 := fun name => (he.declares name).trans (hD name)
    refine (resolveParams_decides file rest he.keyed hD1).mono
      (fun ps st2 ⟨he2, hnames, hps, hvalids⟩ => ?_) fun h h' => h h'.2
    exact ⟨he.trans he2, by rw [hnames], .cons (hid.continues he2.continues) hps, hvalid, hvalids⟩

end

end Annotation

/-! ## (4) Canonical handles -/

namespace Lowering

theorem resolveType_eq_ok {file : FileId} {ty : TypeExpr} {s' : State} :
    resolveType cfg file ty s = .ok (.ok id) s' ↔
      ∃ st, ( Annotation.resolve file ty).run s.typing = .ok (.ok id) st ∧ s' = s.withTyping st := by
  have hrun : resolveType cfg file ty s = onTyping ( Annotation.resolve file ty).run s := rfl
  rw [hrun, onTyping]
  cases ( Annotation.resolve file ty).run s.typing with
  | ok r st => simp [eq_comm]
  | error f st => simp

/-- In any context that requests make of a fresh one, (a) an annotation is resolved if and only if every
named type in it is declared and its structs and sums have no duplicates; (b) the handle unfolds to
the annotation without its spans and to nothing else; (c) if another annotation is resolved later, with
any requests in between, the handles are the same if and only if the annotations are, up to spans. -/
theorem resolveType_canonical {s : State} (hs : Context.Becomes {} s.context) (cfg : Settings) (file : FileId)
    (ty : TypeExpr) :
    ((∃ id s', resolveType cfg file ty s = .ok (.ok id) s') ↔ ty.Valid s.context.types.Declares) ∧
    ∀ id s', resolveType cfg file ty s = .ok (.ok id) s' →
      (∀ e, s'.context.types.Unfolds id e ↔ e = ty.erased) ∧
      ∀ s₁, s'.context.Becomes s₁.context → ∀ cfg₁ file₁ ty₁ id₁ s₁', resolveType cfg₁ file₁ ty₁ s₁ = .ok (.ok id₁) s₁' →
        (id₁ = id ↔ ty₁.erased = ty.erased) := by
  have hkeyed : s.typing.types.Keyed := (hs.continues TypeTable.fresh_keyed).keyed
  have hdecides := Annotation.resolve_decides file ty hkeyed fun _ => Iff.rfl
  refine ⟨⟨?_, fun hvalid => ?_⟩, fun id s' hrun => ?_⟩
  · rintro ⟨id, s', hrun⟩
    obtain ⟨st, hst, -⟩ := resolveType_eq_ok.mp hrun
    exact (hdecides.result hst).2.2
  · obtain ⟨id, st, hst⟩ := hdecides.exists_result fun h => h hvalid
    exact ⟨id, _, resolveType_eq_ok.mpr ⟨st, hst, rfl⟩⟩
  · obtain ⟨st, hst, rfl⟩ := resolveType_eq_ok.mp hrun
    obtain ⟨henlarges, hunfolds, -⟩ := hdecides.result hst
    refine ⟨fun e => ⟨fun h => h.unique hunfolds, fun h => h ▸ hunfolds⟩, fun s₁ hs₁ cfg₁ file₁ ty₁ id₁ s₁' hrun₁ => ?_⟩
    -- the handle still unfolds to the annotation when the other one is resolved
    have hbetween := hs₁.continues henlarges.keyed
    obtain ⟨st₁, hst₁, rfl⟩ := resolveType_eq_ok.mp hrun₁
    obtain ⟨henlarges₁, hunfolds₁, -⟩ :=
      ( Annotation.resolve_decides file₁ ty₁ hbetween.keyed fun _ => Iff.rfl).result hst₁
    have hlater := hunfolds.continues (hbetween.trans henlarges₁.continues)
    constructor
    · rintro rfl
      exact hunfolds₁.unique hlater
    · intro h
      rw [h] at hunfolds₁
      exact hunfolds₁.inj henlarges₁.keyed hlater

/-- An alias `List` is declared, and does not stand for anything yet. -/
def sampleAlias : State := (Request.change (.declareAlias "List")).perform {} {}

/-- A struct of an `i32` and a pointer to `List`, at some place of a file. -/
def sampleCell (start : Nat) : TypeExpr :=
  .struct [(.int ⟨true, .w32⟩ ⟨start, start + 3⟩, "item"),
    (.ptr (.named "List" ⟨start + 11, start + 15⟩) ⟨start + 10, start + 15⟩, "rest")] ⟨start, start + 20⟩

theorem sampleCell_canonical : Context.Becomes {} sampleAlias.context ∧
    ∃ id s', resolveType {} 0 (sampleCell 0) sampleAlias = .ok (.ok id) s' ∧
      (∀ e, s'.context.types.Unfolds id e ↔ e = (sampleCell 0).erased) ∧
      ∀ s₁, s'.context.Becomes s₁.context → ∀ id₁ s₁', resolveType {} 1 (sampleCell 70) s₁ = .ok (.ok id₁) s₁' →
        id₁ = id := by
  have hs : Context.Becomes {} sampleAlias.context := .step {} _ .refl
  have hdeclared : sampleAlias.types.Declares "List" := ⟨⟨13⟩, TypeId.invalid, by decide +kernel⟩
  obtain ⟨hvalid, hresolved⟩ := resolveType_canonical hs {} 0 (sampleCell 0)
  obtain ⟨id, s', hrun⟩ := hvalid.mpr ⟨⟨trivial, hdeclared, trivial⟩, by decide⟩
  obtain ⟨hunfolds, hlater⟩ := hresolved id s' hrun
  exact ⟨hs, id, s', hrun, hunfolds, fun s₁ hs₁ id₁ s₁' hrun₁ => (hlater s₁ hs₁ {} 1 _ id₁ s₁' hrun₁).mpr rfl⟩

end Lowering

end BlockCompiler
