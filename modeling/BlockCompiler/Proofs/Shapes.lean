/-
  BlockCompiler.Proofs.Shapes — types as trees.

  A handle names a type only within its table, and tables grow. A shape is the same type written
  out, so it can be compared across tables. An alias stays a name in it: that is where types may be
  recursive, and two aliases are the same when their names are.

  (1) A table is keyed when the primitive types stand at their handles and no type is in it twice
      (`TypeTable.Keyed`). It is formed when, besides, every type but an alias is made of types
      before it (`TypeTable.Formed`). Interning and defining keep it so.
  (2) In a formed table handles and shapes are one to one (`Formed.shape_inj`).
  (3) A table that widens gets types and no alias (`Widens`); shapes stay as they are.
  (4) Aliases are looked through in shapes as they are in the table (`Formed.unwraps_iff`).
-/
import BlockCompiler.Proofs.ByValue
import BlockCompiler.Proofs.Reading
import BlockCompiler.Proofs.Ways

namespace BlockCompiler

open TypeTable (Grows StandsFor)
open Interner (get?_lt get?_of_lt)

variable {id u : TypeId} {ty : Ty} {t : TypeTable} {τ υ : Shape}

/-- A type, written out. -/
inductive Shape where
  | int (signed : Bool) (width : Nat)
  | float (double : Bool)
  | bool
  | unit
  | ptr (pointee : Shape)
  | array (element : Shape) (length : UInt64)
  /-- The names of the fields, and their types. -/
  | struct (names : List String) (types : List Shape)
  | sum (variants : List Shape)
  | func (names : List (Option String)) (params : List Shape) (result : Shape)
  | named (name : String)
  | invalid

def Shape.isNamed : Shape → Bool
  | named _ => true
  | _ => false

section Lists

variable {α β γ δ : Type} {R : α → β → Prop}

theorem forall₂_of_map_eq {f : α → γ} {f' : β → γ} {g : α → δ} {g' : β → δ} : ∀ {l : List α} {l' : List β},
    l.map f = l'.map f' → l.map g = l'.map g' → (∀ x ∈ l, ∀ y ∈ l', f x = f' y → g x = g' y → R x y) → List.Forall₂ R l l'
  | [], [], _, _, _ => .nil
  | x :: l, y :: l', hf, hg, h => by
    obtain ⟨hfx, hf⟩ := List.cons.inj hf
    obtain ⟨hgx, hg⟩ := List.cons.inj hg
    have hrest := forall₂_of_map_eq hf hg fun x hx y hy => h x (.tail _ hx) y (.tail _ hy)
    exact .cons (h x (.head _) y (.head _) hfx hgx) hrest

theorem eq_of_forall₂ {R : α → α → Prop} {l l' : List α} (h : List.Forall₂ R l l') (hR : ∀ x y, R x y → x = y) : l = l' :=
  List.forall₂_eq_eq_eq ▸ h.imp hR

end Lists

/-! ## (1) Formed tables -/

structure Signature.Like (R : TypeId → TypeId → Prop) (f g : Signature) : Prop where
  params : List.Forall₂ (fun p q => p.name = q.name ∧ R p.ty q.ty) f.params g.params
  result : R f.result g.result

namespace Ty

/-- Types made of related parts. An alias is its name. -/
inductive Like (R : TypeId → TypeId → Prop) : Ty → Ty → Prop
  | int (signed : Bool) (width : Nat) : Like R (.int signed width) (.int signed width)
  | float (double : Bool) : Like R (.float double) (.float double)
  | bool : Like R .bool .bool
  | unit : Like R .unit .unit
  | ptr {a b : TypeId} : R a b → Like R (.ptr a) (.ptr b)
  | array {a b : TypeId} (length : UInt64) : R a b → Like R (.array a length) (.array b length)
  | struct {fs gs : List Field} : List.Forall₂ (fun f g => f.name = g.name ∧ R f.ty g.ty) fs gs →
      Like R (.struct fs) (.struct gs)
  | sum {as bs : List TypeId} : List.Forall₂ R as bs → Like R (.sum as) (.sum bs)
  | func {f g : Signature} : f.Like R g → Like R (.func f) (.func g)
  | named (name : String) (u v : TypeId) : Like R (.named name u) (.named name v)
  | invalid : Like R .invalid .invalid

/-- The shape of a type, given the shapes of the types it is made of. -/
def shapeBy (shape : TypeId → Shape) : Ty → Shape
  | int signed width => .int signed width
  | float double => .float double
  | bool => .bool
  | unit => .unit
  | ptr pointee => .ptr (shape pointee)
  | array element length => .array (shape element) length
  | struct fields => .struct (fields.map (·.name)) (fields.map fun f => shape f.ty)
  | sum variants => .sum (variants.map shape)
  | func signature =>
    .func (signature.params.map (·.name)) (signature.params.map fun p => shape p.ty) (shape signature.result)
  | named name _ => .named name
  | invalid => .invalid

theorem shapeBy_congr {shape shape' : TypeId → Shape} (h : ty.isNamed = false → ∀ m ∈ ty.mentions, shape m = shape' m) :
    ty.shapeBy shape = ty.shapeBy shape' := by
  cases ty with
  | ptr pointee | array element length => simp [shapeBy, h rfl _ List.mem_cons_self]
  | struct fields =>
    have hfields : ∀ f ∈ fields, shape f.ty = shape' f.ty := fun f hf => h rfl _ (List.mem_map_of_mem hf)
    simpa [shapeBy] using hfields
  | sum variants => simpa [shapeBy, mentions, isNamed] using h
  | func signature =>
    have hresult := h rfl signature.result (.head _)
    have hparams : ∀ p ∈ signature.params, shape p.ty = shape' p.ty := fun p hp =>
      h rfl _ (.tail _ (List.mem_map_of_mem hp))
    simpa [shapeBy, hresult] using hparams
  | _ => rfl

section

variable {shape : TypeId → Shape} {ty : Ty}

theorem shapeBy_key : ty.key.shapeBy shape = ty.shapeBy shape := by cases ty <;> rfl

theorem eq_invalid_of_shapeBy (h : ty.shapeBy shape = .invalid) : ty = .invalid := by
  cases ty <;> simp_all [shapeBy]

end

section

variable {shape shape' : TypeId → Shape} {R : TypeId → TypeId → Prop} {ty ty' : Ty}

/-- Types of one shape are alike if parts of one shape are related. -/
theorem like_of_shapeBy (h : ty.shapeBy shape = ty'.shapeBy shape')
    (hR : ty.isNamed = false → ∀ a ∈ ty.mentions, ∀ b ∈ ty'.mentions, shape a = shape' b → R a b) : ty.Like R ty' := by
  cases ty with
  | ptr a =>
    cases ty' with
    | ptr b => exact .ptr (hR rfl a (.head _) b (.head _) (by simpa [shapeBy] using h))
    | _ => cases h
  | array a length =>
    cases ty' with
    | array b length' =>
      obtain ⟨hab, rfl⟩ : shape a = shape' b ∧ length = length' := by simpa [shapeBy] using h
      exact .array length (hR rfl a (.head _) b (.head _) hab)
    | _ => cases h
  | struct fs =>
    cases ty' with
    | struct gs =>
      simp only [shapeBy, Shape.struct.injEq] at h
      exact .struct (forall₂_of_map_eq h.1 h.2 fun f hf g hg hname hty =>
        ⟨hname, hR rfl _ (List.mem_map_of_mem hf) _ (List.mem_map_of_mem hg) hty⟩)
    | _ => cases h
  | sum as =>
    cases ty' with
    | sum bs =>
      simp only [shapeBy, Shape.sum.injEq] at h
      exact .sum (forall₂_of_map_eq h h fun a ha b hb hab _ => hR rfl a ha b hb hab)
    | _ => cases h
  | func f =>
    cases ty' with
    | func g =>
      simp only [shapeBy, Shape.func.injEq] at h
      refine .func ⟨forall₂_of_map_eq h.1 h.2.1 fun p hp q hq hname hty => ⟨hname, ?_⟩,
        hR rfl _ (.head _) _ (.head _) h.2.2⟩
      exact hR rfl _ (.tail _ (List.mem_map_of_mem hp)) _ (.tail _ (List.mem_map_of_mem hq)) hty
    | _ => cases h
  | _ =>
    cases ty' <;> cases h
    constructor

theorem Like.key_eq (h : ty.Like Eq ty') : ty.key = ty'.key := by
  cases h with
  | ptr h | array _ h => rw [h]
  | struct h => rw [eq_of_forall₂ h fun f g hfg => by cases f; cases g; simp_all]
  | sum h => rw [eq_of_forall₂ h fun _ _ h => h]
  | @func f g h =>
    have hparams := eq_of_forall₂ h.params fun p q hpq => by cases p; cases q; simp_all
    have hresult := h.result
    cases f
    cases g
    simp_all
  | _ => rfl

end

end Ty

namespace TypeTable

/-- The primitive types have their handles, and no type is there twice. -/
structure Keyed (t : TypeTable) : Prop where
  primitive : ∀ i ty, Ty.primitives[i]? = some ty → t.get? ⟨i⟩ = some ty
  single : ∀ id id' ty ty', t.get? id = some ty → t.get? id' = some ty' → ty.key = ty'.key → id = id'

theorem fresh_keyed : Keyed fresh := by
  refine ⟨fresh_sound.primitive, fun id id' ty ty' h h' hkey => ?_⟩
  rw [get?_fresh] at h h'
  have hplain : ∀ ty ∈ Ty.primitives, ty.isNamed = false := by decide
  have heq := Ty.eq_of_key_eq (hplain ty' (List.mem_of_getElem? h')) hkey
  obtain ⟨hlt, hat⟩ := List.getElem?_eq_some_iff.mp h
  obtain ⟨hlt', hat'⟩ := List.getElem?_eq_some_iff.mp h'
  have hnodup : Ty.primitives.Nodup := by decide
  exact Handle.eq_of_index (hnodup.getElem_inj_iff.mp (hat.trans (heq.trans hat'.symm)))

/-- Defining an alias keeps every entry but for what the alias stands for. -/
theorem key_eq_of_defineAlias {t' : TypeTable} {id' : TypeId} (h : t.defineAlias id u = .ok t')
    (h' : t'.get? id' = some ty) :
    ∃ ty', t.get? id' = some ty' ∧ ty'.key = ty.key ∧ (ty.isNamed = false → ty' = ty) := by
  obtain ⟨name, hid, -, hget⟩ := get?_of_defineAlias h
  rw [hget] at h'
  split at h'
  · rename_i heq
    cases h'
    exact ⟨.named name .invalid, heq ▸ hid, rfl, by simp [Ty.isNamed]⟩
  · exact ⟨ty, h', rfl, fun _ => rfl⟩

namespace Keyed

variable {t t' : TypeTable} (hk : t.Keyed)
include hk

theorem insert (ty : Ty) : Keyed (t.insert ty).2 := by
  refine ⟨fun i ty' h => insert_grows t ty _ _ (hk.primitive i ty' h), ?_⟩
  rcases insert_cases t ty with ⟨id, ty', he, -, -⟩ | ⟨he, hnone⟩
  · rw [he]
    exact hk.single
  · -- the type that was appended is like none before it
    rw [he]
    intro id id' ty1 ty2 h1 h2 hkey
    rw [get?_push] at h1 h2
    split at h1 <;> split at h2
    · exact Handle.eq_of_index (by omega)
    · cases h1
      exact absurd hkey.symm (find?_eq_none hnone h2)
    · cases h2
      exact absurd hkey (find?_eq_none hnone h1)
    · exact hk.single id id' ty1 ty2 h1 h2 hkey

theorem defineAlias (h : t.defineAlias id u = .ok t') : t'.Keyed := by
  refine ⟨fun i ty hi => ?_, fun id1 id2 ty1 ty2 h1 h2 hkey => ?_⟩
  · obtain ⟨name, hid, -, hget⟩ := get?_of_defineAlias h
    have hplain : ∀ ty ∈ Ty.primitives, ty.isNamed = false := by decide
    have hprim := hk.primitive i ty hi
    rw [hget, if_neg, hprim]
    intro heq
    rw [heq, hid] at hprim
    cases hprim
    exact absurd (hplain _ (List.mem_of_getElem? hi)) (by simp [Ty.isNamed])
  · obtain ⟨ty1', hold1, hkey1, -⟩ := key_eq_of_defineAlias h h1
    obtain ⟨ty2', hold2, hkey2, -⟩ := key_eq_of_defineAlias h h2
    exact hk.single id1 id2 ty1' ty2' hold1 hold2 (by rw [hkey1, hkey2, hkey])

/-- An alias is found by its name. -/
theorem findAlias?_eq_some {name : String} (h : t.get? id = some (.named name u)) : t.findAlias? name = some id := by
  cases hfind : t.findAlias? name with
  | none => exact (find?_eq_none hfind h rfl).elim
  | some id' =>
    obtain ⟨u', hu'⟩ := TypeTable.findAlias?_eq_some hfind
    rw [hk.single id id' _ _ h hu' rfl]

end Keyed

structure Formed (t : TypeTable) : Prop where
  /-- The primitive types have their handles. -/
  primitive : ∀ i ty, Ty.primitives[i]? = some ty → t.get? ⟨i⟩ = some ty
  earlier : ∀ id ty, t.get? id = some ty → ty.isNamed = false → ∀ m ∈ ty.mentions, m.index < id.index
  /-- An alias stands for an issued type. -/
  issued : ∀ id name u, t.get? id = some (.named name u) → u.index < t.size
  /-- No type is there twice. -/
  single : ∀ id id' ty ty', t.get? id = some ty → t.get? id' = some ty' → ty.key = ty'.key → id = id'

theorem Formed.keyed (hf : t.Formed) : t.Keyed := ⟨hf.primitive, hf.single⟩

theorem Formed.mention_lt (hf : t.Formed) (h : t.get? id = some ty) {m : TypeId} (hm : m ∈ ty.mentions) :
    m.index < t.size := by
  cases hn : ty.isNamed with
  | false => exact Nat.lt_trans (hf.earlier id ty h hn m hm) (get?_lt h)
  | true =>
    cases ty with
    | named name u =>
      rw [List.mem_singleton.mp hm]
      exact hf.issued id name u h
    | _ => cases hn

theorem Formed.whole (hf : t.Formed) : t.Whole := fun _ _ h _ hm => hf.mention_lt h hm

theorem fresh_formed : Formed fresh :=
  ⟨fresh_sound.primitive, fun id ty h hn m hm => (fresh_sound.earlier id ty h hn m hm).1, fresh_sound.issued,
    fresh_keyed.single⟩

theorem Formed.insert (hf : t.Formed) (hm : ∀ m ∈ ty.mentions, m.index < t.size) : Formed (t.insert ty).2 := by
  have hgrow := insert_grows t ty
  have hkeyed := hf.keyed.insert ty
  refine ⟨hkeyed.primitive, fun id ty' h hn m hmem => ?_, fun id name u h => ?_, hkeyed.single⟩
  · rcases get?_insert_cases h with h | ⟨hid, rfl⟩
    · exact hf.earlier id ty' h hn m hmem
    · rw [hid]
      exact hm m hmem
  · rcases get?_insert_cases h with h | ⟨hid, rfl⟩
    · exact Nat.lt_of_lt_of_le (hf.issued id name u h) hgrow.size_le
    · exact Nat.lt_of_lt_of_le (hm u (by simp [Ty.mentions])) hgrow.size_le

theorem Formed.defineAlias {t' : TypeTable} (hf : t.Formed) (hu : u.index < t.size) (h : t.defineAlias id u = .ok t') :
    t'.Formed := by
  obtain ⟨name, hid, hsize, hget⟩ := get?_of_defineAlias h
  have hkeyed := hf.keyed.defineAlias h
  refine ⟨hkeyed.primitive, fun id' ty h' hn => ?_, fun id' name' u' h' => ?_, hkeyed.single⟩
  · obtain ⟨ty', hold, -, heq⟩ := key_eq_of_defineAlias h h'
    exact hf.earlier id' ty (heq hn ▸ hold) hn
  · rw [hsize]
    rw [hget] at h'
    split at h'
    · cases h'
      exact hu
    · exact hf.issued id' name' u' h'

/-! ## (2) Shapes of handles -/

/-- The shape of a type at most `depth` levels deep. -/
def shapeWithin (t : TypeTable) : (depth : Nat) → TypeId → Shape
  | 0, _ => .invalid
  | n + 1, id =>
    match t.get? id with
    | some ty => ty.shapeBy (shapeWithin t n)
    | none => .invalid

/-- The shape of a type, which is made of types before it. -/
def shape (t : TypeTable) (id : TypeId) : Shape := t.shapeWithin (id.index + 1) id

namespace Formed

variable {t : TypeTable} (hf : t.Formed)
include hf

theorem shapeWithin_eq {n n' : Nat} (h : id.index < n) (h' : id.index < n') :
    t.shapeWithin n id = t.shapeWithin n' id := by
  induction n generalizing n' id with
  | zero => omega
  | succ n ih =>
    obtain ⟨n', rfl⟩ : ∃ k, n' = k + 1 := ⟨n' - 1, by omega⟩
    simp only [shapeWithin]
    split
    · rename_i ty hty
      refine Ty.shapeBy_congr fun hn m hm => ?_
      have hlt := hf.earlier id ty hty hn m hm
      exact ih (by omega) (by omega)
    · rfl

theorem shape_of_get? (h : t.get? id = some ty) : t.shape id = ty.shapeBy t.shape := by
  simp only [shape, shapeWithin, h]
  exact Ty.shapeBy_congr fun hn m hm => hf.shapeWithin_eq (hf.earlier id ty h hn m hm) (Nat.lt_succ_self _)

theorem exists_shape (h : id.index < t.size) : ∃ ty, t.get? id = some ty ∧ t.shape id = ty.shapeBy t.shape := by
  obtain ⟨ty, hty⟩ := get?_of_lt h
  exact ⟨ty, hty, hf.shape_of_get? hty⟩

/-- Handles of one shape are the same. -/
theorem shape_inj {id' : TypeId} (hlt : id.index < t.size) (hlt' : id'.index < t.size) (h : t.shape id = t.shape id') :
    id = id' := by
  -- by induction on the number of the one handle: parts have smaller numbers
  induction hn : id.index using Nat.strong_induction_on generalizing id id' with
  | _ n ih =>
    subst hn
    obtain ⟨ty, hty, hshape⟩ := hf.exists_shape hlt
    obtain ⟨ty', hty', hshape'⟩ := hf.exists_shape hlt'
    rw [hshape, hshape'] at h
    refine hf.single id id' ty ty' hty hty' (Ty.like_of_shapeBy h fun hnamed m hm m' hm' hmm' => ?_).key_eq
    have hm1 := hf.earlier id ty hty hnamed m hm
    exact ih m.index hm1 (Nat.lt_trans hm1 hlt) (hf.mention_lt hty' hm') hmm' rfl

theorem shape_prim {i : Nat} (h : Ty.primitives[i]? = some ty) : t.shape ⟨i⟩ = ty.shapeBy t.shape :=
  hf.shape_of_get? (hf.primitive i ty h)

theorem prim_lt {i : Nat} (h : i < 13) : i < t.size := get?_lt (hf.primitive i _ (List.getElem?_eq_getElem h))

theorem shape_invalid : t.shape .invalid = .invalid := hf.shape_prim (i := 12) rfl

theorem shape_eq_invalid (hlt : id.index < t.size) : t.shape id = .invalid ↔ id = .invalid := by
  constructor
  · intro h
    exact hf.shape_inj hlt (hf.prim_lt (i := 12) (by omega)) (h.trans hf.shape_invalid.symm)
  · rintro rfl
    exact hf.shape_invalid

theorem shape_int (ty : Surface.IntType) : t.shape (TypeId.int ty.signed ty.width.bits) = .int ty.signed ty.width.bits := by
  obtain ⟨signed, width⟩ := ty
  have hprim : Ty.primitives[(TypeId.int signed width.bits).index]? = some (.int signed width.bits) := by
    cases signed <;> cases width <;> rfl
  exact hf.shape_prim hprim

theorem shape_float (double : Bool) : t.shape (TypeId.float double) = .float double := by
  have hprim : Ty.primitives[(TypeId.float double).index]? = some (.float double) := by cases double <;> rfl
  exact hf.shape_prim hprim

theorem int_lt (ty : Surface.IntType) : (TypeId.int ty.signed ty.width.bits).index < t.size := by
  obtain ⟨signed, width⟩ := ty
  cases signed <;> cases width <;> exact hf.prim_lt (by decide)

theorem float_lt (double : Bool) : (TypeId.float double).index < t.size := by
  cases double <;> exact hf.prim_lt (by decide)

/-- Shapes stay while types are only added and aliases only defined. -/
theorem shape_eq_of_key {t' : TypeTable} (hf' : t'.Formed)
    (h : ∀ id ty, t.get? id = some ty → ∃ ty', t'.get? id = some ty' ∧ ty'.key = ty.key) (hlt : id.index < t.size) :
    t'.shape id = t.shape id := by
  induction hn : id.index using Nat.strong_induction_on generalizing id with
  | _ n ih =>
    subst hn
    obtain ⟨ty, hty, hshape⟩ := hf.exists_shape hlt
    obtain ⟨ty', hty', hkey⟩ := h id ty hty
    rw [hshape, hf'.shape_of_get? hty', ← Ty.shapeBy_key, hkey, Ty.shapeBy_key]
    refine Ty.shapeBy_congr fun hnamed m hm => ?_
    have hm' := hf.earlier id ty hty hnamed m hm
    exact ih m.index hm' (Nat.lt_trans hm' hlt) rfl

end Formed

/-! ## (3) Tables that widen -/

/-- What the alias of this name stands for; nothing unless it is declared. -/
def alias? (t : TypeTable) (name : String) : Option Shape :=
  match (t.findAlias? name).bind t.get? with
  | some (.named _ underlying) => some (t.shape underlying)
  | _ => none

theorem Formed.alias?_eq_some (hf : t.Formed) {name : String} :
    t.alias? name = some τ ↔ ∃ id u, t.get? id = some (.named name u) ∧ t.shape u = τ := by
  constructor
  · intro h
    unfold alias? at h
    split at h
    · rename_i name' u hget
      obtain ⟨id, hfind, hget⟩ := Option.bind_eq_some_iff.mp hget
      obtain ⟨u', hu'⟩ := TypeTable.findAlias?_eq_some hfind
      rw [hget] at hu'
      cases hu'
      exact ⟨id, u, hget, Option.some.inj h⟩
    · cases h
  · rintro ⟨id, u, hget, rfl⟩
    simp only [alias?, hf.keyed.findAlias?_eq_some hget, Option.bind_some, hget]

/-- Types were added, and no alias. -/
structure Widens (t t' : TypeTable) : Prop where
  before : t.Formed
  formed : t'.Formed
  grows : Grows t t'
  aliases : ∀ id name u, t'.get? id = some (.named name u) → t.get? id = some (.named name u)

namespace Widens

variable {t t' t'' : TypeTable}

theorem refl (hf : t.Formed) : Widens t t := ⟨hf, hf, Grows.refl t, fun _ _ _ h => h⟩

theorem trans (h : Widens t t') (h' : Widens t' t'') : Widens t t'' :=
  ⟨h.before, h'.formed, h.grows.trans h'.grows, fun id name u hid => h.aliases id name u (h'.aliases id name u hid)⟩

theorem insert (hf : t.Formed) (hn : ty.isNamed = false) (hm : ∀ m ∈ ty.mentions, m.index < t.size) :
    Widens t (t.insert ty).2 := by
  refine ⟨hf, hf.insert hm, insert_grows t ty, fun id name u h => ?_⟩
  rcases get?_insert_cases h with h | ⟨-, rfl⟩
  · exact h
  · cases hn

theorem lt (h : Widens t t') (hlt : id.index < t.size) : id.index < t'.size :=
  Nat.lt_of_lt_of_le hlt h.grows.size_le

/-- Issued types keep their shapes. -/
theorem shape_eq (h : Widens t t') (hlt : id.index < t.size) : t'.shape id = t.shape id :=
  h.before.shape_eq_of_key h.formed (fun id ty hid => ⟨ty, h.grows id ty hid, rfl⟩) hlt

theorem alias?_eq (h : Widens t t') : t'.alias? = t.alias? := by
  funext name
  refine Option.ext fun τ => ?_
  rw [h.before.alias?_eq_some, h.formed.alias?_eq_some]
  constructor
  · rintro ⟨id, u, hget, hshape⟩
    have hget := h.aliases id name u hget
    exact ⟨id, u, hget, (h.shape_eq (h.before.issued id name u hget)).symm.trans hshape⟩
  · rintro ⟨id, u, hget, hshape⟩
    exact ⟨id, u, h.grows _ _ hget, (h.shape_eq (h.before.issued id name u hget)).trans hshape⟩

end Widens

end TypeTable

/-! ## (4) Looking through aliases -/

namespace Shape

/-- The chain of aliases from the one shape ends at the other. -/
inductive Ends (alias? : String → Option Shape) : Shape → Shape → Prop
  | itself {τ : Shape} : τ.isNamed = false → Ends alias? τ τ
  | through {name : String} {τ υ : Shape} : alias? name = some τ → Ends alias? τ υ → Ends alias? (.named name) υ

/-- What a shape is if aliases are looked through. An alias that leads nowhere is `invalid`. -/
def Unwraps (alias? : String → Option Shape) (τ υ : Shape) : Prop :=
  Ends alias? τ υ ∨ υ = .invalid ∧ ∀ υ', ¬ Ends alias? τ υ'

theorem Ends.unique {alias? : String → Option Shape} {υ' : Shape} (h : Ends alias? τ υ) (h' : Ends alias? τ υ') :
    υ = υ' := by
  induction h with
  | itself hn =>
    cases h' with
    | itself _ => rfl
    | through _ _ => cases hn
  | through hd _ ih =>
    cases h' with
    | itself hn => cases hn
    | through hd' h' =>
      rw [hd] at hd'
      cases hd'
      exact ih h'

theorem Unwraps.eq_invalid {alias? : String → Option Shape} (h : Unwraps alias? .invalid υ) : υ = .invalid := by
  rcases h with h | ⟨h, -⟩
  · cases h
    rfl
  · exact h

end Shape

namespace TypeTable.Formed

variable {t : TypeTable} (hf : t.Formed)
include hf

theorem isNamed_shape (h : t.get? id = some ty) : (t.shape id).isNamed = ty.isNamed := by
  rw [hf.shape_of_get? h]
  cases ty <;> rfl

theorem ends_of_standsFor {v : TypeId} (h : StandsFor t id v) : Shape.Ends t.alias? (t.shape id) (t.shape v) := by
  induction h with
  | itself hget hn => exact .itself ((hf.isNamed_shape hget).trans hn)
  | @through id u v name hget _ ih =>
    rw [hf.shape_of_get? hget]
    exact .through (hf.alias?_eq_some.mpr ⟨id, u, hget, rfl⟩) ih

theorem standsFor_of_ends (h : Shape.Ends t.alias? τ υ) (hlt : id.index < t.size) (hid : t.shape id = τ) :
    ∃ v, StandsFor t id v ∧ t.shape v = υ := by
  induction h generalizing id with
  | itself hn =>
    obtain ⟨ty, hty⟩ := get?_of_lt hlt
    exact ⟨id, .itself hty ((hf.isNamed_shape hty).symm.trans (hid ▸ hn)), hid⟩
  | @through name τ υ halias _ ih =>
    obtain ⟨id', u, hget, hu⟩ := hf.alias?_eq_some.mp halias
    obtain rfl : id = id' := hf.shape_inj hlt (get?_lt hget) (by rw [hid, hf.shape_of_get? hget]; rfl)
    obtain ⟨v, hv, hshape⟩ := ih (hf.issued id name u hget) hu
    exact ⟨v, .through hget hv, hshape⟩

/-- Aliases are looked through in a shape as they are in the table. -/
theorem unwraps_iff (hlt : id.index < t.size) : ∃ v, t.unwrapAlias id = .ok v ∧ v.index < t.size ∧
    ∀ υ, (t.shape id).Unwraps t.alias? υ ↔ υ = t.shape v := by
  obtain ⟨v, hv, hvlt⟩ := follow_of_issued hf.issued (hf.prim_lt (i := 12) (by omega)) hlt (t.size + 1)
  refine ⟨v, hv, hvlt, fun υ => ?_⟩
  by_cases hends : ∃ w, StandsFor t id w
  · obtain ⟨w, hw⟩ := hends
    obtain rfl : v = w := by
      have hw' := hw.unwrapAlias
      rw [unwrapAlias, hv] at hw'
      exact Except.ok.inj hw'
    have hend := hf.ends_of_standsFor hw
    constructor
    · rintro (h | ⟨-, h⟩)
      · exact h.unique hend
      · exact absurd hend (h _)
    · rintro rfl
      exact .inl hend
  · obtain rfl : v = .invalid := (TypeTable.follow_ok hv).resolve_right fun h => hends ⟨v, h⟩
    have hnone : ∀ υ, ¬ Shape.Ends t.alias? (t.shape id) υ := fun υ h => by
      obtain ⟨w, hw, -⟩ := hf.standsFor_of_ends h hlt rfl
      exact hends ⟨w, hw⟩
    rw [hf.shape_invalid]
    constructor
    · rintro (h | ⟨h, -⟩)
      · exact absurd h (hnone υ)
      · exact h
    · rintro rfl
      exact .inr ⟨rfl, hnone⟩

end TypeTable.Formed

end BlockCompiler
