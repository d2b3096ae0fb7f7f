/-
  BlockCompiler.Proofs.Alike — one type in two tables.

  Two runs may give the same type different handles. Handles are alike if they name types of one
  shape, each in its own table (`TypeTable.Alike`). No later type changes that, in either table.

  (1) Types made of alike parts (`Ty.Like`). In formed tables handles are alike exactly if their
      types are made of alike parts, so interning such types gives alike handles (`Alike.insert`).
  (2) Alike handles have one name (`Alike.name_eq`).
  (3) Tables in which names stand for the same (`TypeTable.Congruent`) answer every question about
      alike handles alike: what aliases lead to, variants of sums, casts, operators.
-/
import BlockCompiler.Proofs.Deciding
import BlockCompiler.Proofs.TwoRuns

namespace BlockCompiler

open List (map_cons mem_cons_self mem_map_of_mem)
open TypeTable (Formed Widens)
open Interner (get?_lt get?_of_lt get_eq_ok)

/-! ## Options and lists, member by member -/

section Lists

variable {α β γ δ : Type} {R : α → β → Prop}

section

variable {l : List α} {l' : List β} (h : List.Forall₂ R l l')
include h

theorem map_eq_of_forall₂ {f : α → γ} {g : β → γ} (hfg : ∀ x y, R x y → f x = g y) : l.map f = l'.map g := by
  induction h with
  | nil => rfl
  | cons hxy _ ih => rw [map_cons, map_cons, hfg _ _ hxy, ih]

theorem mapM_eq_of_forall₂ {m : Type → Type} [Monad m] [LawfulMonad m] {f : α → m γ} {g : β → m γ}
    (hfg : ∀ x ∈ l, ∀ y ∈ l', R x y → f x = g y) : l.mapM f = l'.mapM g := by
  induction h with
  | nil => rfl
  | cons hxy _ ih =>
    have hrest := ih fun x hx y hy => hfg x (.tail _ hx) y (.tail _ hy)
    rw [List.mapM_cons, List.mapM_cons, hfg _ mem_cons_self _ mem_cons_self hxy, hrest]

theorem forall₂_left {P : α → Prop} (hP : ∀ x y, R x y → P x) : ∀ x ∈ l, P x := by
  induction h with
  | nil => simp
  | cons hxy _ ih => simpa using ⟨hP _ _ hxy, ih⟩

theorem forall₂_right {P : β → Prop} (hP : ∀ x y, R x y → P y) : ∀ y ∈ l', P y := by
  induction h with
  | nil => simp
  | cons hxy _ ih => simpa using ⟨hP _ _ hxy, ih⟩

theorem exists_of_forall₂ {x : α} (hx : x ∈ l) : ∃ y ∈ l', R x y := by
  induction h with
  | nil => cases hx
  | cons hxy _ ih =>
    rcases List.mem_cons.mp hx with rfl | hx
    · exact ⟨_, .head _, hxy⟩
    · obtain ⟨y, hy, hxy⟩ := ih hx
      exact ⟨y, .tail _ hy, hxy⟩

end

section

variable {x : Option α} {y : Option β} (h : Option.Rel R x y)
include h

theorem optionRel_some {a : α} {b : β} (hx : x = some a) (hy : y = some b) : R a b := by
  subst hx hy
  cases h with
  | some hab => exact hab

theorem optionRel_map {S : γ → δ → Prop} {f : α → γ} {g : β → δ} (hfg : ∀ a b, R a b → S (f a) (g b))
    : Option.Rel S (x.map f) (y.map g) := by
  cases h with
  | some hab => exact .some (hfg _ _ hab)
  | none => exact .none

theorem optionRel_mono {R' : α → β → Prop} (hR : ∀ a b, R a b → R' a b) : Option.Rel R' x y := by
  cases h with
  | some hab => exact .some (hR _ _ hab)
  | none => exact .none

end

theorem getElem?_of_forall₂ {l : List α} {l' : List β} (h : List.Forall₂ R l l') (i : Nat) :
    Option.Rel R l[i]? l'[i]? := by
  induction h generalizing i with
  | nil => exact .none
  | cons hxy _ ih =>
    cases i with
    | zero => exact .some hxy
    | succ i => exact ih i

theorem findIdx?_eq_of_forall₂ {p : α → Bool} {q : β → Bool} {l : List α} {l' : List β} (h : List.Forall₂ R l l')
    (hpq : ∀ x y, R x y → p x = q y) : l.findIdx? p = l'.findIdx? q := by
  induction h with
  | nil => rfl
  | cons hxy _ ih => simp only [List.findIdx?_cons, hpq _ _ hxy, ih]

end Lists

/-! ## (1) Alike handles -/

namespace Ty

variable {shape shape' : TypeId → Shape}

variable {R : TypeId → TypeId → Prop} {ty ty' : Ty}

section

variable (h : ty.Like R ty')
include h

theorem Like.isNamed_eq : ty.isNamed = ty'.isNamed := by cases h <;> rfl

theorem Like.isInt_eq : ty.isInt = ty'.isInt := by cases h <;> rfl

theorem Like.isFloat_eq : ty.isFloat = ty'.isFloat := by cases h <;> rfl

theorem Like.isPtr_eq : ty.isPtr = ty'.isPtr := by cases h <;> rfl

theorem Like.isSum_eq : ty.isSum = ty'.isSum := by cases h <;> rfl

theorem Like.mentions (hn : ty.isNamed = false) : List.Forall₂ R ty.mentions ty'.mentions := by
  cases h with
  | ptr hab => exact .cons hab .nil
  | array _ hab => exact .cons hab .nil
  | struct hfs => exact List.forall₂_map_left_iff.mpr (List.forall₂_map_right_iff.mpr (hfs.imp fun _ _ hf => hf.2))
  | sum hvs => exact hvs
  | func hf =>
    exact .cons hf.result (List.forall₂_map_left_iff.mpr (List.forall₂_map_right_iff.mpr (hf.params.imp fun _ _ hp => hp.2)))
  | named => cases hn
  | _ => exact .nil

theorem Like.shapeBy_eq (hR : ∀ a b, R a b → shape a = shape' b) : ty.shapeBy shape = ty'.shapeBy shape' := by
  cases h with
  | ptr hab => rw [shapeBy, shapeBy, hR _ _ hab]
  | array _ hab => rw [shapeBy, shapeBy, hR _ _ hab]
  | struct hfs =>
    rw [shapeBy, shapeBy, map_eq_of_forall₂ hfs fun _ _ hf => hf.1, map_eq_of_forall₂ hfs fun _ _ hf => hR _ _ hf.2]
  | sum hvs => rw [shapeBy, shapeBy, map_eq_of_forall₂ hvs hR]
  | func hf =>
    rw [shapeBy, shapeBy, map_eq_of_forall₂ hf.params fun _ _ hp => hp.1,
      map_eq_of_forall₂ hf.params fun _ _ hp => hR _ _ hp.2, hR _ _ hf.result]
  | _ => rfl

end

theorem Like.mono {R' : TypeId → TypeId → Prop} (h : ty.Like R ty') (hR : ∀ a b, R a b → R' a b) : ty.Like R' ty' := by
  cases h with
  | ptr hab => exact .ptr (hR _ _ hab)
  | array length hab => exact .array length (hR _ _ hab)
  | struct hfs => exact .struct (hfs.imp fun _ _ hf => ⟨hf.1, hR _ _ hf.2⟩)
  | sum hvs => exact .sum (hvs.imp hR)
  | func hf => exact .func ⟨hf.params.imp fun _ _ hp => ⟨hp.1, hR _ _ hp.2⟩, hR _ _ hf.result⟩
  | _ => constructor

end Ty

namespace TypeTable

variable {ty ty' : Ty} {t1 t2 : TypeTable}

/-- The handles name types of one shape, each in its own table. -/
def Alike (t₁ t₂ : TypeTable) (a b : TypeId) : Prop := ∃ τ, t₁.Names a τ ∧ t₂.Names b τ

namespace Alike

variable {t1 t2 t1' t2' : TypeTable} {a b a' b' : TypeId}

theorem left_lt (h : Alike t1 t2 a b) : a.index < t1.size := by
  obtain ⟨τ, ha, -⟩ := h
  exact ha.1

theorem right_lt (h : Alike t1 t2 a b) : b.index < t2.size := by
  obtain ⟨τ, -, hb⟩ := h
  exact hb.1

theorem shape_eq (h : Alike t1 t2 a b) : t1.shape a = t2.shape b := by
  obtain ⟨τ, ha, hb⟩ := h
  rw [ha.2, hb.2]

theorem of_shape_eq (ha : a.index < t1.size) (hb : b.index < t2.size) (h : t1.shape a = t2.shape b) :
    Alike t1 t2 a b := ⟨t1.shape a, ⟨ha, rfl⟩, hb, h.symm⟩

theorem widens (w1 : t1.Widens t1') (w2 : t2.Widens t2') (h : Alike t1 t2 a b) : Alike t1' t2' a b := by
  obtain ⟨τ, ha, hb⟩ := h
  exact ⟨τ, w1.names ha, w2.names hb⟩

section

variable (hf1 : t1.Formed) (hf2 : t2.Formed)
include hf1 hf2

/-- Handles are told apart in the one table as in the other. -/
theorem eq_iff (h : Alike t1 t2 a b) (h' : Alike t1 t2 a' b') : a = a' ↔ b = b' := by
  constructor
  · rintro rfl
    exact hf2.shape_inj h.right_lt h'.right_lt (h.shape_eq.symm.trans h'.shape_eq)
  · rintro rfl
    exact hf1.shape_inj h.left_lt h'.left_lt (h.shape_eq.trans h'.shape_eq.symm)

theorem prim {i : Nat} (h : i < 13) : Alike t1 t2 ⟨i⟩ ⟨i⟩ := by
  have hprim : Ty.primitives[i]? = some Ty.primitives[i] := List.getElem?_eq_getElem h
  have hplain : ∀ ty ∈ Ty.primitives, ty.mentions = [] := by decide
  have hshape : ∀ shape shape' : TypeId → Shape, Ty.primitives[i].shapeBy shape = Ty.primitives[i].shapeBy shape' :=
    fun shape shape' => Ty.shapeBy_congr fun _ m hm => by
      rw [hplain _ (List.getElem_mem h)] at hm
      cases hm
  exact ⟨_, hf1.names_prim hprim, hshape t1.shape t2.shape ▸ hf2.names_prim hprim⟩

theorem int (ty : Surface.IntType) :
    Alike t1 t2 (.int ty.signed ty.width.bits) (.int ty.signed ty.width.bits) :=
  of_shape_eq (hf1.int_lt ty) (hf2.int_lt ty) (by rw [hf1.shape_int, hf2.shape_int])

theorem float (double : Bool) : Alike t1 t2 (TypeId.float double) (TypeId.float double) :=
  of_shape_eq (hf1.float_lt double) (hf2.float_lt double) (by rw [hf1.shape_float, hf2.shape_float])

theorem bool : Alike t1 t2 .bool .bool := prim hf1 hf2 (i := 8) (by omega)

theorem unit : Alike t1 t2 .unit .unit := prim hf1 hf2 (i := 9) (by omega)

theorem invalid : Alike t1 t2 .invalid .invalid := prim hf1 hf2 (i := 12) (by omega)

section

variable (h : Alike t1 t2 a b)
include h

theorem eq_invalid_iff : a = .invalid ↔ b = .invalid :=
  h.eq_iff hf1 hf2 (invalid hf1 hf2)

theorem like (ha : t1.get? a = some ty) (hb : t2.get? b = some ty') : ty.Like (Alike t1 t2) ty' := by
  have hshape := h.shape_eq
  rw [hf1.shape_of_get? ha, hf2.shape_of_get? hb] at hshape
  exact Ty.like_of_shapeBy hshape fun _ m hm m' hm' => of_shape_eq (hf1.mention_lt ha hm) (hf2.mention_lt hb hm')

theorem exists_like : ∃ ty ty', t1.get? a = some ty ∧ t2.get? b = some ty' ∧ ty.Like (Alike t1 t2) ty' := by
  obtain ⟨ty, ha⟩ := get?_of_lt h.left_lt
  obtain ⟨ty', hb⟩ := get?_of_lt h.right_lt
  exact ⟨ty, ty', ha, hb, h.like hf1 hf2 ha hb⟩

theorem get : SameOutcome (Ty.Like (Alike t1 t2)) Eq (t1.get a) (t2.get b) := by
  obtain ⟨ty, ty', ha, hb, hlike⟩ := h.exists_like hf1 hf2
  rw [get_eq_ok.mpr ha, get_eq_ok.mpr hb]
  exact .ok hlike

end

theorem of_like (ha : t1.get? a = some ty) (hb : t2.get? b = some ty') (h : ty.Like (Alike t1 t2) ty') :
    Alike t1 t2 a b :=
  of_shape_eq (get?_lt ha) (get?_lt hb) (by
    rw [hf1.shape_of_get? ha, hf2.shape_of_get? hb]
    exact h.shapeBy_eq fun _ _ => shape_eq)

end

end Alike

/-- Interning types of alike parts gives alike handles. -/
theorem Alike.insert (hf1 : t1.Formed) (hf2 : t2.Formed) (h : ty.Like (Alike t1 t2) ty') (hn : ty.isNamed = false)
    : t1.Widens (t1.insert ty).2 ∧ t2.Widens (t2.insert ty').2 ∧
      Alike (t1.insert ty).2 (t2.insert ty').2 (t1.insert ty).1 (t2.insert ty').1 := by
  have hn' : ty'.isNamed = false := h.isNamed_eq ▸ hn
  have hmentions := h.mentions hn
  have w1 : t1.Widens (t1.insert ty).2 := .insert hf1 hn (forall₂_left hmentions fun _ _ => left_lt)
  have w2 : t2.Widens (t2.insert ty').2 := .insert hf2 hn' (forall₂_right hmentions fun _ _ => right_lt)
  exact ⟨w1, w2, of_like w1.formed w2.formed (get?_insert t1 hn) (get?_insert t2 hn') (h.mono fun _ _ => widens w1 w2)⟩

/-! ## (2) Names -/

section

variable {a b : TypeId} (hf1 : t1.Formed) (hf2 : t2.Formed) (h : Alike t1 t2 a b)
include hf1 hf2 h

/-- The name of a type is made of the names of earlier types. -/
theorem Alike.nameWithin_eq {n m : Nat} (hn : a.index < n) (hm : b.index < m)
    : t1.nameWithin n a = t2.nameWithin m b := by
  induction n generalizing m a b with
  | zero => omega
  | succ n ih =>
    obtain ⟨m, rfl⟩ : ∃ k, m = k + 1 := ⟨m - 1, by omega⟩
    obtain ⟨ty, ty', ha, hb, hlike⟩ := h.exists_like hf1 hf2
    have hpart : ty.isNamed = false → ∀ x ∈ ty.mentions, ∀ y ∈ ty'.mentions, Alike t1 t2 x y →
        t1.nameWithin n x = t2.nameWithin m y := fun hplain x hx y hy hxy => by
      have hx := hf1.earlier a ty ha hplain x hx
      have hy := hf2.earlier b ty' hb (hlike.isNamed_eq ▸ hplain) y hy
      exact ih hxy (by omega) (by omega)
    rw [nameWithin, nameWithin, get_eq_ok.mpr ha, get_eq_ok.mpr hb]
    simp only [bind, Except.bind]
    cases hlike with
    | ptr hab | array _ hab =>
      dsimp only
      rw [hpart rfl _ mem_cons_self _ mem_cons_self hab]
    | struct hfs =>
      dsimp only
      rw [mapM_eq_of_forall₂ hfs fun f hf g hg hfg => ?_]
      rw [hpart rfl _ (mem_map_of_mem hf) _ (mem_map_of_mem hg) hfg.2, hfg.1]
    | sum hvs =>
      dsimp only
      rw [mapM_eq_of_forall₂ hvs fun v hv w hw hvw => ?_]
      rw [hpart rfl v hv w hw hvw]
    | func hfg =>
      dsimp only
      rw [mapM_eq_of_forall₂ hfg.params fun p hp q hq hpq => ?_,
        hpart rfl _ mem_cons_self _ mem_cons_self hfg.result]
      rw [hpart rfl _ (.tail _ (mem_map_of_mem hp)) _ (.tail _ (mem_map_of_mem hq))
        hpq.2, hpq.1]
    | _ => rfl

theorem Alike.name_eq : t1.name a = t2.name b :=
  h.nameWithin_eq hf1 hf2 (Nat.lt_succ_of_lt h.left_lt) (Nat.lt_succ_of_lt h.right_lt)

end

/-! ## (3) Tables of the same aliases -/

/-- Names stand for the same in both tables. -/
structure Congruent (t₁ t₂ : TypeTable) : Prop where
  left : t₁.Formed
  right : t₂.Formed
  alias?_eq : t₁.alias? = t₂.alias?

namespace Congruent

variable {t1 t2 t1' t2' : TypeTable} {a b a' b' : TypeId}

theorem widens (h : t1.Congruent t2) (w1 : t1.Widens t1') (w2 : t2.Widens t2') : t1'.Congruent t2' :=
  ⟨w1.formed, w2.formed, by rw [w1.alias?_eq, w2.alias?_eq, h.alias?_eq]⟩

variable (hc : t1.Congruent t2)
include hc

section

variable (h : Alike t1 t2 a b)
include h

theorem unwrapAlias : SameOutcome (Alike t1 t2) Eq (t1.unwrapAlias a) (t2.unwrapAlias b) := by
  obtain ⟨v, hv, hvlt, hvunwraps⟩ := hc.left.unwraps_iff h.left_lt
  obtain ⟨w, hw, hwlt, hwunwraps⟩ := hc.right.unwraps_iff h.right_lt
  have hshape : (t2.shape b).Unwraps t2.alias? (t1.shape v) := by
    rw [← h.shape_eq, ← hc.alias?_eq]
    exact (hvunwraps _).mpr rfl
  rw [hv, hw]
  exact .ok (.of_shape_eq hvlt hwlt ((hwunwraps _).mp hshape))

theorem resolved : SameOutcome (Ty.Like (Alike t1 t2)) Eq (t1.resolved a) (t2.resolved b) := by
  unfold TypeTable.resolved
  generalize hx : t1.unwrapAlias a = x
  generalize hy : t2.unwrapAlias b = y
  cases hx ▸ hy ▸ hc.unwrapAlias h with
  | ok hvw => exact hvw.get hc.left hc.right
  | error he => exact .error he

theorem variant?_eq (h' : Alike t1 t2 a' b') : t1.variant? a a' = t2.variant? b b' := by
  refine (hc.resolved h).bind_eq fun ty ty' hlike => ?_
  cases hlike with
  | sum hvs =>
    dsimp only [Ty.variantIndex?]
    rw [findIdx?_eq_of_forall₂ hvs fun v w hvw => decide_eq_decide.mpr (hvw.eq_iff hc.left hc.right h')]
  | _ => rfl

theorem variantType (variant : VariantId) :
    SameOutcome (Alike t1 t2) Eq (t1.variantType a variant) (t2.variantType b variant) := by
  have hnone : SameOutcome (Alike t1 t2) Eq (t1.name a >>= fun name => throw (.noVariant variant.index name))
      (t2.name b >>= fun name => throw (.noVariant variant.index name)) := by
    rw [h.name_eq hc.left hc.right]
    cases t2.name b <;> exact .error rfl
  unfold TypeTable.variantType
  generalize hx : t1.resolved a = x
  generalize hy : t2.resolved b = y
  cases hx ▸ hy ▸ hc.resolved h with
  | error he => exact .error he
  | ok hlike =>
    cases hlike with
    | @sum as bs hvs =>
      have hat := getElem?_of_forall₂ hvs variant.index
      simp only [bind, Except.bind]
      generalize as[variant.index]? = v at hat ⊢
      generalize bs[variant.index]? = w at hat ⊢
      cases hat with
      | some hvw => exact .ok hvw
      | none => exact hnone
    | _ => exact hnone

end

end Congruent

end TypeTable

namespace Operator

open TypeTable (Alike)

variable {t1 t2 : TypeTable} {a b a' b' : TypeId} {l r l' r' : Ty}

/-- The table of operators between operands. -/
theorem binaryType?_alike (hf1 : t1.Formed) (hf2 : t2.Formed) (ha : Alike t1 t2 a b) (ha' : Alike t1 t2 a' b')
    (hl : l.Like (Alike t1 t2) l') (hr : r.Like (Alike t1 t2) r') (op : Operator) :
    Option.Rel (Alike t1 t2) (op.binaryType? l r a a') (op.binaryType? l' r' b b') := by
  have heq : a = a' ↔ b = b' := ha.eq_iff hf1 hf2 ha'
  have hbool : Alike t1 t2 .bool .bool := .bool hf1 hf2
  cases hl with
  | bool =>
    cases hr with
    | bool =>
      dsimp only [binaryType?]
      split
      · exact .some hbool
      · exact .none
    | _ => exact .none
  | int =>
    cases hr with
    | int =>
      simp only [binaryType?, heq]
      split
      · exact .some ha
      · exact .none
    | _ => exact .none
  | float =>
    cases hr with
    | float =>
      simp only [binaryType?, heq]
      split
      · exact .some ha
      · exact .none
    | _ => exact .none
  | ptr =>
    cases hr with
    | int =>
      dsimp only [binaryType?]
      split
      · exact .some ha
      · exact .none
    | ptr =>
      dsimp only [binaryType?]
      split
      · exact .some ha
      · split
        · exact .some hbool
        · exact .none
    | _ => exact .none
  | _ => exact .none

inductive UnaryType.Like (R : TypeId → TypeId → Prop) : UnaryType → UnaryType → Prop
  | known {a b : TypeId} : R a b → Like R (.known a) (.known b)
  | pointer : Like R .pointer .pointer

/-- The table of operators in front of an operand. -/
theorem unaryType?_alike (ha : Alike t1 t2 a b) (hl : l.Like (Alike t1 t2) l') (op : Operator) :
    Option.Rel (UnaryType.Like (Alike t1 t2)) (op.unaryType? l a) (op.unaryType? l' b) := by
  cases hl with
  | ptr hp =>
    cases op with
    | star => exact .some (.known hp)
    | bitAnd => exact .some .pointer
    | bitNot => exact .some (.known ha)
    | _ => exact .none
  | int =>
    cases op with
    | bitAnd => exact .some .pointer
    | sub | bitNot => exact .some (.known ha)
    | _ => exact .none
  | float =>
    cases op with
    | bitAnd => exact .some .pointer
    | sub => exact .some (.known ha)
    | _ => exact .none
  | _ =>
    cases op with
    | bitAnd => exact .some .pointer
    | _ => exact .none

end Operator

namespace Lowering

open TypeTable (Alike Congruent)

variable {t1 t2 : TypeTable} {a b a' b' : TypeId}

theorem convertible_eq {R : TypeId → TypeId → Prop} {l r l' r' : Ty} (hl : l.Like R l') (hr : r.Like R r') :
    convertible l r = convertible l' r' := by
  cases hl <;> cases hr <;> rfl

theorem castAllowed_eq (hc : t1.Congruent t2) (h : Alike t1 t2 a b) (h' : Alike t1 t2 a' b') :
    castAllowed t1 a a' = castAllowed t2 b b' := by
  unfold castAllowed
  simp only [h.eq_iff hc.left hc.right h']
  split
  · rfl
  · refine (hc.unwrapAlias h).bind_eq fun v w hvw => (hc.unwrapAlias h').bind_eq fun v' w' hvw' => ?_
    simp only [hvw.eq_iff hc.left hc.right hvw']
    split
    · rfl
    · refine (hvw.get hc.left hc.right).bind_eq fun l l' hl => (hvw'.get hc.left hc.right).bind_eq fun r r' hr => ?_
      rw [convertible_eq hl hr]

theorem assignable_eq (hf1 : t1.Formed) (hf2 : t2.Formed) (h : Alike t1 t2 a b) (h' : Alike t1 t2 a' b') :
    assignable a a' = assignable b b' := by
  simp only [assignable, h.eq_iff hf1 hf2 h', h.eq_invalid_iff hf1 hf2, h'.eq_invalid_iff hf1 hf2]

end Lowering

end BlockCompiler
