/-
  BlockCompiler.Proofs.Elaboration — expressions are lowered by the rules, and only by them.

  (1) Operators: the table on handles is the table on shapes.
  (2) Casts, members and calls, with aliases looked through.
  (3) Lowering an expression settles what it elaborates to (`lowerExpr_settles`).
-/
import BlockCompiler.Proofs.Deciding

namespace BlockCompiler

open Surface (Expr TypeExpr)
open TypeTable (Formed Widens)
open Interner (get?_lt get?_of_lt)

variable {t : TypeTable} {υ : Shape} {l r : Ty}

/-- A lowered value, as a term and its type. -/
def Value.Reads (t : TypeTable) (v : Value) (b : Term × Shape) : Prop := b.1 = v.term ∧ t.Names v.ty b.2

/-- The types of variables and functions are in the table. -/
structure Env.Issued (env : Env) (t : TypeTable) : Prop where
  vars : ∀ x v, env.vars.get? x = some v → v.ty.index < t.size
  funs : ∀ fn f, env.funs.get? fn = some f → ∀ m ∈ (Ty.func f.signature).mentions, m.index < t.size

/-! ## (1) Operators -/

namespace Operator

variable {t : TypeTable} (hf : t.Formed) {operand : TypeId}
include hf

/-- The table of operators between operands. -/
theorem binaryType?_iff {lhs rhs : TypeId} (hl : t.get? lhs = some l) (hr : t.get? rhs = some r) (hl' : l ≠ .invalid)
    (hr' : r ≠ .invalid) (op : Operator) (τ : Shape) :
    Shape.Binary (t.shape lhs) op (t.shape rhs) τ ↔ ∃ ty, op.binaryType? l r lhs rhs = some ty ∧ t.Names ty τ := by
  have hlt := get?_lt hl
  have hbool : t.Names .bool .bool := hf.names_prim (i := 8) rfl
  rw [hf.shape_of_get? hl, hf.shape_of_get? hr]
  constructor
  · intro h
    generalize hL : l.shapeBy t.shape = L at h
    generalize hR : r.shapeBy t.shape = R at h
    cases h with
    | bools hop =>
      cases l <;> cases hL
      cases r <;> cases hR
      exact ⟨.bool, if_pos hop, hbool⟩
    | ints hop | floats hop =>
      cases l <;> cases hL
      cases r <;> cases hR
      exact ⟨lhs, if_pos ⟨hf.single _ _ _ _ hl hr rfl, hop⟩, hlt, hf.shape_of_get? hl⟩
    | offset hop | ptrs hop =>
      cases l <;> cases hL
      cases r <;> cases hR
      exact ⟨lhs, if_pos hop, hlt, hf.shape_of_get? hl⟩
    | samePtr =>
      cases l <;> cases hL
      cases r <;> cases hR
      exact ⟨.bool, rfl, hbool⟩
    | left => exact absurd (Ty.eq_invalid_of_shapeBy hL) hl'
    | right => exact absurd (Ty.eq_invalid_of_shapeBy hR) hr'
  · rintro ⟨ty, h, hlt', rfl⟩
    unfold binaryType? at h
    split at h
    · obtain ⟨hop, ⟨⟩⟩ := Option.ite_none_right_eq_some.mp h
      rw [hbool.2]
      exact .bools hop
    · obtain ⟨⟨rfl, hop⟩, ⟨⟩⟩ := Option.ite_none_right_eq_some.mp h
      cases hl.symm.trans hr
      rw [hf.shape_of_get? hl]
      exact .ints hop
    · obtain ⟨⟨rfl, hop⟩, ⟨⟩⟩ := Option.ite_none_right_eq_some.mp h
      cases hl.symm.trans hr
      rw [hf.shape_of_get? hl]
      exact .floats hop
    · obtain ⟨hop, ⟨⟩⟩ := Option.ite_none_right_eq_some.mp h
      rw [hf.shape_of_get? hl]
      exact .offset hop
    · split at h
      · rename_i hop
        cases h
        rw [hf.shape_of_get? hl]
        exact .ptrs hop
      · obtain ⟨rfl, ⟨⟩⟩ := Option.ite_none_right_eq_some.mp h
        rw [hbool.2]
        exact .samePtr
    · cases h

/-- The table of operators in front of an operand. -/
theorem unaryType?_iff {ty : Ty} (hget : t.get? operand = some ty) (hne : ty ≠ .invalid) (op : Operator) (τ : Shape)
    : Shape.Unary op (t.shape operand) τ ↔
      (∃ result, op.unaryType? ty operand = some (.known result) ∧ t.Names result τ) ∨
      op.unaryType? ty operand = some .pointer ∧ τ = .ptr (t.shape operand) := by
  have hself : t.Names operand (ty.shapeBy t.shape) := ⟨get?_lt hget, hf.shape_of_get? hget⟩
  rw [hself.2]
  constructor
  · intro h
    generalize hT : ty.shapeBy t.shape = T at h
    cases h with
    | load =>
      cases ty <;> cases hT
      exact .inl ⟨_, rfl, hf.mention_lt hget (.head _), rfl⟩
    | address => exact .inr ⟨by cases ty <;> rfl, rfl⟩
    | negInt | notInt | negFloat | notPtr =>
      cases ty <;> cases hT
      exact .inl ⟨operand, rfl, hself⟩
    | invalid => exact absurd (Ty.eq_invalid_of_shapeBy hT) hne
  · intro h
    unfold unaryType? at h
    split at h
    · simp only [Option.some.injEq, UnaryType.known.injEq, reduceCtorEq, false_and, or_false] at h
      obtain ⟨_, rfl, -, rfl⟩ := h
      exact .load
    · simp only [Option.some.injEq, reduceCtorEq, false_and, exists_false, true_and, false_or] at h
      rw [h]
      exact .address fun hinvalid => hne (Ty.eq_invalid_of_shapeBy hinvalid)
    all_goals
      simp only [Option.some.injEq, UnaryType.known.injEq, reduceCtorEq, false_and, or_false, exists_false] at h
    all_goals
      obtain ⟨_, rfl, -, rfl⟩ := h
      rw [hself.2]
      constructor

theorem binaryType?_lt {lhs rhs ty : TypeId} {op : Operator} (hlt : lhs.index < t.size)
    (h : op.binaryType? l r lhs rhs = some ty) : ty.index < t.size := by
  have hbool : TypeId.bool.index < t.size := hf.prim_lt (i := 8) (by omega)
  unfold binaryType? at h
  split at h <;> (try split at h) <;> (try split at h) <;> simp_all

theorem unaryType?_lt {result : TypeId} {ty : Ty} {op : Operator} (hget : t.get? operand = some ty)
    (h : op.unaryType? ty operand = some (.known result)) : result.index < t.size := by
  have hlt := get?_lt hget
  unfold unaryType? at h
  split at h
  · cases h
    exact hf.mention_lt hget (.head _)
  all_goals simp_all

end Operator

namespace Lowering

variable {env : Env} {st : Typing} {target : TypeId} {operand : Value}

theorem names_invalid (hf : t.Formed) : t.Names .invalid .invalid := hf.names_prim (i := 12) rfl

/-- A value whose term is fixed and whose type is the only one that the rules allow. -/
theorem settles_value (hf : st.types.Formed) {v : Value} {k : Term} {τ : Shape} {P : Shape → Prop} (hk : v.term = k)
    (hty : st.types.Names v.ty τ) (hP : ∀ υ, P υ ↔ υ = τ) : Settles Value.Reads (pure v) st fun b => P b.2 ∧ b.1 = k := by
  refine settles_pure hf (b := (k, τ)) ⟨hk.symm, hty⟩ fun b => ?_
  rw [hP, Prod.ext_iff, and_comm]

theorem typedBinary_settles (hf : st.types.Formed) {lhs rhs : Value} {l r : Shape} (hl : st.types.Names lhs.ty l)
    (hr : st.types.Names rhs.ty r) (op : Operator) : Settles Value.Reads (typedBinary env lhs op rhs) st fun b =>
      Shape.Binary l op r b.2 ∧ b.1 = .binary lhs.term op rhs.term := by
  obtain ⟨hllt, rfl⟩ := hl
  obtain ⟨hrlt, rfl⟩ := hr
  unfold typedBinary
  dsimp only
  split
  · rename_i hbad
    rw [← hf.shape_eq_invalid hllt, ← hf.shape_eq_invalid hrlt] at hbad
    exact settles_value hf rfl (names_invalid hf) fun τ => Shape.binary_invalid hbad
  · rename_i hgood
    rw [not_or, ← hf.shape_eq_invalid hllt, ← hf.shape_eq_invalid hrlt] at hgood
    obtain ⟨lt, hlt, hlshape⟩ := hf.exists_shape hllt
    obtain ⟨rt, hrt, hrshape⟩ := hf.exists_shape hrlt
    have hrow := Operator.binaryType?_iff hf hlt hrt (by rintro rfl; exact hgood.1 hlshape)
      (by rintro rfl; exact hgood.2 hrshape) op
    rw [settles_typeAt hlt, settles_typeAt hrt]
    split
    · rename_i ty hty
      simp only [hty, Option.some.injEq, exists_eq_left'] at hrow
      have hlt : ty.index < st.types.size := Operator.binaryType?_lt hf hllt hty
      exact settles_value hf rfl ⟨hlt, rfl⟩ fun τ => (hrow τ).trans ⟨fun h => h.2.symm, fun h => ⟨hlt, h.symm⟩⟩
    · rename_i hnone
      simp only [hnone, reduceCtorEq, false_and, exists_false, iff_false] at hrow
      simpa [Settles] using fun k τ h => absurd h (hrow τ)

theorem typedUnary_settles (hf : st.types.Formed) (h : st.types.Names operand.ty υ) (op : Operator) :
    Settles Value.Reads (typedUnary env op operand) st fun b =>
      Shape.Unary op υ b.2 ∧ b.1 = .unary op operand.term := by
  obtain ⟨hlt, rfl⟩ := h
  unfold typedUnary
  split
  · rename_i hbad
    rw [← hf.shape_eq_invalid hlt] at hbad
    exact settles_value hf rfl (names_invalid hf) fun τ => by rw [hbad]; exact Shape.unary_invalid
  · rename_i hgood
    rw [← hf.shape_eq_invalid hlt] at hgood
    obtain ⟨ty, hty, hshape⟩ := hf.exists_shape hlt
    have hrow := Operator.unaryType?_iff hf hty (by rintro rfl; exact hgood hshape) op
    rw [settles_typeAt hty]
    split
    · rename_i result hresult
      simp only [hresult, Option.some.injEq, Operator.UnaryType.known.injEq, exists_eq_left', reduceCtorEq, false_and,
        or_false] at hrow
      have hlt : result.index < st.types.size := Operator.unaryType?_lt hf hty hresult
      exact settles_value hf rfl ⟨hlt, rfl⟩ fun τ => (hrow τ).trans ⟨fun h => h.2.symm, fun h => ⟨hlt, h.symm⟩⟩
    · rename_i hpointer
      simp only [hpointer, Option.some.injEq, reduceCtorEq, false_and, exists_false, true_and, false_or] at hrow
      have hintern : Settles TypeTable.Names (liftM (Typing.intern (.ptr operand.ty))) st
          (· = .ptr (st.types.shape operand.ty)) := settles_intern hf rfl (by simpa [Ty.mentions] using hlt) rfl
      refine hintern.bind (fun b => ?_) fun id st' τ hw hid => settles_value hw.formed rfl hid fun υ => Iff.rfl
      rw [hrow, exists_eq_left]
    · rename_i hnone
      simp only [hnone, reduceCtorEq, false_and, exists_false, or_self, iff_false] at hrow
      simpa [Settles] using fun k τ h => absurd h (hrow τ)

/-! ## (2) Casts, members, calls -/

theorem convertible_iff (hf : t.Formed) {v w : TypeId} (hv : t.get? v = some l) (hw : t.get? w = some r) :
    (t.shape v).Converts (t.shape w) ↔ v = w ∨ convertible l r = true := by
  rw [hf.shape_of_get? hv, hf.shape_of_get? hw]
  constructor
  · intro h
    generalize hL : l.shapeBy t.shape = L at h
    generalize hR : r.shapeBy t.shape = R at h
    cases h with
    | same => exact .inl (hf.shape_inj (get?_lt hv) (get?_lt hw) (by rw [hf.shape_of_get? hv, hf.shape_of_get? hw, hL, hR]))
    | _ =>
      cases l <;> cases hL
      cases r <;> cases hR
      exact .inr rfl
  · rintro (rfl | h)
    · rw [hv] at hw
      cases hw
      exact .same
    · unfold convertible at h
      split at h <;> first | constructor | cases h

theorem castAllowed_iff (hf : t.Formed) {source : TypeId} (hs : source.index < t.size) (ht : target.index < t.size)
    : ∃ allowed, castAllowed t source target = .ok allowed ∧
      (allowed = true ↔
        ∃ υ ρ, (t.shape source).Unwraps t.alias? υ ∧ (t.shape target).Unwraps t.alias? ρ ∧ υ.Converts ρ) := by
  obtain ⟨v, hv, hvlt, hvunwraps⟩ := hf.unwraps_iff hs
  obtain ⟨w, hw, hwlt, hwunwraps⟩ := hf.unwraps_iff ht
  obtain ⟨l, hl⟩ := get?_of_lt hvlt
  obtain ⟨r, hr⟩ := get?_of_lt hwlt
  refine ⟨_, castAllowed_run hv hw hl hr, ?_⟩
  rw [Bool.or_eq_true, decide_eq_true_eq, ← convertible_iff hf hl hr]
  simp [hvunwraps, hwunwraps]

/-- The variant of a sum that a type is, if it is one. -/
theorem variant?_iff (hf : t.Formed) {sum variant : TypeId} (hs : sum.index < t.size) (hv : variant.index < t.size) :
    ∃ found, t.variant? sum variant = .ok found ∧
      (∀ d, found = some d ↔ ∃ variants, (t.shape sum).Unwraps t.alias? (.sum variants) ∧
        FirstAt variants (t.shape variant) d.index) ∧
      (found = none ↔ ∀ variants, (t.shape sum).Unwraps t.alias? (.sum variants) → t.shape variant ∉ variants) := by
  obtain ⟨v, hunwrap, hlt, hunwraps⟩ := hf.unwraps_iff hs
  obtain ⟨ty, hty, hshape⟩ := hf.exists_shape hlt
  have hresolved : t.resolved sum = .ok ty := TypeTable.resolved_eq_ok.mpr ⟨v, hunwrap, hty⟩
  simp only [hunwraps, hshape]
  cases ty with
  | sum variants =>
    have htest : ∀ y ∈ variants, decide (y = variant) = true ↔ t.shape y = t.shape variant := fun y hy => by
      rw [decide_eq_true_eq]
      exact ⟨congrArg t.shape, hf.shape_inj (hf.mention_lt hty hy) hv⟩
    refine ⟨Ty.variantIndex? variants variant, bind_ok hresolved rfl, fun d => ?_, ?_⟩
    · have hindex : Ty.variantIndex? variants variant = some d ↔ variants.findIdx? (· = variant) = some d.index := by
        cases d
        simp [Ty.variantIndex?]
      simp [hindex, findIdx?_eq_some_iff_firstAt htest, Ty.shapeBy]
    · simp [Ty.variantIndex?, findIdx?_eq_none_iff_not_mem htest, Ty.shapeBy]
  | _ =>
    refine ⟨none, bind_ok hresolved rfl, ?_, ?_⟩ <;> simp [Ty.shapeBy]

section

variable {alias? : String → Option Shape} (hf : st.types.Formed) (halias : st.types.alias? = alias?)
include hf halias

theorem typedCast_settles {ρ : Shape} (h : st.types.Names operand.ty υ) (ht : st.types.Names target ρ) (span : Span) :
    Settles Value.Reads (typedCast env operand target span) st fun b => Casts alias? operand.term υ ρ b.1 b.2 := by
  subst halias
  obtain ⟨hlt, hυ⟩ := h
  obtain ⟨htlt, hρ⟩ := ht
  unfold typedCast
  split
  · rename_i hbad
    rw [← hf.shape_eq_invalid hlt, hυ] at hbad
    rw [hbad]
    refine settles_pure hf (b := (.cast operand.term, .invalid)) ⟨rfl, names_invalid hf⟩ fun b => ⟨fun h => ?_, ?_⟩
    · obtain ⟨k, τ⟩ := b
      cases h with
      | invalid => rfl
      | variant hne => exact absurd rfl hne
      | convert hne => exact absurd rfl hne
    · rintro rfl
      exact .invalid
  · rename_i hgood
    rw [← hf.shape_eq_invalid hlt, hυ] at hgood
    obtain ⟨found, hfound, hsome, hnone⟩ := variant?_iff hf htlt hlt
    rw [hυ, hρ] at hsome hnone
    rw [settles_ask hfound]
    cases found with
    | some d =>
      obtain ⟨variants, hunwraps, hfirst⟩ := (hsome d).mp rfl
      refine settles_pure hf (b := (.inject d operand.term, ρ)) ⟨rfl, htlt, hρ⟩
        fun b => ⟨fun h => ?_, ?_⟩
      · obtain ⟨k, τ⟩ := b
        cases h with
        | invalid => exact absurd rfl hgood
        | variant _ hunwraps' hfirst' =>
          cases (hsome _).mpr ⟨_, hunwraps', hfirst'⟩
          rfl
        | convert _ hnot => exact absurd hfirst.mem (hnot _ hunwraps)
      · rintro rfl
        exact .variant hgood hunwraps hfirst
    | none =>
      have hnot := hnone.mp rfl
      obtain ⟨allowed, hallowed, hiff⟩ := castAllowed_iff hf hlt htlt
      rw [settles_ask hallowed]
      have hcasts : ∀ b : Term × Shape, Casts st.types.alias? operand.term υ ρ b.1 b.2 ↔
          allowed = true ∧ b = (.cast operand.term, ρ) := by
        rintro ⟨k, τ⟩
        rw [hiff, hυ, hρ]
        constructor
        · intro h
          cases h with
          | invalid => exact absurd rfl hgood
          | variant _ hunwraps hfirst => exact absurd hfirst.mem (hnot _ hunwraps)
          | convert _ _ hυ hρ hconverts => exact ⟨⟨_, _, hυ, hρ, hconverts⟩, rfl⟩
        · rintro ⟨⟨υ', ρ', hυ', hρ', hconverts⟩, heq⟩
          cases heq
          exact .convert hgood hnot hυ' hρ' hconverts
      split
      · rename_i hyes
        refine settles_pure hf (b := (.cast operand.term, ρ)) ⟨rfl, htlt, hρ⟩ fun b => ?_
        simp [hcasts, hyes]
      · rename_i hno
        have hnone : ∀ b : Term × Shape, ¬ Casts st.types.alias? operand.term υ ρ b.1 b.2 := fun b h => hno ((hcasts b).mp h).1
        simpa [Settles] using hnone

theorem typedMember_settles {base : Value} (h : st.types.Names base.ty υ) (field : String) (span : Span) :
    Settles Value.Reads (typedMember env base field span) st fun b =>
      ∃ i, Selects alias? υ field i b.2 ∧ b.1 = .member base.term i := by
  subst halias
  obtain ⟨hlt, hυ⟩ := h
  obtain ⟨v, hunwrap, hvlt, hunwraps⟩ := hf.unwraps_iff hlt
  rw [hυ] at hunwraps
  unfold typedMember
  rw [settles_ask hunwrap]
  split
  · rename_i hbad
    rw [← hf.shape_eq_invalid hlt, hυ] at hbad
    rw [hbad]
    refine settles_pure hf (b := (.member base.term 0, .invalid)) ⟨rfl, names_invalid hf⟩ fun b => ⟨?_, ?_⟩
    · rintro ⟨i, hselects, hk⟩
      obtain ⟨k, τ⟩ := b
      cases hk
      cases hselects with
      | invalid => rfl
      | field hunwraps _ _ => cases hunwraps.eq_invalid
    · rintro rfl
      exact ⟨0, .invalid, rfl⟩
  · rename_i hgood
    rw [← hf.shape_eq_invalid hlt, hυ] at hgood
    obtain ⟨ty, hty, hshape⟩ := hf.exists_shape hvlt
    rw [settles_typeAt hty]
    -- only a field that the struct has can be selected
    have hselects : ∀ i τ, Selects st.types.alias? υ field i τ ↔ ∃ fields, ty = .struct fields ∧
        Ty.fieldIndex? fields field = some i ∧ (fields[i]?).map (fun f => st.types.shape f.ty) = some τ := by
      intro i τ
      constructor
      · intro h
        cases h with
        | invalid => exact absurd rfl hgood
        | field hstruct hfirst hat =>
          rw [hunwraps, hshape] at hstruct
          cases ty <;> cases hstruct
          exact ⟨_, rfl, (findIdx?_eq_some_iff_firstAt (by simp)).mpr hfirst, by rwa [List.getElem?_map] at hat⟩
      · rintro ⟨fields, rfl, hindex, hat⟩
        have hstruct : υ.Unwraps st.types.alias? ((Ty.struct fields).shapeBy st.types.shape) := (hunwraps _).mpr hshape.symm
        exact .field hstruct ((findIdx?_eq_some_iff_firstAt (by simp)).mp hindex) (by rwa [List.getElem?_map])
    cases ty with
    | struct fields =>
      dsimp only
      cases hindex : Ty.fieldIndex? fields field with
      | some i =>
        obtain ⟨hilt, -, -⟩ := List.findIdx?_eq_some_iff_getElem.mp hindex
        have hat : fields[i]? = some fields[i] := List.getElem?_eq_getElem hilt
        have hfield : fields[i].ty.index < st.types.size :=
          hf.mention_lt hty (List.mem_map_of_mem (List.getElem_mem hilt))
        refine settles_pure hf (b := (.member base.term i, st.types.shape fields[i].ty)) ⟨rfl, ?_⟩ fun b => ?_
        · simpa [hat, Value.ty] using ⟨hfield, rfl⟩
        · simp [hselects, hindex, hat, Prod.ext_iff, eq_comm, and_comm]
      | none => simp [Settles, hselects, hindex]
    | _ => simp [Settles, hselects]

end

/-! ### Calls -/

theorem assignable_iff (hf : t.Formed) {expected actual : TypeId} (he : expected.index < t.size)
    (ha : actual.index < t.size) : assignable expected actual = true ↔ (t.shape expected).Fits (t.shape actual) := by
  unfold assignable Shape.Fits
  rw [Bool.or_eq_true, Bool.or_eq_true, decide_eq_true_eq, decide_eq_true_eq, decide_eq_true_eq,
    hf.shape_eq_invalid he, hf.shape_eq_invalid ha, or_assoc]
  exact or_congr_left ⟨congrArg t.shape, hf.shape_inj he ha⟩

/-- No argument is out of place. -/
theorem mismatch?_eq_none_iff (hf : t.Formed) : ∀ {params : List Parameter} {args : List Value},
    params.length = args.length → (∀ p ∈ params, p.ty.index < t.size) → (∀ v ∈ args, v.ty.index < t.size) →
    (mismatch? params args = none ↔
      List.Forall₂ Shape.Fits (params.map fun p => t.shape p.ty) (args.map fun v => t.shape v.ty))
  | [], [], _, _, _ => by simp [mismatch?]
  | p :: params, v :: args, hlen, hparams, hargs => by
    have hfits := assignable_iff hf (hparams p (.head _)) (hargs v (.head _))
    have hrest := mismatch?_eq_none_iff hf (Nat.succ.inj hlen) (fun q hq => hparams q (.tail _ hq))
      fun w hw => hargs w (.tail _ hw)
    rw [List.map_cons, List.map_cons, List.forall₂_cons, ← hfits, ← hrest, mismatch?]
    cases assignable p.ty v.ty <;> simp

/-- Lowered values, as terms and their types. -/
def ValuesRead (t : TypeTable) (vs : List Value) (b : List Term × List Shape) : Prop :=
  b.1 = Value.terms vs ∧ List.Forall₂ t.Names (vs.map (·.ty)) b.2

theorem typedCall_settles {alias? : String → Option Shape} (hf : st.types.Formed) (halias : st.types.alias? = alias?)
    {callee : Value} {args : List Value} {τs : List Shape} (h : st.types.Names callee.ty υ)
    (hargs : List.Forall₂ st.types.Names (args.map (·.ty)) τs) (span : Span) :
    Settles Value.Reads (typedCall env callee args span) st fun b =>
      Applies alias? υ τs b.2 ∧ b.1 = .call callee.term (Value.terms args) := by
  subst halias
  obtain ⟨hlt, hυ⟩ := h
  unfold typedCall
  split
  · rename_i hbad
    rw [← hf.shape_eq_invalid hlt, hυ] at hbad
    rw [hbad]
    refine settles_value hf rfl (names_invalid hf) fun τ => ⟨fun h => ?_, ?_⟩
    · cases h with
      | invalid => rfl
      | func hunwraps _ => cases hunwraps.eq_invalid
    · rintro rfl
      exact .invalid
  · rename_i hgood
    rw [← hf.shape_eq_invalid hlt, hυ] at hgood
    obtain ⟨v, hunwrap, hvlt, hunwraps⟩ := hf.unwraps_iff hlt
    rw [hυ] at hunwraps
    obtain ⟨ty, hty, hshape⟩ := hf.exists_shape hvlt
    have hresolved : Typing.resolved callee.ty st = .ok ty st :=
      ask_eq_ok (TypeTable.resolved_eq_ok.mpr ⟨v, hunwrap, hty⟩)
    have hτs : args.map (fun v => st.types.shape v.ty) = τs := by
      rw [← TypeTable.Names.map_shape hargs, List.map_map]
      rfl
    -- only a function can be applied, and to arguments that fit
    have happlies : ∀ τ, Applies st.types.alias? υ τs τ ↔ ∃ signature, ty = .func signature ∧
        List.Forall₂ Shape.Fits (signature.params.map fun p => st.types.shape p.ty) τs ∧
        τ = st.types.shape signature.result := by
      intro τ
      constructor
      · intro h
        cases h with
        | invalid => exact absurd rfl hgood
        | func hfunc hfits =>
          rw [hunwraps, hshape] at hfunc
          cases ty <;> cases hfunc
          exact ⟨_, rfl, hfits, rfl⟩
      · rintro ⟨signature, rfl, hfits, rfl⟩
        have hfunc : υ.Unwraps st.types.alias? ((Ty.func signature).shapeBy st.types.shape) := (hunwraps _).mpr hshape.symm
        exact .func hfunc hfits
    rw [settles_step hresolved]
    cases ty with
    | func signature =>
      have hmention : ∀ m ∈ (Ty.func signature).mentions, m.index < st.types.size := fun m => hf.mention_lt hty
      have hparams : ∀ p ∈ signature.params, p.ty.index < st.types.size := fun p hp =>
        hmention p.ty (.tail _ (List.mem_map_of_mem hp))
      have hvalues : ∀ v ∈ args, v.ty.index < st.types.size := fun v hv =>
        TypeTable.Names.lt_of_mem hargs v.ty (List.mem_map_of_mem hv)
      have hone : ∀ τ, Applies st.types.alias? υ τs τ ↔
          List.Forall₂ Shape.Fits (signature.params.map fun p => st.types.shape p.ty) τs ∧
            τ = st.types.shape signature.result := by simp [happlies]
      dsimp only
      split
      · rename_i hlen
        have hnone : ∀ τ, ¬ Applies st.types.alias? υ τs τ := fun τ h => by
          have hlength := ((hone τ).mp h).1.length_eq
          rw [← hτs, List.length_map, List.length_map] at hlength
          exact hlen hlength
        simpa [Settles] using fun k τ h => absurd h (hnone τ)
      · rename_i hlen
        have hfits := mismatch?_eq_none_iff hf (not_not.mp hlen) hparams hvalues
        rw [hτs] at hfits
        split
        · rename_i hmatch
          exact settles_value hf rfl ⟨hmention _ (.head _), rfl⟩ fun τ =>
            (hone τ).trans (and_iff_right (hfits.mp hmatch))
        · rename_i hmatch
          have hnone : ∀ τ, ¬ Applies st.types.alias? υ τs τ := fun τ h => by
            rw [hfits.mpr ((hone τ).mp h).1] at hmatch
            cases hmatch
          simpa [Settles] using fun k τ h => absurd h (hnone τ)
    | _ => simp [Settles, happlies]

/-! ## (3) Expressions -/

variable {t : TypeTable}

theorem access_settles (henv : env.Issued t) (hw : t.Widens st.types) (name : String) (span : Span) :
    Settles Value.Reads (access env name span) st fun b => Elaborates (env.glossary t) (.name name span) b.1 b.2 := by
  unfold access
  cases hlocal : env.local? name with
  | some x =>
    have hrule : ∀ b : Term × Shape, Elaborates (env.glossary t) (.name name span) b.1 b.2 ↔
        (env.glossary t).var? x = some b.2 ∧ b.1 = .var x := fun b => elaborates_var hlocal
    dsimp only
    simp only [hrule]
    cases hx : env.vars.get? x with
    | some v =>
      have hvar : st.types.Names (Value.var x v.ty span).ty (t.shape v.ty) := hw.names ⟨henv.vars x v hx, rfl⟩
      have hone : ∀ τ, (env.glossary t).var? x = some τ ↔ τ = t.shape v.ty := by simp [Env.glossary, hx, eq_comm]
      rw [settles_settle (Arena.get_eq_ok.mpr hx)]
      exact settles_value hw.formed rfl hvar hone
    | none => exact settles_fault (by rw [Arena.get, hx]) (by simp [Env.glossary, hx])
  | none =>
    have hrule : ∀ b : Term × Shape, Elaborates (env.glossary t) (.name name span) b.1 b.2 ↔
        ∃ fn, env.function? name = some fn ∧ (env.glossary t).fun? fn = some b.2 ∧ b.1 = .func fn :=
      fun b => elaborates_func hlocal
    dsimp only
    simp only [hrule]
    cases hfunction : env.function? name with
    | some fn =>
      dsimp only
      cases hfn : env.funs.get? fn with
      | some f =>
        have hmention := henv.funs fn f hfn
        have hshape : (Ty.func f.signature).shapeBy st.types.shape = (Ty.func f.signature).shapeBy t.shape :=
          Ty.shapeBy_congr fun _ m hm => hw.shape_eq (hmention m hm)
        have hintern := settles_intern hw.formed rfl (fun m hm => hw.lt (hmention m hm)) hshape
        rw [settles_settle (Arena.get_eq_ok.mpr hfn)]
        refine hintern.bind (fun b => ?_) fun id st' τ hw' hid => settles_value hw'.formed rfl hid fun υ => Iff.rfl
        simp [Env.glossary, hfn, eq_comm]
      | none => exact settles_fault (by rw [Arena.get, hfn]) (by simp [Env.glossary, hfn])
    | none => simp [Settles]

/-- A value that is the only one by the rules. -/
theorem settles_only {Γ : Glossary} {e : Expr} (hf : st.types.Formed) {v : Value} {τ : Shape} (hv : st.types.Names v.ty τ)
    (hrule : Elaborates Γ e v.term τ) (honly : ∀ k τ', Elaborates Γ e k τ' → k = v.term ∧ τ' = τ) :
    Settles Value.Reads (pure v) st fun b => Elaborates Γ e b.1 b.2 := by
  refine settles_pure hf (b := (v.term, τ)) ⟨rfl, hv⟩ fun b => ⟨fun h => Prod.ext_iff.mpr (honly _ _ h), ?_⟩
  rintro rfl
  exact hrule

mutual

/-- Lowering settles what an expression elaborates to. -/
theorem lowerExpr_settles (henv : env.Issued t) : ∀ (e : Expr) {st : Typing}, t.Widens st.types →
    Settles Value.Reads (lowerExpr env e) st fun b => Elaborates (env.glossary t) e b.1 b.2
  | .int value none span, st, hw => by
    have hi32 : st.types.Names (.int true 32) (.int true 32) := hw.formed.names_prim (i := 2) rfl
    simp only [lowerExpr]
    refine settles_only hw.formed hi32 (.int value span) ?_
    rintro k τ ⟨⟩
    exact ⟨rfl, rfl⟩
  | .int value (some ty) span, st, hw => by
    simp only [lowerExpr]
    refine settles_only hw.formed ⟨hw.formed.int_lt ty, hw.formed.shape_int ty⟩ (.suffixed value ty span) ?_
    rintro k τ ⟨⟩
    exact ⟨rfl, rfl⟩
  | .float bits double span, st, hw => by
    simp only [lowerExpr]
    refine settles_only hw.formed ⟨hw.formed.float_lt double, hw.formed.shape_float double⟩ (.float bits double span) ?_
    rintro k τ ⟨⟩
    exact ⟨rfl, rfl⟩
  | .bool value span, st, hw => by
    have hbool : st.types.Names .bool .bool := hw.formed.names_prim (i := 8) rfl
    simp only [lowerExpr]
    refine settles_only hw.formed hbool (.bool value span) ?_
    rintro k τ ⟨⟩
    exact ⟨rfl, rfl⟩
  | .unit span, st, hw => by
    have hunit : st.types.Names .unit .unit := hw.formed.names_prim (i := 9) rfl
    simp only [lowerExpr]
    refine settles_only hw.formed hunit (.unit span) ?_
    rintro k τ ⟨⟩
    exact ⟨rfl, rfl⟩
  | .name name span, st, hw => by
    simp only [lowerExpr]
    exact access_settles henv hw name span
  | .binary lhs op rhs span, st, hw => by
    simp only [lowerExpr]
    refine (lowerExpr_settles henv lhs hw).bind (fun _ => elaborates_binary) fun l st1 bl hw1 hl => ?_
    refine (lowerExpr_settles henv rhs (hw.trans hw1)).bind (fun _ => Iff.rfl) fun r st2 br hw2 hr => ?_
    rw [hl.1, hr.1]
    exact typedBinary_settles hw2.formed (hw2.names hl.2) hr.2 op
  | .unary op operand span, st, hw => by
    simp only [lowerExpr]
    refine (lowerExpr_settles henv operand hw).bind (fun _ => elaborates_unary) fun v st1 b hw1 hv => ?_
    rw [hv.1]
    exact typedUnary_settles hw1.formed hv.2 op
  | .cast operand target span, st, hw => by
    simp only [lowerExpr]
    refine (lowerExpr_settles henv operand hw).bind (fun _ => elaborates_cast) fun v st1 b hw1 hv => ?_
    have halias := (hw.trans hw1).alias?_eq
    have htarget := Annotation.resolve_settles env.file target hw1.formed halias
    refine htarget.bind (fun _ => Iff.rfl) fun id st2 ρ hw2 hid => ?_
    rw [hv.1]
    exact typedCast_settles hw2.formed (hw2.alias?_eq.trans halias) (hw2.names hv.2) hid span
  | .member base field span, st, hw => by
    simp only [lowerExpr]
    refine (lowerExpr_settles henv base hw).bind (fun _ => elaborates_member) fun v st1 b hw1 hv => ?_
    rw [hv.1]
    exact typedMember_settles hw1.formed (hw.trans hw1).alias?_eq hv.2 field span
  | .call callee args span, st, hw => by
    simp only [lowerExpr]
    refine (lowerExpr_settles henv callee hw).bind (fun _ => elaborates_call) fun v st1 b hw1 hv => ?_
    refine (lowerArgs_settles henv args (hw.trans hw1)).bind (fun _ => Iff.rfl) fun vs st2 bs hw2 hvs => ?_
    rw [hv.1, hvs.1]
    exact typedCall_settles hw2.formed (hw.trans (hw1.trans hw2)).alias?_eq (hw2.names hv.2) hvs.2 span

theorem lowerArgs_settles (henv : env.Issued t) : ∀ (args : List Expr) {st : Typing}, t.Widens st.types →
    Settles ValuesRead (lowerArgs env args) st fun b => ElaboratesAll (env.glossary t) args b.1 b.2
  | [], st, hw => by
    simp only [lowerArgs]
    refine settles_pure hw.formed (b := ([], [])) ⟨rfl, .nil⟩ fun b => ⟨fun h => ?_, ?_⟩
    · obtain ⟨ks, τs⟩ := b
      cases h
      rfl
    · rintro rfl
      exact .nil
  | e :: rest, st, hw => by
    simp only [lowerArgs]
    refine (lowerExpr_settles henv e hw).bind (fun _ => elaboratesAll_cons) fun v st1 b hw1 hv => ?_
    refine (lowerArgs_settles henv rest (hw.trans hw1)).bind (fun _ => Iff.rfl) fun vs st2 bs hw2 hvs => ?_
    refine settles_pure hw2.formed (b := (b.1 :: bs.1, b.2 :: bs.2)) ⟨?_, .cons (hw2.names hv.2) hvs.2⟩ fun _ => Iff.rfl
    rw [hv.1, hvs.1, Value.terms]

end

end Lowering

end BlockCompiler
