/-
  BlockCompiler.Proofs.Deciding — steps that decide a judgement.

  `Decides act s Q N`: the step, taken in the state `s`, either gives a result, and `Q` holds of it
  and of the state left; or it gives none, by rejecting or by a fault, and `N` holds. With
  `Settles` both outcomes speak of one judgement: a result is the only thing that the judgement
  holds of, and without a result it holds of nothing. So a judgement is settled part by part
  (`Settles.bind`), in tables that widen on the way.

  (1) The two predicates.
  (2) Annotations are resolved to what they mean (`resolve_settles`).
-/
import BlockCompiler.Proofs.Rules

namespace BlockCompiler

open Surface (Expr TypeExpr)
open TypeTable (Formed Widens)

variable {t : TypeTable} {τs : List Shape} {ty : Ty} {id : TypeId} {τ : Shape} {ids : List TypeId}

/-! ## (1) Deciding -/

section Decides

variable {ε δ σ α β : Type}

def Decides (act : ExceptT δ (EStateM ε σ) α) (s : σ) (Q : α → σ → Prop) (N : Prop) : Prop :=
  match act.run s with
  | .ok (.ok a) s' => Q a s'
  | _ => N

variable {act : ExceptT δ (EStateM ε σ) α} {s s' : σ} {Q Q' : α → σ → Prop} {N N' : Prop}

theorem Decides.mono (h : Decides act s Q N) (hQ : ∀ a s', Q a s' → Q' a s') (hN : N → N') : Decides act s Q' N' := by
  unfold Decides at h ⊢
  split
  · rename_i a s' he
    rw [he] at h
    exact hQ a s' h
  · rename_i hne
    split at h
    · rename_i a s' he
      exact absurd he (hne a s')
    · exact hN h

theorem Decides.result (h : Decides act s Q N) {a : α} (he : act.run s = .ok (.ok a) s') : Q a s' := by
  unfold Decides at h
  rw [he] at h
  exact h

theorem Decides.exists_result (h : Decides act s Q N) (hN : ¬ N) : ∃ a s', act.run s = .ok (.ok a) s' := by
  unfold Decides at h
  split at h
  · exact ⟨_, _, by assumption⟩
  · exact absurd h hN

@[simp] theorem decides_bind (f : α → ExceptT δ (EStateM ε σ) β) (Q : β → σ → Prop) :
    Decides (act >>= f) s Q N ↔ Decides act s (fun a s' => Decides (f a) s' Q N) N := by
  have hrun : (act >>= f).run s = match act.run s with
      | .ok (.ok a) s' => (f a).run s'
      | .ok (.error d) s' => .ok (.error d) s'
      | .error e s' => .error e s' := by
    rw [ExceptT.run_bind]
    change EStateM.bind act.run _ s = _
    unfold EStateM.bind
    cases act.run s with
    | ok r s' => cases r <;> rfl
    | error e s' => rfl
  unfold Decides
  rw [hrun]
  cases act.run s with
  | ok r s' => cases r <;> rfl
  | error e s' => rfl

@[simp] theorem decides_pure (a : α) : Decides (pure a : ExceptT δ (EStateM ε σ) α) s Q N ↔ Q a s := Iff.rfl

@[simp] theorem decides_throw (d : δ) : Decides (throw d : ExceptT δ (EStateM ε σ) α) s Q N ↔ N := Iff.rfl

/-- Whatever the step does, it comes to the same. -/
@[simp] theorem decides_const : Decides act s (fun _ _ => N) N ↔ N := by
  unfold Decides
  split <;> rfl

theorem decides_of_ok {step : EStateM ε σ α} {a : α} (h : step s = .ok a s') :
    Decides (liftM step : ExceptT δ (EStateM ε σ) α) s Q N ↔ Q a s' := by
  have hrun : (liftM step : ExceptT δ (EStateM ε σ) α).run s = .ok (.ok a) s' := by
    change EStateM.map Except.ok step s = _
    simp only [EStateM.map, h]
  unfold Decides
  rw [hrun]

end Decides

/-! ### Judgements -/

/-- In this table, the handle names the type of this shape. -/
def TypeTable.Names (t : TypeTable) (id : TypeId) (τ : Shape) : Prop := id.index < t.size ∧ t.shape id = τ

theorem TypeTable.Formed.names_prim (hf : t.Formed) {i : Nat} (h : Ty.primitives[i]? = some ty) :
    t.Names ⟨i⟩ (ty.shapeBy t.shape) :=
  ⟨Interner.get?_lt (hf.primitive i ty h), hf.shape_prim h⟩

theorem TypeTable.Widens.names {t' : TypeTable} (h : t.Widens t') (hn : t.Names id τ) : t'.Names id τ :=
  ⟨h.lt hn.1, (h.shape_eq hn.1).trans hn.2⟩

theorem TypeTable.Widens.namesAll {t' : TypeTable} (h : t.Widens t') (hn : List.Forall₂ t.Names ids τs)
    : List.Forall₂ t'.Names ids τs := hn.imp fun _ _ => h.names

variable {α α' β β' : Type}

/-- The step gives something that reads as `b`, if the judgement holds of `b` alone; it gives
nothing, if the judgement holds of nothing. -/
def Settles (reads : TypeTable → α → β → Prop) (act : CheckM α) (st : Typing) (J : β → Prop) : Prop :=
  Decides act st (fun a st' => st.types.Widens st'.types ∧ ∃ b, reads st'.types a b ∧ ∀ b', J b' ↔ b' = b) (∀ b, ¬ J b)

variable {reads : TypeTable → α → β → Prop} {st : Typing} {J : β → Prop}

theorem Settles.bind {reads' : TypeTable → α' → β' → Prop} {act : CheckM α'} {f : α' → CheckM α} {J' : β' → Prop}
    {K : β' → β → Prop} (h : Settles reads' act st J') (hJ : ∀ b, J b ↔ ∃ b', J' b' ∧ K b' b)
    (hf : ∀ a st' b', st.types.Widens st'.types → reads' st'.types a b' → Settles reads (f a) st' (K b')) :
    Settles reads (act >>= f) st J := by
  unfold Settles at h ⊢
  rw [decides_bind]
  refine h.mono (fun a st' ⟨hw, b', hreads, hb'⟩ => ?_) fun hnone b hb => ?_
  · have hK : ∀ b, J b ↔ K b' b := fun b => by simp [hJ, hb']
    refine (hf a st' b' hw hreads).mono (fun a' st'' ⟨hw', b, hreads', hb⟩ => ?_) fun hnone b hb => ?_
    · exact ⟨hw.trans hw', b, hreads', fun b'' => (hK b'').trans (hb b'')⟩
    · exact hnone b ((hK b).mp hb)
  · obtain ⟨b', hb', -⟩ := (hJ b).mp hb
    exact hnone b' hb'

theorem settles_pure (hf : st.types.Formed) {a : α} {b : β} (hreads : reads st.types a b) (hJ : ∀ b', J b' ↔ b' = b) :
    Settles reads (pure a) st J := ⟨.refl hf, b, hreads, hJ⟩

theorem settles_throw {d : Diagnostic} (h : ∀ b, ¬ J b) : Settles reads (throw d) st J := h

theorem settles_get {f : Typing → CheckM α} : Settles reads (get >>= f) st J ↔ Settles reads (f st) st J := Iff.rfl

/-- A step that leaves everything as it is. -/
theorem settles_step {step : TypingM α'} {a : α'} (h : step st = .ok a st) {f : α' → CheckM α} :
    Settles reads ((liftM step : CheckM α') >>= f) st J ↔ Settles reads (f a) st J := by
  unfold Settles
  rw [decides_bind]
  exact decides_of_ok h

theorem ask_eq_ok {ask : TypeTable → Except Fault α'} {a : α'} (h : ask st.types = .ok a) :
    Typing.ask ask st = .ok a st := by
  change (Typing.settle (ask st.types) : TypingM α') st = _
  rw [h]
  rfl

theorem settles_ask {ask : TypeTable → Except Fault α'} {a : α'} (h : ask st.types = .ok a) {f : α' → CheckM α} :
    Settles reads (Check.ask ask >>= f) st J ↔ Settles reads (f a) st J := settles_step (ask_eq_ok h)

theorem settles_typeAt (h : st.types.get? id = some ty) {f : Ty → CheckM α} :
    Settles reads ((liftM (Typing.typeAt id) : CheckM Ty) >>= f) st J ↔ Settles reads (f ty) st J :=
  settles_step (ask_eq_ok (Interner.get_eq_ok.mpr h))

theorem settles_settle {r : Except Fault α'} {a : α'} (h : r = .ok a) {f : α' → CheckM α} :
    Settles reads (Check.settle r >>= f) st J ↔ Settles reads (f a) st J := by
  subst h
  exact Iff.rfl

theorem settles_fault {r : Except Fault α'} {e : Fault} (h : r = .error e) {f : α' → CheckM α} (hJ : ∀ b, ¬ J b) :
    Settles reads (Check.settle r >>= f) st J := by
  subst h
  exact hJ

/-- Interning gives the handle of the type. -/
theorem settles_intern (hf : st.types.Formed) (hn : ty.isNamed = false)
    (hm : ∀ m ∈ ty.mentions, m.index < st.types.size) (hτ : ty.shapeBy st.types.shape = τ) :
    Settles TypeTable.Names (liftM (Typing.intern ty)) st (· = τ) := by
  have hw : st.types.Widens (st.types.insert ty).2 := .insert hf hn hm
  have hget := TypeTable.get?_insert st.types hn
  have hshape : TypeTable.shape (st.types.insert ty).2 (st.types.insert ty).1 = τ := by
    rw [hw.formed.shape_of_get? hget, ← hτ]
    exact Ty.shapeBy_congr fun _ m hmem => hw.shape_eq (hm m hmem)
  have hrun : Typing.intern ty st = .ok (st.types.insert ty).1 { st with types := (st.types.insert ty).2 } := rfl
  exact (decides_of_ok hrun).mpr ⟨hw, τ, ⟨Interner.get?_lt hget, hshape⟩, fun _ => Iff.rfl⟩

/-! ## (2) Annotations -/

theorem TypeTable.Names.lt_of_mem : ∀ {ids : List TypeId} {τs : List Shape},
    List.Forall₂ t.Names ids τs → ∀ id ∈ ids, id.index < t.size
  | _, _, .cons h hrest, id, hmem => by
    rcases List.mem_cons.mp hmem with rfl | hmem
    · exact h.1
    · exact lt_of_mem hrest id hmem

theorem TypeTable.Names.map_shape : ∀ {ids : List TypeId} {τs : List Shape},
    List.Forall₂ t.Names ids τs → ids.map t.shape = τs
  | _, _, .nil => rfl
  | _, _, .cons h hrest => by rw [List.map_cons, h.2, map_shape hrest]

/-- Handles and shapes are in their lists together. -/
theorem TypeTable.Names.mem_iff (hf : t.Formed) (h : List.Forall₂ t.Names ids τs) (hid : t.Names id τ)
    : id ∈ ids ↔ τ ∈ τs := by
  rw [← map_shape h, ← hid.2]
  constructor
  · exact List.mem_map_of_mem
  · intro hmem
    obtain ⟨id', hmem, hshape⟩ := List.mem_map.mp hmem
    rwa [hf.shape_inj hid.1 (lt_of_mem h id' hmem) hshape.symm]

theorem meansAll_nil {alias? : String → Option Shape} : MeansAll alias? [] τs ↔ τs = [] :=
  ⟨by rintro ⟨⟩; rfl, by rintro rfl; exact .nil⟩

theorem meansAll_cons {alias? : String → Option Shape} {ty : TypeExpr} {rest : List TypeExpr} :
    MeansAll alias? (ty :: rest) τs ↔ ∃ τ, Means alias? ty τ ∧ ∃ υs, MeansAll alias? rest υs ∧ τs = τ :: υs :=
  ⟨by rintro ⟨⟩; exact ⟨_, by assumption, _, by assumption, rfl⟩, by rintro ⟨τ, h, υs, hs, rfl⟩; exact .cons h hs⟩

namespace Annotation

variable {alias? : String → Option Shape}

/-- Fields of the given names and types. -/
def FieldsRead (names : List String) (t : TypeTable) (fields : List Field) (τs : List Shape) : Prop :=
  fields.map (·.name) = names ∧ List.Forall₂ t.Names (fields.map (·.ty)) τs

/-- Parameters of the given names and types. -/
def ParamsRead (names : List (Option String)) (t : TypeTable) (params : List Parameter) (τs : List Shape) : Prop :=
  params.map (·.name) = names ∧ List.Forall₂ t.Names (params.map (·.ty)) τs

mutual

theorem resolve_settles (file : FileId) : ∀ (ty : TypeExpr) {st : Typing}, st.types.Formed → st.types.alias? = alias? →
    Settles TypeTable.Names (resolve file ty) st (Means alias? ty)
  | .int ty span, st, hf, _ => by
    simp only [resolve]
    exact settles_pure hf ⟨hf.int_lt ty, hf.shape_int ty⟩ fun τ => ⟨by rintro ⟨⟩; rfl, by rintro rfl; exact .int ty span⟩
  | .float double span, st, hf, _ => by
    simp only [resolve]
    exact settles_pure hf ⟨hf.float_lt double, hf.shape_float double⟩ fun τ =>
      ⟨by rintro ⟨⟩; rfl, by rintro rfl; exact .float double span⟩
  | .bool span, st, hf, _ => by
    simp only [resolve]
    exact settles_pure hf (hf.names_prim (i := 8) rfl) fun τ =>
      ⟨by rintro ⟨⟩; rfl, by rintro rfl; exact .bool span⟩
  | .unit span, st, hf, _ => by
    simp only [resolve]
    exact settles_pure hf (hf.names_prim (i := 9) rfl) fun τ =>
      ⟨by rintro ⟨⟩; rfl, by rintro rfl; exact .unit span⟩
  | .ptr pointee span, st, hf, halias => by
    have hmeans : ∀ τ, Means alias? (.ptr pointee span) τ ↔ ∃ υ, Means alias? pointee υ ∧ τ = .ptr υ := fun τ =>
      ⟨by rintro ⟨⟩; exact ⟨_, by assumption, rfl⟩, by rintro ⟨υ, h, rfl⟩; exact .ptr span h⟩
    simp only [resolve]
    refine (resolve_settles file pointee hf halias).bind hmeans fun id st1 υ hw hid => ?_
    exact settles_intern hw.formed rfl (by simpa [Ty.mentions] using hid.1) (by rw [Ty.shapeBy, hid.2])
  | .array element length span, st, hf, halias => by
    have hmeans : ∀ τ, Means alias? (.array element length span) τ ↔ ∃ υ, Means alias? element υ ∧ τ = .array υ length :=
      fun τ => ⟨by rintro ⟨⟩; exact ⟨_, by assumption, rfl⟩, by rintro ⟨υ, h, rfl⟩; exact .array length span h⟩
    simp only [resolve]
    refine (resolve_settles file element hf halias).bind hmeans fun id st1 υ hw hid => ?_
    exact settles_intern hw.formed rfl (by simpa [Ty.mentions] using hid.1) (by rw [Ty.shapeBy, hid.2])
  | .struct fields span, st, hf, halias => by
    have hmeans : ∀ τ, Means alias? (.struct fields span) τ ↔
        ∃ υs, ((fields.map (·.2)).Nodup ∧ ∃ τs, MeansAll alias? (fields.map (·.1)) τs ∧ υs = τs) ∧
          τ = .struct (fields.map (·.2)) υs := fun τ =>
      ⟨by rintro ⟨⟩; exact ⟨_, ⟨by assumption, _, by assumption, rfl⟩, rfl⟩,
        by rintro ⟨_, ⟨hnodup, υs, h, rfl⟩, rfl⟩; exact .struct span h hnodup⟩
    simp only [resolve]
    refine (resolveFields_settles file fields hf halias [] [] .nil List.nodup_nil).bind hmeans
      fun fs st1 υs hw hfs => ?_
    have hlt : ∀ m ∈ (Ty.struct fs).mentions, m.index < st1.types.size := TypeTable.Names.lt_of_mem hfs.2
    refine settles_intern hw.formed rfl hlt ?_
    rw [Ty.shapeBy, hfs.1, ← TypeTable.Names.map_shape hfs.2, List.map_map]
    rfl
  | .sum variants span, st, hf, halias => by
    have hmeans : ∀ τ, Means alias? (.sum variants span) τ ↔
        ∃ υs, (υs.Nodup ∧ ∃ τs, MeansAll alias? variants τs ∧ υs = τs) ∧ τ = .sum υs := fun τ =>
      ⟨by rintro ⟨⟩; exact ⟨_, ⟨by assumption, _, by assumption, rfl⟩, rfl⟩,
        by rintro ⟨_, ⟨hnodup, υs, h, rfl⟩, rfl⟩; exact .sum span h hnodup⟩
    simp only [resolve]
    refine (resolveVariants_settles file variants hf halias [] [] .nil List.nodup_nil).bind hmeans
      fun ids st1 υs hw hids => ?_
    have hlt : ∀ m ∈ (Ty.sum ids).mentions, m.index < st1.types.size := TypeTable.Names.lt_of_mem hids
    refine settles_intern hw.formed rfl hlt ?_
    rw [Ty.shapeBy, TypeTable.Names.map_shape hids]
  | .func params result span, st, hf, halias => by
    have hmeans : ∀ τ, Means alias? (.func params result span) τ ↔ ∃ υ, Means alias? result υ ∧
        ∃ υs, MeansAll alias? (params.map (·.1)) υs ∧ τ = .func (params.map (·.2)) υs υ := fun τ =>
      ⟨by rintro ⟨⟩; exact ⟨_, by assumption, _, by assumption, rfl⟩,
        by rintro ⟨υ, h, υs, hs, rfl⟩; exact .func span h hs⟩
    simp only [resolve]
    refine (resolve_settles file result hf halias).bind hmeans fun id st1 υ hw hid => ?_
    refine (resolveParams_settles file params hw.formed (hw.alias?_eq.trans halias)).bind (fun _ => Iff.rfl)
      fun ps st2 υs hw2 hps => ?_
    have hid := hw2.names hid
    refine settles_intern hw2.formed rfl (fun m hm => ?_) ?_
    · rcases List.mem_cons.mp hm with rfl | hm
      · exact hid.1
      · exact TypeTable.Names.lt_of_mem hps.2 m hm
    · rw [Ty.shapeBy, hps.1, hid.2, ← TypeTable.Names.map_shape hps.2, List.map_map]
      rfl
  | .named name span, st, hf, halias => by
    simp only [resolve, settles_get]
    cases hfind : st.types.findAlias? name with
    | some id =>
      obtain ⟨u, hu⟩ := TypeTable.findAlias?_eq_some hfind
      have halias : alias? name = some (st.types.shape u) := halias ▸ hf.alias?_eq_some.mpr ⟨id, u, hu, rfl⟩
      exact settles_pure hf ⟨Interner.get?_lt hu, hf.shape_of_get? hu⟩ fun τ =>
        ⟨by rintro ⟨⟩; rfl, by rintro rfl; exact .named span halias⟩
    | none =>
      refine settles_throw fun τ h => ?_
      cases h with
      | named _ h =>
        obtain ⟨id, u, hu, -⟩ := hf.alias?_eq_some.mp (halias ▸ h)
        rw [hf.keyed.findAlias?_eq_some hu] at hfind
        cases hfind

theorem resolveFields_settles (file : FileId) : ∀ (fields : List (TypeExpr × String)) {st : Typing}, st.types.Formed →
    st.types.alias? = alias? → ∀ (earlier : List Field) (υs : List Shape),
    List.Forall₂ st.types.Names (earlier.map (·.ty)) υs → (earlier.map (·.name)).Nodup →
    Settles (FieldsRead (earlier.map (·.name) ++ fields.map (·.2))) (resolveFields file earlier fields) st fun b =>
      (earlier.map (·.name) ++ fields.map (·.2)).Nodup ∧ ∃ τs, MeansAll alias? (fields.map (·.1)) τs ∧ b = υs ++ τs
  | [], st, hf, _, earlier, υs, he, hnodup => by
    simp only [resolveFields, List.map_nil, List.append_nil, meansAll_nil]
    exact settles_pure hf ⟨rfl, he⟩ fun b => by simp [hnodup]
  | (ty, name) :: rest, st, hf, halias, earlier, υs, he, hnodup => by
    have hmeans : ∀ b, ((earlier.map (·.name) ++ name :: rest.map (·.2)).Nodup ∧
        ∃ τs, MeansAll alias? (ty :: rest.map (·.1)) τs ∧ b = υs ++ τs) ↔
        ∃ τ, Means alias? ty τ ∧ (earlier.map (·.name) ++ name :: rest.map (·.2)).Nodup ∧
          ∃ τs, MeansAll alias? (rest.map (·.1)) τs ∧ b = υs ++ τ :: τs := by
      simp only [meansAll_cons]
      grind
    simp only [resolveFields, List.map_cons]
    refine (resolve_settles file ty hf halias).bind hmeans fun id st1 τ hw hid => ?_
    split
    · rename_i hdup
      obtain ⟨f, hmem, hname⟩ := List.any_eq_true.mp hdup
      refine settles_throw fun b hb => ?_
      have hdisjoint := (List.nodup_append.mp hb.1).2.2 f.name (List.mem_map_of_mem hmem) name (.head _)
      exact hdisjoint (by simpa using hname)
    · rename_i hnew
      have hearlier : List.Forall₂ st1.types.Names ((earlier ++ [(⟨id, name⟩ : Field)]).map (·.ty)) (υs ++ [τ]) := by
        rw [List.map_append]
        exact List.rel_append (hw.namesAll he) (.cons hid .nil)
      have hnodup : ((earlier ++ [(⟨id, name⟩ : Field)]).map (·.name)).Nodup := by
        rw [List.map_append]
        refine List.Nodup.append hnodup (List.nodup_singleton _) ?_
        simpa [List.any_eq_true] using hnew
      have hrest := resolveFields_settles file rest hw.formed (hw.alias?_eq.trans halias) _ _ hearlier hnodup
      simpa using hrest

theorem resolveVariants_settles (file : FileId) : ∀ (variants : List TypeExpr) {st : Typing}, st.types.Formed →
    st.types.alias? = alias? → ∀ (earlier : List TypeId) (υs : List Shape), List.Forall₂ st.types.Names earlier υs →
    υs.Nodup → Settles (fun t ids => List.Forall₂ t.Names ids) (resolveVariants file earlier variants) st fun b =>
      b.Nodup ∧ ∃ τs, MeansAll alias? variants τs ∧ b = υs ++ τs
  | [], st, hf, _, earlier, υs, he, hnodup => by
    simp only [resolveVariants, meansAll_nil]
    exact settles_pure hf he fun b => by
      simp only [exists_eq_left, List.append_nil, and_iff_right_iff_imp]
      rintro rfl
      exact hnodup
  | ty :: rest, st, hf, halias, earlier, υs, he, hnodup => by
    have hmeans : ∀ b : List Shape, (b.Nodup ∧ ∃ τs, MeansAll alias? (ty :: rest) τs ∧ b = υs ++ τs) ↔
        ∃ τ, Means alias? ty τ ∧ b.Nodup ∧ ∃ τs, MeansAll alias? rest τs ∧ b = υs ++ τ :: τs := by
      simp only [meansAll_cons]
      grind
    simp only [resolveVariants]
    refine (resolve_settles file ty hf halias).bind hmeans fun id st1 τ hw hid => ?_
    have hmem := TypeTable.Names.mem_iff hw.formed (hw.namesAll he) hid
    split
    · rename_i hdup
      have hnone : ∀ b : List Shape, ¬ (b.Nodup ∧ ∃ τs, MeansAll alias? rest τs ∧ b = υs ++ τ :: τs) := by
        rintro b ⟨hb, τs, -, rfl⟩
        exact (List.nodup_append.mp hb).2.2 τ (hmem.mp hdup) τ (.head _) rfl
      simpa [Settles] using hnone
    · rename_i hnew
      have hearlier : List.Forall₂ st1.types.Names (earlier ++ [id]) (υs ++ [τ]) :=
        List.rel_append (hw.namesAll he) (.cons hid .nil)
      have hnodup : (υs ++ [τ]).Nodup :=
        List.Nodup.append hnodup (List.nodup_singleton τ) (by simpa using mt hmem.mpr hnew)
      have hrest := resolveVariants_settles file rest hw.formed (hw.alias?_eq.trans halias) _ _ hearlier hnodup
      simpa using hrest

theorem resolveParams_settles (file : FileId) : ∀ (params : List (TypeExpr × Option String)) {st : Typing},
    st.types.Formed → st.types.alias? = alias? →
    Settles (ParamsRead (params.map (·.2))) (resolveParams file params) st (MeansAll alias? (params.map (·.1)))
  | [], st, hf, _ => by
    simp only [resolveParams, List.map_nil]
    exact settles_pure hf ⟨rfl, .nil⟩ fun b => meansAll_nil
  | (ty, name) :: rest, st, hf, halias => by
    simp only [resolveParams, List.map_cons]
    refine (resolve_settles file ty hf halias).bind (fun _ => meansAll_cons) fun id st1 τ hw hid => ?_
    refine (resolveParams_settles file rest hw.formed (hw.alias?_eq.trans halias)).bind (fun _ => Iff.rfl)
      fun ps st2 τs hw2 hps => ?_
    exact settles_pure hw2.formed ⟨by rw [List.map_cons, hps.1], .cons (hw2.names hid) hps.2⟩ fun _ => Iff.rfl

end

end Annotation

end BlockCompiler
