/-
  BlockCompiler.Proofs.AlikeText — one text for two contexts.

  Two contexts are twins if they differ in the handles of types only, and aliases have the same
  handles (`Context.Twin`). Neither what is printed nor the target code shows a handle of a type,
  so both texts are the same, and where there is none, the fault is.

  (1) Alike types have the same size and alignment (`byteSize_eq`), and the same spelling, whatever
      is being expanded (`spellType_alike`).
  (2) Twins print the same (`Twin.print_eq`).
  (3) Twins have the same code (`emitValue_eq`, `Twin.moduleCode_eq`).
-/
import BlockCompiler.Proofs.AlikeState
import BlockCompiler.Proofs.Expansion
import BlockCompiler.Proofs.Layout

namespace BlockCompiler

open TypeTable (Formed Alike Congruent SameAliases)
open Interner (get?_lt get_eq_ok)

variable {t : TypeTable} {id : TypeId} {x y : Terminator}

/-! ## Steps that do the same -/

section

variable {ε σ α β γ δ : Type} {R : α → β → Prop}

theorem foldlM_eq_of_forall₂ {f : γ → α → Except ε γ} {g : γ → β → Except ε γ} {l : List α} {l' : List β}
    (h : List.Forall₂ R l l') (hfg : ∀ c x y, R x y → f c x = g c y) (c : γ) : l.foldlM f c = l'.foldlM g c := by
  induction h generalizing c with
  | nil => rfl
  | cons hxy _ ih =>
    rw [List.foldlM_cons, List.foldlM_cons, hfg c _ _ hxy]
    exact congrArg _ (funext ih)

theorem forM_eq_of_forall₂ {m : Type → Type} [Monad m] {f : α → m PUnit} {g : β → m PUnit} {l : List α} {l' : List β}
    (h : List.Forall₂ R l l') (hfg : ∀ x y, R x y → f x = g y) : l.forM f = l'.forM g := by
  induction h with
  | nil => rfl
  | cons hxy _ ih =>
    change f _ >>= (fun _ => List.forM _ f) = g _ >>= fun _ => List.forM _ g
    rw [hfg _ _ hxy, ih]

theorem ofExcept_bind_eq {r : Except ε α} {r' : Except ε β} (h : SameOutcome R Eq r r') {k : α → EStateM ε σ γ}
    {k' : β → EStateM ε σ γ} (hk : ∀ a b, R a b → k a = k' b) : ofExcept r >>= k = ofExcept r' >>= k' := by
  cases h with
  | ok hab => exact hk _ _ hab
  | error he => rw [he]; rfl

/-- In this state both steps do the same. Where they give a result, they leave the state as it is. -/
structure SameIn (s : σ) (act act' : EStateM ε σ γ) : Prop where
  eq : act s = act' s
  kept : Whenever act s fun _ s' => s' = s

namespace SameIn

variable {s : σ} {act act' : EStateM ε σ γ}

theorem refl (h : Whenever act s fun _ s' => s' = s) : SameIn s act act := ⟨rfl, h⟩

theorem pure (a : γ) : SameIn s (pure a : EStateM ε σ γ) (pure a) := .refl ((whenever_pure a).mpr rfl)

theorem throw (e : ε) : SameIn s (throw e : EStateM ε σ γ) (throw e) := .refl (whenever_throw e)

theorem bind {k k' : γ → EStateM ε σ δ} (h : SameIn s act act') (hk : ∀ a, SameIn s (k a) (k' a)) :
    SameIn s (act >>= k) (act' >>= k') := by
  refine ⟨?_, (whenever_bind _ _).mpr fun a s' he => ?_⟩
  · change EStateM.bind act k s = EStateM.bind act' k' s
    simp only [EStateM.bind, ← h.eq]
    cases hact : act s with
    | error e s' => rfl
    | ok a s' =>
      obtain rfl := h.kept a s' hact
      exact (hk a).eq
  · obtain rfl := h.kept a s' he
    exact (hk a).kept

theorem get_bind {k k' : σ → EStateM ε σ δ} (h : SameIn s (k s) (k' s)) : SameIn s (get >>= k) (get >>= k') :=
  ⟨h.eq, (whenever_bind _ _).mpr ((whenever_get _).mpr h.kept)⟩

theorem ofExcept_bind {r : Except ε α} {r' : Except ε β} (h : SameOutcome R Eq r r') {k : α → EStateM ε σ γ}
    {k' : β → EStateM ε σ γ} (hk : ∀ a b, R a b → SameIn s (k a) (k' b)) :
    SameIn s (ofExcept r >>= k) (ofExcept r' >>= k') := by
  cases h with
  | ok hab => exact hk _ _ hab
  | error he =>
    rw [he]
    exact .throw _

theorem mapM {f : α → EStateM ε σ γ} {g : β → EStateM ε σ γ} {l : List α} {l' : List β} (h : List.Forall₂ R l l')
    (hfg : ∀ x ∈ l, ∀ y ∈ l', R x y → SameIn s (f x) (g y)) : SameIn s (l.mapM f) (l'.mapM g) := by
  induction h with
  | nil => exact .pure []
  | cons hxy _ ih =>
    have hrest := ih fun x hx y hy => hfg x (.tail _ hx) y (.tail _ hy)
    rw [List.mapM_cons, List.mapM_cons]
    exact (hfg _ (.head _) _ (.head _) hxy).bind fun _ => hrest.bind fun _ => .pure _

end SameIn

end

/-! ## (1) Sizes and spellings -/

namespace TypeTable

variable {t1 t2 : TypeTable} {a b : TypeId} {vs ws : List TypeId}

/-- Aliases of one name stand for alike types. -/
theorem Congruent.underlying (hc : t1.Congruent t2) {name : String} {u v : TypeId} (ha : t1.get? a = some (.named name u))
    (hb : t2.get? b = some (.named name v)) : Alike t1 t2 u v := by
  have hu : t1.alias? name = some (t1.shape u) := hc.left.alias?_eq_some.mpr ⟨a, u, ha, rfl⟩
  have hv : t2.alias? name = some (t2.shape v) := hc.right.alias?_eq_some.mpr ⟨b, v, hb, rfl⟩
  rw [hc.alias?_eq, hv] at hu
  exact .of_shape_eq (hc.left.issued a name u ha) (hc.right.issued b name v hb) (Option.some.inj hu).symm

theorem payloadWordsBy_eq {size size' : TypeId → Except Fault UInt64} (h : List.Forall₂ (Alike t1 t2) vs ws)
    (hsize : ∀ a b, Alike t1 t2 a b → size a = size' b) : payloadWordsBy size vs = payloadWordsBy size' ws := by
  unfold payloadWordsBy
  rw [foldlM_eq_of_forall₂ h fun m v w hvw => by rw [hsize v w hvw]]

namespace Congruent

variable (hc : t1.Congruent t2)
include hc

theorem alignWithin_alike (n : Nat) (h : Alike t1 t2 a b) : t1.alignWithin n a = t2.alignWithin n b := by
  induction n generalizing a b with
  | zero => rfl
  | succ n ih =>
    rw [alignWithin_succ, alignWithin_succ]
    refine (hc.resolved h).bind_eq fun ty ty' hlike => ?_
    cases hlike with
    | array _ hab => exact ih hab
    | struct hfs => exact foldlM_eq_of_forall₂ hfs (fun c f g hfg => by rw [ih hfg.2]) 1
    | _ => rfl

theorem align_eq (h : Alike t1 t2 a b) : t1.align a = t2.align b := by
  rw [← alignWithin_eq hc.left.whole (Nat.le_max_left _ t2.size) h.left_lt,
    ← alignWithin_eq hc.right.whole (Nat.le_max_right t1.size _) h.right_lt]
  exact hc.alignWithin_alike _ h

theorem sizeWithin_alike (n : Nat) (h : Alike t1 t2 a b) : t1.sizeWithin n a = t2.sizeWithin n b := by
  induction n generalizing a b with
  | zero => rfl
  | succ n ih =>
    rw [sizeWithin_succ, sizeWithin_succ]
    refine (hc.unwrapAlias h).bind_eq fun v w hvw => (hvw.get hc.left hc.right).bind_eq fun ty ty' hlike => ?_
    cases hlike with
    | array _ hab =>
      dsimp only
      rw [ih hab]
    | struct hfs =>
      dsimp only
      rw [hc.align_eq hvw, foldlM_eq_of_forall₂ hfs fun c f g hfg => by rw [hc.align_eq hfg.2, ih hfg.2]]
    | sum hvs =>
      dsimp only
      rw [payloadWordsBy_eq hvs fun _ _ hab => ih hab]
    | _ => rfl

theorem byteSize_eq (h : Alike t1 t2 a b) : t1.byteSize a = t2.byteSize b := by
  rw [← sizeWithin_eq hc.left.whole (Nat.le_max_left _ t2.size) h.left_lt,
    ← sizeWithin_eq hc.right.whole (Nat.le_max_right t1.size _) h.right_lt]
  exact hc.sizeWithin_alike _ h

theorem payloadWords_alike (h : List.Forall₂ (Alike t1 t2) vs ws) :
    t1.payloadWords vs = t2.payloadWords ws := payloadWordsBy_eq h fun _ _ => hc.byteSize_eq

end Congruent

end TypeTable

namespace Target

section Spelling

variable {t1 t2 : TypeTable} {a b : TypeId} (hc : t1.Congruent t2) {marks : List TypeId}

theorem spellDepth_lt (hlt : id.index < t.size) (marks : List TypeId) :
    spellDepth t marks id < (t.size + 2) * (t.size + 2) := by
  have hmarks := Nat.mul_le_mul_right (t.size + 1) (unmarked_le t marks)
  calc spellDepth t marks id
      < t.size * (t.size + 1) + t.size := Nat.add_lt_add_of_le_of_lt hmarks hlt
    _ ≤ (t.size + 2) * (t.size + 2) := by
        rw [Nat.mul_succ, Nat.add_mul, Nat.mul_add]
        omega

/-- An alias is marked while what it stands for is spelled. -/
theorem sameIn_expand {act act' : SpellM CodeType} (h : SameIn (id :: marks) act act') :
    SameIn marks (do modify (id :: ·); let spelling ← act; modify (·.erase id); return spelling)
      (do modify (id :: ·); let spelling ← act'; modify (·.erase id); return spelling) := by
  constructor
  · change (act >>= fun spelling => do modify (·.erase id); return spelling) (id :: marks) =
      (act' >>= fun spelling => do modify (·.erase id); return spelling) (id :: marks)
    change EStateM.bind act _ _ = EStateM.bind act' _ _
    simp only [EStateM.bind, ← h.eq]
  · simp only [whenever_bind, whenever_modify, whenever_pure]
    refine h.kept.mono fun _ marks' heq => ?_
    rw [heq, List.erase_cons_head]

include hc

theorem isNamedAggregate_alike (h : Alike t1 t2 a b) : isNamedAggregate t1 a = isNamedAggregate t2 b := by
  refine (h.get hc.left hc.right).bind_eq fun ty ty' hlike => ?_
  cases hlike with
  | named name u v =>
    refine (hc.resolved h).bind_eq fun ty ty' hlike => ?_
    cases hlike <;> rfl
  | _ => rfl

section

variable (hs : t1.SameAliases t2) (h : Alike t1 t2 a b)
include hs h

/-- Alike types are spelled the same, given depth enough for each. -/
theorem spellWithin_same {n m : Nat} (hn : spellDepth t1 marks a < n) (hm : spellDepth t2 marks b < m)
    : SameIn marks (spellWithin t1 n a) (spellWithin t2 m b) := by
  induction n generalizing m a b marks with
  | zero => omega
  | succ n ih =>
    obtain ⟨m, rfl⟩ : ∃ k, m = k + 1 := ⟨m - 1, by omega⟩
    obtain ⟨ty, ty', ha, hb, hlike⟩ := h.exists_like hc.left hc.right
    -- a type that is no alias is spelled from earlier ones
    have part : ty.isNamed = false → ∀ x ∈ ty.mentions, ∀ y ∈ ty'.mentions, Alike t1 t2 x y →
        SameIn marks (spellWithin t1 n x) (spellWithin t2 m y) := fun hplain x hx y hy hxy => by
      have hx := hc.left.earlier a ty ha hplain x hx
      have hy := hc.right.earlier b ty' hb (hlike.isNamed_eq ▸ hplain) y hy
      unfold spellDepth at hn hm ih
      exact ih hxy (by omega) (by omega)
    rw [spellWithin, spellWithin, get_eq_ok.mpr ha, get_eq_ok.mpr hb]
    refine SameIn.ofExcept_bind (R := fun x y => x = ty ∧ y = ty') (.ok ⟨rfl, rfl⟩) ?_
    rintro _ _ ⟨rfl, rfl⟩
    cases hlike with
    | ptr hab | array _ hab => exact (part rfl _ (.head _) _ (.head _) hab).bind fun _ => .pure _
    | struct hfs =>
      refine (SameIn.mapM hfs fun f hf g hg hfg => ?_).bind fun _ => .pure _
      exact part rfl _ (List.mem_map_of_mem hf) _ (List.mem_map_of_mem hg) hfg.2
    | sum hvs => exact .ofExcept_bind (.of_eq (hc.payloadWords_alike hvs)) fun x y hxy => hxy ▸ .pure _
    | func hfg =>
      refine (part rfl _ (.head _) _ (.head _) hfg.result).bind fun _ => ?_
      refine (SameIn.mapM hfg.params fun p hp q hq hpq => ?_).bind fun _ => .pure _
      exact part rfl _ (.tail _ (List.mem_map_of_mem hp)) _
        (.tail _ (List.mem_map_of_mem hq)) hpq.2
    | named name u v =>
      obtain ⟨w, hw⟩ := (hs a name).mp ⟨u, ha⟩
      obtain rfl := hc.right.single a b _ _ hw hb rfl
      refine .ofExcept_bind (.of_eq (isNamedAggregate_alike hc h)) fun aggregate _ heq => heq ▸ ?_
      cases aggregate with
      | true => exact .pure _
      | false =>
        refine .get_bind ?_
        split
        · exact .pure _
        · rename_i hmark
          have hleft := spellDepth_cons h.left_lt hmark (hc.left.issued a name u ha)
          have hright := spellDepth_cons h.right_lt hmark (hc.right.issued a name v hb)
          exact sameIn_expand (ih (hc.underlying ha hb) (by omega) (by omega))
    | invalid => exact .throw _
    | _ => exact .pure _

theorem spellType_alike : spellType t1 a = spellType t2 b :=
  funext fun marks => (spellWithin_same hc hs h (spellDepth_lt h.left_lt marks) (spellDepth_lt h.right_lt marks)).eq

theorem spellAggregate_alike : spellAggregate t1 a = spellAggregate t2 b := by
  refine ofExcept_bind_eq (h.get hc.left hc.right) fun ty ty' hlike => ?_
  cases hlike with
  | struct hfs =>
    dsimp only
    rw [mapM_eq_of_forall₂ hfs fun f _ g _ hfg => spellType_alike hc hs hfg.2]
  | sum hvs =>
    dsimp only
    rw [hc.payloadWords_alike hvs]
  | _ => rfl

end

end Spelling

end Target

/-! ## Twins -/

/-- Everything has one handle in both runs, types apart. -/
def Pairing.same : Pairing where
  exact := True
  funs := Eq
  var₁ := 0
  var₂ := 0
  block₁ := 0
  block₂ := 0
  diags₁ := []
  diags₂ := []
  errors₁ := 0
  errors₂ := 0
  strict _ := ⟨rfl, fun _ _ h => h⟩

/-- The contexts differ in the handles of types only, and not in those of aliases. -/
structure Context.Twin (c₁ c₂ : Context) : Prop where
  types : c₁.types.Congruent c₂.types
  aliases : c₁.types.SameAliases c₂.types
  vars : c₁.vars.Like (Variable.Like (c₁.types.Alike c₂.types)) 0 0 c₂.vars
  blocks : c₁.blocks.Like (Block.Like (c₁.types.Alike c₂.types) .same) 0 0 c₂.blocks
  funs : ∀ fn, Option.Rel (Function.Like (c₁.types.Alike c₂.types) .same) (c₁.funs.get? fn) (c₂.funs.get? fn)

section

variable {k : Kind} {α β : Type} {R : α → β → Prop} {x : Arena k α} {y : Arena k β}

theorem Arena.size_eq_of_rel (h : ∀ i, Option.Rel R (x.get? i) (y.get? i)) : x.size = y.size := by
  have hlt : ∀ n, n < x.size ↔ n < y.size := fun n => by
    have hn := h ⟨n⟩
    have hx : (x.get? ⟨n⟩).isSome ↔ n < x.size := by simp [Arena.get?, Arena.size]
    have hy : (y.get? ⟨n⟩).isSome ↔ n < y.size := by simp [Arena.get?, Arena.size]
    rw [← hx, ← hy]
    generalize x.get? ⟨n⟩ = u at hn
    generalize y.get? ⟨n⟩ = v at hn
    cases hn <;> simp
  have hx := hlt x.size
  have hy := hlt y.size
  omega

theorem Arena.get_outcome (hsize : x.size = y.size) {i : Handle k} (h : Option.Rel R (x.get? i) (y.get? i)) :
    SameOutcome R Eq (x.get i) (y.get i) := by
  unfold Arena.get
  rw [hsize]
  generalize x.get? i = u at h ⊢
  generalize y.get? i = v at h ⊢
  cases h with
  | some huv => exact .ok huv
  | none => exact .error rfl

end

namespace Context.Twin

variable {c1 c2 : Context} (hc : c1.Twin c2)
include hc

theorem var (v : VarId) : SameOutcome (Variable.Like (c1.types.Alike c2.types)) Eq (c1.vars.get v) (c2.vars.get v) :=
  Arena.get_outcome (Arena.size_eq_of_rel fun i => hc.vars.get? i i ⟨i.index, by omega, by omega⟩)
    (hc.vars.get? v v ⟨v.index, by omega, by omega⟩)

theorem block (b : BlockId) :
    SameOutcome (Block.Like (c1.types.Alike c2.types) .same) Eq (c1.blocks.get b) (c2.blocks.get b) :=
  Arena.get_outcome (Arena.size_eq_of_rel fun i => hc.blocks.get? i i ⟨i.index, by omega, by omega⟩)
    (hc.blocks.get? b b ⟨b.index, by omega, by omega⟩)

theorem func (fn : FunId) :
    SameOutcome (Function.Like (c1.types.Alike c2.types) .same) Eq (c1.funs.get fn) (c2.funs.get fn) :=
  Arena.get_outcome (Arena.size_eq_of_rel hc.funs) (hc.funs fn)

theorem typeName_eq {a b : TypeId} (h : c1.types.Alike c2.types a b) : c1.typeName a = c2.typeName b :=
  h.name_eq hc.types.left hc.types.right

theorem handles_eq : c1.funs.handles = c2.funs.handles := by
  unfold Arena.handles
  rw [Arena.size_eq_of_rel hc.funs]

end Context.Twin

/-! ## (2) Printing -/

theorem Pairing.eq_of_same_vars {v w : VarId} (h : Pairing.same.vars v w) : v = w := Handle.Shifted.eq h

theorem Pairing.eq_of_same_blocks {b c : BlockId} (h : Pairing.same.blocks b c) : b = c := Handle.Shifted.eq h

section

variable {T : TypeId → TypeId → Prop}

theorem TargetsLike.eq_of_same {ts us : List (VariantId × BlockId)} (h : TargetsLike .same ts us) : ts = us := by
  induction h with
  | nil => rfl
  | cons hxy _ ih => rw [Prod.ext hxy.1 (Pairing.eq_of_same_blocks hxy.2), ih]

theorem Terminator.Like.successors_eq (h : x.Like T .same y) : x.successors = y.successors := by
  cases h with
  | ret _ => rfl
  | jump hb => rw [Pairing.eq_of_same_blocks hb]
  | branch _ hb hc => rw [Pairing.eq_of_same_blocks hb, Pairing.eq_of_same_blocks hc]; rfl
  | switch _ ht hb => rw [ht.eq_of_same, Pairing.eq_of_same_blocks hb]; rfl

theorem Block.Like.exits_eq {b c : Block} (h : b.Like T .same c) :
    b.terminator.map Terminator.successors = c.terminator.map Terminator.successors := by
  obtain ⟨stmts, terminator⟩ := b
  obtain ⟨stmts', terminator'⟩ := c
  cases h.terminator with
  | some ht => exact congrArg some ht.successors_eq
  | none => rfl

end

namespace Context

theorem successors_eq_exits (c : Context) (b : BlockId) :
    c.successors b = (((c.blocks.get? b).map fun block => block.terminator.map Terminator.successors).join).getD [] := by
  unfold successors
  rcases c.blocks.get? b with _ | ⟨_, _ | t⟩ <;> rfl

namespace Twin

variable {c1 c2 : Context}

section

variable (hc : c1.Twin c2)
include hc

theorem exits_eq (b : BlockId) : (c1.blocks.get? b).map (fun block => block.terminator.map Terminator.successors) =
    (c2.blocks.get? b).map fun block => block.terminator.map Terminator.successors := by
  have hb := hc.blocks.get? b b ⟨b.index, by omega, by omega⟩
  generalize c1.blocks.get? b = x at hb ⊢
  generalize c2.blocks.get? b = y at hb ⊢
  cases hb with
  | some h => exact congrArg some h.exits_eq
  | none => rfl

theorem jumpCount_eq : c1.jumpCount = c2.jumpCount := by
  have hexits : c1.blocks.items.toList.map (fun block => block.terminator.map Terminator.successors) =
      c2.blocks.items.toList.map fun block => block.terminator.map Terminator.successors := by
    refine List.ext_getElem? fun i => ?_
    have hi := hc.exits_eq ⟨i⟩
    simpa [Arena.get?] using hi
  have hcount : ∀ c : Context, c.jumpCount = (c.blocks.items.toList.map fun block =>
      block.terminator.map Terminator.successors).foldl (fun n exits => n + (exits.map List.length).getD 0) 0 := fun c => by
    simp only [jumpCount, List.foldl_map, Option.map_map, Function.comp_def]
  rw [hcount, hcount, hexits]

theorem reachableFrom_eq (b : BlockId) : c1.reachableFrom b = c2.reachableFrom b := by
  have hsuccessors : c1.successors = c2.successors := funext fun b => by
    rw [successors_eq_exits, successors_eq_exits, hc.exits_eq]
  rw [reachableFrom, reachableFrom, hsuccessors, hc.jumpCount_eq]

end

mutual

theorem printValue_eq (hc : c1.Twin c2) : ∀ {v w : Value}, v.Like (c1.types.Alike c2.types) .same w →
    c1.printValue v = c2.printValue w
  | _, _, .int .. | _, _, .float .. | _, _, .bool .. | _, _, .unit .. | _, _, .arg .. => rfl
  | _, _, .var _ hv _ => by
    rw [Pairing.eq_of_same_vars hv]
    rfl
  | _, _, .func _ hf _ => by
    obtain rfl := hf
    exact (hc.func _).bind_eq fun _ _ hfg => by rw [hfg.name]
  | _, _, .binary _ _ hl hr _ => by simp only [printValue, printValue_eq hc hl, printValue_eq hc hr]
  | _, _, .unary _ _ hv _ | _, _, .member _ _ hv _ | _, _, .inject _ _ hv _ | _, _, .project _ _ hv _ => by
    simp only [printValue, printValue_eq hc hv]
  | _, _, .cast _ hv hty => by simp only [printValue, printValue_eq hc hv, hc.typeName_eq hty]
  | _, _, .call _ hv hvs _ => by simp only [printValue, printValue_eq hc hv, printValues_eq hc hvs]

theorem printValues_eq (hc : c1.Twin c2) : ∀ {vs ws : List Value}, Value.LikeAll (c1.types.Alike c2.types) .same vs ws →
    c1.printValues vs = c2.printValues ws
  | _, _, .nil => rfl
  | _, _, .cons hv hrest => by simp only [printValues, printValue_eq hc hv, printValues_eq hc hrest]

end

variable (hc : c1.Twin c2)
include hc

theorem printStmt_eq {x y : BlockStmt} (h : x.Like (c1.types.Alike c2.types) .same y) : c1.printStmt x = c2.printStmt y := by
  cases h with
  | live hv =>
    obtain rfl := Pairing.eq_of_same_vars hv
    refine (hc.var _).bind_eq fun x y hxy => ?_
    rw [hxy.name, hc.typeName_eq hxy.ty]
  | store hv he => simp only [printStmt, Pairing.eq_of_same_vars hv, hc.printValue_eq he]

theorem printTerminator_eq (h : x.Like (c1.types.Alike c2.types) .same y) :
    c1.printTerminator x = c2.printTerminator y := by
  cases h with
  | ret hv => simp only [printTerminator, hc.printValue_eq hv]
  | jump hb => rw [Pairing.eq_of_same_blocks hb]; rfl
  | branch hv hb hb' =>
    simp only [printTerminator, hc.printValue_eq hv, Pairing.eq_of_same_blocks hb, Pairing.eq_of_same_blocks hb']
  | @switch v w ts us b b' hv ht hb =>
    have hpart : ∀ (variant : VariantId) (target : BlockId),
        (c1.types.variantType v.ty variant >>= fun ty => return (← c1.typeName ty) ++ s!" -> bb{target.index}") =
          c2.types.variantType w.ty variant >>= fun ty => return (← c2.typeName ty) ++ s!" -> bb{target.index}" :=
      fun variant target => (hc.types.variantType hv.ty variant).bind_eq fun x y hxy => by rw [hc.typeName_eq hxy]
    simp only [printTerminator, hc.printValue_eq hv, ht.eq_of_same, Pairing.eq_of_same_blocks hb, hpart]

theorem printBlock_eq (b : BlockId) : c1.printBlock b = c2.printBlock b := by
  refine (hc.block b).bind_eq fun x y hxy => ?_
  have hstmts := mapM_eq_of_forall₂ (f := fun s => return "    " ++ (← c1.printStmt s) ++ "\n")
    (g := fun s => return "    " ++ (← c2.printStmt s) ++ "\n") hxy.stmts fun s _ s' _ h => by rw [hc.printStmt_eq h]
  rw [hstmts]
  obtain ⟨stmts, terminator⟩ := x
  obtain ⟨stmts', terminator'⟩ := y
  cases hxy.terminator with
  | some ht => simp only [hc.printTerminator_eq ht]
  | none => rfl

theorem printFun_eq (fn : FunId) : c1.printFun fn = c2.printFun fn := by
  refine (hc.func fn).bind_eq fun f g hfg => ?_
  have hparams : f.signature.params.mapM c1.printParam = g.signature.params.mapM c2.printParam :=
    mapM_eq_of_forall₂ hfg.signature.params fun p _ q _ hpq => by
      simp only [printParam, hpq.1, hc.typeName_eq hpq.2]
  rw [hparams, hc.typeName_eq hfg.signature.result, hfg.name, hfg.body trivial]
  simp only [hc.reachableFrom_eq, funext hc.printBlock_eq]

theorem print_eq : c1.print = c2.print := by
  unfold print
  rw [hc.handles_eq]
  simp only [hc.printFun_eq]

end Twin

end Context

/-! ## (3) Code -/

namespace Target

open FunFrame

structure Source.Twin (src₁ src₂ : Source) : Prop extends context : src₁.context.Twin src₂.context where
  comments : src₁.comments = src₂.comments

abbrev SameType (src1 src2 : Source) : TypeId → TypeId → Prop := src1.types.Alike src2.types

variable {src1 src2 : Source} {a b a' b' : TypeId}

section

variable (hsrc : src1.Twin src2)
include hsrc

theorem spell_eq (h : SameType src1 src2 a b) : spell src1 a = spell src2 b := by
  rw [spell, spell, spellType_alike hsrc.types hsrc.context.aliases h]

theorem resolved_outcome (h : SameType src1 src2 a b) :
    SameOutcome (Ty.Like (SameType src1 src2)) Eq (src1.types.resolved a)
      (src2.types.resolved b) := hsrc.types.resolved h

theorem get_outcome (h : SameType src1 src2 a b) :
    SameOutcome (Ty.Like (SameType src1 src2)) Eq (src1.types.get a)
      (src2.types.get b) := h.get hsrc.types.left hsrc.types.right

theorem slotOf_eq (v : VarId) : slotOf src1 v = slotOf src2 v := by
  unfold slotOf
  refine bind_congr fun f => ?_
  split
  · rfl
  · refine bind_congr fun _ => ofExcept_bind_eq (hsrc.context.var v) fun x y hxy => ?_
    rw [spell_eq hsrc hxy.ty, hxy.name, hsrc.comments]

theorem requireTyped_eq (h : SameType src1 src2 a b) : requireTyped a = requireTyped b := by
  simp only [requireTyped, h.eq_invalid_iff hsrc.types.left hsrc.types.right]

theorem floatLiteral_eq (h : SameType src1 src2 a b) (bits : UInt64) :
    floatLiteral src1 bits a = floatLiteral src2 bits b := by
  refine ofExcept_bind_eq (resolved_outcome hsrc h) fun ty ty' hlike => ?_
  cases hlike <;> rfl

theorem resize_eq (h : SameType src1 src2 a b) (value : Operand) (target : CodeType) :
    resize src1 value a target = resize src2 value b target := by
  have hsigned : isSigned src1.types a = isSigned src2.types b := by
    refine (resolved_outcome hsrc h).bind_eq fun ty ty' hlike => ?_
    cases hlike <;> rfl
  simp only [resize, spell_eq hsrc h, ask, hsigned]

theorem pointerBinary_eq (hp : SameType src1 src2 a b)
    (h : SameType src1 src2 a' b') {r r' : Ty} {R : TypeId → TypeId → Prop} (hr : r.Like R r')
    (result : Operand) (op : Operator) (ty : CodeType) (lhs rhs : Operand) :
    pointerBinary src1 result a op ty lhs rhs r a' = pointerBinary src2 result b op ty lhs rhs r' b' := by
  simp only [pointerBinary, pointerStep, pointerEq, pointerArithmetic, hr.isInt_eq, hr.isPtr_eq, resize_eq hsrc h,
    spell_eq hsrc hp, spell_eq hsrc h]

theorem binaryCode_eq {l l' r r' : Ty} (hl : l.Like (SameType src1 src2) l')
    (hr : r.Like (SameType src1 src2) r') (h : SameType src1 src2 a b)
    (result : Operand) (op : Operator) (ty : CodeType) (lhs rhs : Operand) :
    binaryCode src1 result op l r ty lhs rhs a = binaryCode src2 result op l' r' ty lhs rhs b := by
  cases hl with
  | ptr hp => exact pointerBinary_eq hsrc hp h hr result op ty lhs rhs
  | _ => rfl

theorem negation_eq (h : SameType src1 src2 a b) (ty : CodeType) (value : Operand) :
    negation src1 ty a value = negation src2 ty b value := by
  refine bind_congr fun result => ofExcept_bind_eq (get_outcome hsrc h) fun t t' hlike => ?_
  rw [hlike.isFloat_eq]

theorem complement_eq (h : SameType src1 src2 a b) (ty : CodeType) (value : Operand) :
    complement src1 ty a value = complement src2 ty b value := by
  refine bind_congr fun result => ofExcept_bind_eq (get_outcome hsrc h) fun t t' hlike => ?_
  rw [hlike.isPtr_eq]

omit hsrc in
theorem conversion?_eq {R : TypeId → TypeId → Prop} {s s' g g' : Ty} (hs : s.Like R s') (hg : g.Like R g') :
    conversion? s g = conversion? s' g' := by
  cases hs <;> cases hg <;> rfl

theorem castCode_eq (h : SameType src1 src2 a b)
    (h' : SameType src1 src2 a' b') (value : Operand) :
    castCode src1 value a a' = castCode src2 value b b' := by
  unfold castCode
  simp only [spell_eq hsrc h, spell_eq hsrc h']
  refine bind_congr fun source => bind_congr fun target => ?_
  split
  · rfl
  · refine ofExcept_bind_eq (hsrc.types.unwrapAlias h) fun v w hvw => ?_
    refine ofExcept_bind_eq (hsrc.types.unwrapAlias h') fun v' w' hvw' => ?_
    refine ofExcept_bind_eq (get_outcome hsrc hvw) fun st st' hst => ?_
    refine ofExcept_bind_eq (get_outcome hsrc hvw') fun gt gt' hgt => ?_
    simp only [hvw.eq_iff hsrc.types.left hsrc.types.right hvw', hst.isInt_eq, hgt.isInt_eq,
      resize_eq hsrc h, conversion?_eq hst hgt]

theorem payloadAddress_eq (h : SameType src1 src2 a b)
    (h' : SameType src1 src2 a' b') (address : Operand) :
    payloadAddress src1 address a a' = payloadAddress src2 address b b' := by
  unfold payloadAddress
  simp only [spell_eq hsrc h, spell_eq hsrc h']
  refine bind_congr fun sum => ofExcept_bind_eq (resolved_outcome hsrc h) fun ty ty' hlike => ?_
  cases hlike with
  | sum hvs => exact ofExcept_bind_eq (.of_eq (hsrc.types.payloadWords_alike hvs)) fun _ _ heq => heq ▸ rfl
  | _ => rfl

end

mutual

theorem emitValue_eq (hsrc : src1.Twin src2) : ∀ {v w : Value},
    v.Like (SameType src1 src2) .same w → emitValue src1 v = emitValue src2 w
  | _, _, .int value _ h => by simp only [emitValue, requireTyped_eq hsrc h, intLiteral, spell_eq hsrc h]
  | _, _, .float bits _ h => by simp only [emitValue, requireTyped_eq hsrc h, floatLiteral_eq hsrc h]
  | _, _, .bool _ _ h | _, _, .unit _ h | _, _, .arg _ _ h => by simp only [emitValue, requireTyped_eq hsrc h]
  | _, _, .var _ hv h => by
    simp only [emitValue, requireTyped_eq hsrc h, Pairing.eq_of_same_vars hv, slotOf_eq hsrc, spell_eq hsrc h]
  | _, _, .func _ hf h => by
    obtain rfl := hf
    simp only [emitValue, requireTyped_eq hsrc h]
    refine bind_congr fun _ => ofExcept_bind_eq (hsrc.context.func _) fun f g hfg => ?_
    rw [hfg.name]
  | _, _, .binary _ _ hl hr h => by
    simp only [emitValue, requireTyped_eq hsrc h, spell_eq hsrc hl.ty, emitValue_eq hsrc hl, emitValue_eq hsrc hr]
    refine bind_congr fun _ => ofExcept_bind_eq (get_outcome hsrc hl.ty) fun l l' hll => ?_
    refine ofExcept_bind_eq (get_outcome hsrc hr.ty) fun r r' hrr => ?_
    simp only [binaryCode_eq hsrc hll hrr hr.ty]
  | _, _, .unary op _ hv h => by
    cases op <;> simp only [emitValue, requireTyped_eq hsrc h, spell_eq hsrc h, spell_eq hsrc hv.ty, emitValue_eq hsrc hv,
      emitAddress_eq hsrc hv, negation_eq hsrc hv.ty, complement_eq hsrc hv.ty]
  | _, _, .cast _ hv h => by
    simp only [emitValue, requireTyped_eq hsrc h, emitValue_eq hsrc hv, castCode_eq hsrc hv.ty h]
  | _, _, .member _ _ hv h => by
    simp only [emitValue, requireTyped_eq hsrc h, emitValue_eq hsrc hv, spell_eq hsrc hv.ty]
  | _, _, .call _ hv hvs h => by
    simp only [emitValue, requireTyped_eq hsrc h, emitValue_eq hsrc hv, emitArgs_eq hsrc hvs, spell_eq hsrc h]
  | _, _, .inject _ _ hv h => by
    simp only [emitValue, requireTyped_eq hsrc h, emitValue_eq hsrc hv, injectCode, spell_eq hsrc hv.ty, spell_eq hsrc h,
      payloadAddress_eq hsrc h hv.ty]
  | _, _, .project _ _ hv h => by
    simp only [emitValue, requireTyped_eq hsrc h, emitAddress_eq hsrc hv, emitValue_eq hsrc hv, spell_eq hsrc hv.ty,
      projectCode, spell_eq hsrc h, payloadAddress_eq hsrc hv.ty h]

theorem emitAddress_eq (hsrc : src1.Twin src2) : ∀ {v w : Value},
    v.Like (SameType src1 src2) .same w → emitAddress src1 v = emitAddress src2 w
  | _, _, .var _ hv _ => by simp only [emitAddress, Pairing.eq_of_same_vars hv, slotOf_eq hsrc]
  | _, _, .member _ _ hv _ => by simp only [emitAddress, emitAddress_eq hsrc hv, spell_eq hsrc hv.ty]
  | _, _, .unary op _ hv _ => by cases op <;> simp only [emitAddress, emitValue_eq hsrc hv]
  | _, _, .int .. | _, _, .float .. | _, _, .bool .. | _, _, .unit .. | _, _, .arg .. | _, _, .func .. | _, _, .binary ..
  | _, _, .cast .. | _, _, .call .. | _, _, .inject .. | _, _, .project .. => by simp only [emitAddress]

theorem emitArgs_eq (hsrc : src1.Twin src2) : ∀ {vs ws : List Value},
    Value.LikeAll (SameType src1 src2) .same vs ws → emitArgs src1 vs = emitArgs src2 ws
  | _, _, .nil => by simp only [emitArgs]
  | _, _, .cons hv hrest => by simp only [emitArgs, emitValue_eq hsrc hv, spell_eq hsrc hv.ty, emitArgs_eq hsrc hrest]

end

section

variable (hsrc : src1.Twin src2)
include hsrc

theorem emitStmt_eq {x y : BlockStmt} (h : x.Like (SameType src1 src2) .same y) :
    emitStmt src1 x = emitStmt src2 y := by
  cases h with
  | live hv =>
    obtain rfl := Pairing.eq_of_same_vars hv
    simp only [emitStmt, slotOf_eq hsrc]
    refine bind_congr fun _ => ofExcept_bind_eq (hsrc.context.var _) fun x y hxy => ?_
    rw [comment, comment, hsrc.comments, hxy.name]
  | store hv he =>
    obtain rfl := Pairing.eq_of_same_vars hv
    simp only [emitStmt, slotOf_eq hsrc, emitValue_eq hsrc he]
    refine bind_congr fun _ => bind_congr fun _ => ofExcept_bind_eq (hsrc.context.var _) fun x y hxy => ?_
    rw [spell_eq hsrc hxy.ty]

theorem conditionBit_eq (h : SameType src1 src2 a b) (value : Operand) :
    conditionBit src1 a value = conditionBit src2 b value := by
  unfold conditionBit
  rw [spell_eq hsrc h]
  refine ofExcept_bind_eq (get_outcome hsrc h) fun ty ty' hlike => ?_
  cases hlike <;> rfl

theorem emitExit_eq (h : x.Like (SameType src1 src2) .same y) :
    emitExit src1 x = emitExit src2 y := by
  cases h with
  | ret hv => simp only [emitExit, emitValue_eq hsrc hv, spell_eq hsrc hv.ty]
  | jump hb => rw [Pairing.eq_of_same_blocks hb]; rfl
  | branch hv hb hb' =>
    simp only [emitExit, emitValue_eq hsrc hv, conditionBit_eq hsrc hv.ty, Pairing.eq_of_same_blocks hb,
      Pairing.eq_of_same_blocks hb']
  | switch hv ht hb =>
    simp only [emitExit, emitValue_eq hsrc hv, spell_eq hsrc hv.ty, ht.eq_of_same, Pairing.eq_of_same_blocks hb]

theorem emitBlock_eq (block : BlockId) : emitBlock src1 block = emitBlock src2 block := by
  refine ofExcept_bind_eq (hsrc.context.block block) fun x y hxy => ?_
  obtain ⟨stmts, terminator⟩ := x
  obtain ⟨stmts', terminator'⟩ := y
  rw [forM_eq_of_forall₂ hxy.stmts fun _ _ h => emitStmt_eq hsrc h]
  cases hxy.terminator with
  | some ht => simp only [emitExit_eq hsrc ht]
  | none => rfl

theorem funCode_eq (fn : FunId) : funCode src1 fn = funCode src2 fn := by
  refine ofExcept_bind_eq (hsrc.context.func fn) fun f g hfg => ?_
  have hresult := spellType_alike hsrc.types hsrc.context.aliases hfg.signature.result
  have hparams := mapM_eq_of_forall₂ hfg.signature.params fun _ _ _ _ hpq =>
    spellType_alike hsrc.types hsrc.context.aliases hpq.2
  have hbody : ∀ body, bodyCode src1 body = bodyCode src2 body := fun body => by
    unfold bodyCode
    rw [hsrc.context.reachableFrom_eq, funext (emitBlock_eq hsrc)]
  simp only [declareCode, hfg.body trivial, hfg.name, hfg.flags, hbody, hresult, hparams]

end

/-! ### Named types -/

section

variable {t1 t2 : TypeTable}

/-- Whether the handle names an alias. -/
def isAlias (t : TypeTable) (id : TypeId) : Bool := (t.get? id).any Ty.isNamed

theorem isAlias_eq_true : isAlias t id = true ↔ ∃ name u, t.get? id = some (.named name u) := by
  unfold isAlias
  rcases t.get? id with _ | ty
  · simp
  · cases ty <;> simp [Ty.isNamed]

/-- Only aliases have definitions. -/
theorem typeDefs_filter : ∀ {ids : List TypeId}, (∀ id ∈ ids, id.index < t.size) →
    typeDefs t (ids.filter (isAlias t)) = typeDefs t ids
  | [], _ => rfl
  | id :: ids, h => by
    have hrest := typeDefs_filter fun id hid => h id (.tail _ hid)
    obtain ⟨ty, hty⟩ := Interner.get?_of_lt (h id (.head _))
    cases halias : isAlias t id with
    | true => rw [List.filter_cons_of_pos halias, typeDefs, typeDefs, hrest]
    | false =>
      have hplain : isNamedAggregate t id = .ok false := by
        unfold isNamedAggregate
        rw [get_eq_ok.mpr hty]
        cases ty with
        | named name u => exact absurd (isAlias_eq_true.mpr ⟨name, u, hty⟩) (by simp [halias])
        | _ => rfl
      rw [List.filter_cons_of_neg (by simp [halias]), typeDefs, hplain, hrest]
      rfl

theorem typeDefs_eq (hc : t1.Congruent t2) (hs : t1.SameAliases t2) : ∀ {ids : List TypeId},
    (∀ id ∈ ids, isAlias t1 id = true) → typeDefs t1 ids = typeDefs t2 ids
  | [], _ => rfl
  | id :: ids, h => by
    have hrest := typeDefs_eq hc hs fun id hid => h id (.tail _ hid)
    obtain ⟨name, u, hu⟩ := isAlias_eq_true.mp (h id (.head _))
    obtain ⟨v, hv⟩ := (hs id name).mp ⟨u, hu⟩
    have halike : t1.Alike t2 id id := .of_like hc.left hc.right hu hv (.named name u v)
    rw [typeDefs, typeDefs, isNamedAggregate_alike hc halike, hrest, get_eq_ok.mpr hu, get_eq_ok.mpr hv]
    refine bind_congr fun named => ?_
    split
    · refine ofExcept_bind_eq (hc.unwrapAlias halike) fun x y hxy => ?_
      rw [spellAggregate_alike hc hs hxy]
    · rfl

theorem filter_handles {n : Nat} (hn : t.size ≤ n) :
    ((List.range n).map Handle.mk).filter (isAlias t) = ((List.range t.size).map Handle.mk).filter (isAlias t) := by
  induction n, hn using Nat.le_induction with
  | base => rfl
  | succ n hn ih =>
    have hnone : isAlias t ⟨n⟩ = false := by
      unfold isAlias
      rw [show t.get? ⟨n⟩ = none from Array.getElem?_eq_none hn]
      rfl
    rw [List.range_succ, List.map_append, List.filter_append, ih]
    simp [hnone]

/-- The named types of a table have the same definitions in the same order. -/
theorem allTypeDefs_eq (hc : t1.Congruent t2) (hs : t1.SameAliases t2) :
    typeDefs t1 ((List.range t1.size).map Handle.mk) = typeDefs t2 ((List.range t2.size).map Handle.mk) := by
  have hissued : ∀ t : TypeTable, ∀ id ∈ (List.range t.size).map Handle.mk, (id : TypeId).index < t.size := by
    intro t id hid
    obtain ⟨i, hi, rfl⟩ := List.mem_map.mp hid
    exact List.mem_range.mp hi
  have hsame : isAlias t1 = isAlias t2 := funext fun id => Bool.eq_iff_iff.mpr (by
    rw [isAlias_eq_true, isAlias_eq_true]
    exact exists_congr fun name => hs id name)
  rw [← typeDefs_filter (hissued t1), ← typeDefs_filter (hissued t2), ← filter_handles (Nat.le_max_left _ t2.size),
    ← filter_handles (Nat.le_max_right t1.size _), ← hsame]
  exact typeDefs_eq hc hs fun id hid => (List.mem_filter.mp hid).2

end

theorem moduleCode_eq (hsrc : src1.Twin src2) (name triple : String) :
    moduleCode src1 name triple = moduleCode src2 name triple := by
  simp only [moduleCode, allTypeDefs_eq hsrc.types hsrc.context.aliases, hsrc.context.handles_eq,
    funext (funCode_eq hsrc)]

theorem generate_alike {c1 c2 : Context} (hc : c1.Twin c2) (g : Generator) (name : String) :
    g.generate c1 name = g.generate c2 name := by
  have hsrc : Source.Twin ⟨c1, g.comments⟩ ⟨c2, g.comments⟩ := ⟨hc, rfl⟩
  rw [Generator.generate, Generator.generate, moduleCode_eq hsrc]

end Target

end BlockCompiler
