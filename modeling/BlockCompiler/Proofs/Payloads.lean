/-
  BlockCompiler.Proofs.Payloads — payloads are read under a test of the tag.

  The payload of a variant is read in one place only: in the block of an arm, out of the variable
  that keeps the value of the match. Control enters that block only through the switch of the
  match, for this variant; and the variable is stored to once, in the block that ends with the
  switch. So what was tested is what is read.

  (1) Functions: a payload has a guard, the guard is the only way in (`Assembled.payload`).
  (2) Lowered modules (`lowerModule_payloads`). Tags have one meaning: the position of a type among
      the variants of a sum (`TypeTable.Distinct.variant_unique`).
-/
import BlockCompiler.Proofs.Liveness
import BlockCompiler.Proofs.LoweredNames

namespace BlockCompiler

variable {v : Value} {d : VariantId} {block : Block} {ty : TypeId}

/-! ## (1) Functions -/

namespace Context

/-- Control enters `b` only from `a`, which looks at `x` and goes to `b` only if it holds the
variant `d`. -/
structure EntersOn (c : Context) (a b : BlockId) (x : VarId) (d : VariantId) : Prop where
  only : ∀ a', b ∈ c.successors a' ↔ a' = a
  switch : ∃ block ty span targets fallback, c.blocks.get? a = some block ∧
    block.terminator = some (.switch (.var x ty span) targets fallback) ∧
    targets.filter (·.2 = b) = [(d, b)] ∧ fallback ≠ b

/-- In the whole function there is one store to the variable, and it is in the block `a`. -/
def StoredOnce (c : Context) (fn : FunId) (a : BlockId) (x : VarId) : Prop :=
  c.Lists fn a ∧ ∀ b block, c.Lists fn b → c.blocks.get? b = some block → block.stores x = if b = a then 1 else 0

end Context

theorem Block.mem_values (h : v ∈ block.values) :
    (∃ y, .store y v ∈ block.stmts.toList) ∨ ∃ t ∈ block.terminator, v ∈ t.value? := by
  rcases List.mem_append.mp h with h | h
  · obtain ⟨stmt, hmem, hv⟩ := List.mem_filterMap.mp h
    cases stmt with
    | live x => cases hv
    | store y w =>
      cases hv
      exact .inl ⟨y, hmem⟩
  · obtain ⟨t, ht, hv⟩ := Option.bind_eq_some_iff.mp (Option.mem_toList.mp h)
    exact .inr ⟨t, ht, hv⟩

namespace Lowering

section

variable {cfg : Settings} {pieces : List Piece} {p q : Piece} {a b : BlockId} {s : State}

section

variable (h : Assembled cfg s pieces) (hp : p ∈ pieces)
include h hp

theorem Assembled.eq_of_fn (hq : q ∈ pieces) (heq : p.fn = q.fn) : p = q := by
  by_contra hne
  rcases h.apart hp hq hne with hpq | hqp
  · exact hpq.1 heq
  · exact hqp.1 heq.symm

/-- Control does not go from function to function. -/
theorem Assembled.isNew_of_successor (hb : p.before.IsNew p.after b) (hstep : b ∈ s.successors a)
    : p.before.IsNew p.after a := by
  obtain ⟨block, t, hget, -, -⟩ := Context.mem_successors hstep
  obtain ⟨q, hq, ha⟩ := h.full a (Arena.get?_lt hget)
  have hreaches := ((h.fits q hq).reaches_iff.mpr ha).tail hstep
  rwa [h.eq_of_isNew hp hq hb ((h.fits q hq).reaches_iff.mp hreaches)]

/-- A guard is the only way into the block of an arm, and vouches for the variable of the match. -/
theorem Assembled.guarded {P : Plan} (hP : Steps (Plan.blank, p.before) (P, p.after))
    (hentry : P.guard p.before.blocks.next = none) (hb : p.before.IsNew p.after b) {g : Guard}
    (hg : P.guard b = some g) :
    s.context.EntersOn g.block b g.var g.variant ∧ s.context.StoredOnce p.fn g.block g.var := by
  have hfits := h.fits p hp
  have hright : ∀ a block, p.before.IsNew p.after a → s.blocks.get? a = some block → P.Right _ p.after a block :=
    fun a block ha hget => hP.right ha.1 ((hfits.get?_block a ha).symm.trans hget)
  have hfrom : ∀ a, b ∈ s.successors a → a = g.block ∧ p.before.IsNew p.after a ∧
      ∃ block t, s.blocks.get? a = some block ∧ block.terminator = some t ∧ g.Admits t b := by
    intro a hstep
    have ha := h.isNew_of_successor hp hb hstep
    obtain ⟨block, t, hget, ht, hmem⟩ := Context.mem_successors hstep
    obtain ⟨heq, hadmits⟩ := ((hright a block ha hget).leads t ht b hmem).guard g hg
    exact ⟨heq.symm, ha, block, t, hget, ht, hadmits⟩
  -- control comes to the block, and it is not the entry
  obtain ⟨a, hstep⟩ : ∃ a, b ∈ s.successors a := by
    rcases Relation.ReflTransGen.cases_tail (hfits.reaches_iff.mpr hb) with heq | ⟨a, -, hstep⟩
    · rw [heq, hentry] at hg
      cases hg
    · exact ⟨a, hstep⟩
  obtain ⟨rfl, ha, block, t, hget, ht, ty, span, targets, fallback, rfl, htargets, hfallback⟩ := hfrom a hstep
  refine ⟨⟨fun a' => ⟨fun h' => (hfrom a' h').1, fun heq => heq ▸ hstep⟩,
    block, ty, span, targets, fallback, hget, ht, htargets, hfallback⟩,
    h.lists_iff.mpr ⟨p, hp, rfl, ha⟩, fun b' block' hl hget' => ?_⟩
  obtain ⟨q, hq, hfn, hnew⟩ := h.lists_iff.mp hl
  rw [h.eq_of_fn hq hp hfn] at hnew
  exact (hright b' block' hnew hget').once _ _ (hP.sound.guards b g hg)

end

/-- A payload is stored as it is read. -/
theorem Assembled.payload (h : Assembled cfg s pieces) {sum : Value} {span : Span}
    (hget : s.blocks.get? b = some block) (hv : v ∈ block.values) (hn : .project sum d ty span ∈ v.nodes) :
    ∃ fn a x varTy varSpan y, sum = .var x varTy varSpan ∧ v = .project sum d ty span ∧
      .store y v ∈ block.stmts.toList ∧ s.context.Lists fn b ∧ s.context.EntersOn a b x d ∧
      s.context.StoredOnce fn a x := by
  obtain ⟨p, hp, hb⟩ := h.full b (Arena.get?_lt hget)
  obtain ⟨P, hP, -, hentry⟩ := (h.fits p hp).plan
  have hr := hP.right hb.1 (((h.fits p hp).get?_block b hb).symm.trans hget)
  rcases Block.mem_values hv with ⟨y, hstore⟩ | ⟨t, ht, hvt⟩
  · rcases hr.loads y v hstore with hnone | ⟨g, hg, varTy, ty', varSpan, span', rfl⟩
    · exact absurd hn (hnone sum d ty span)
    · obtain ⟨henters, honce⟩ := h.guarded hp hP hentry hb hg
      simp only [Value.nodes, List.mem_cons, List.not_mem_nil, or_false, reduceCtorEq, Value.project.injEq] at hn
      obtain ⟨rfl, rfl, rfl, rfl⟩ := hn
      exact ⟨p.fn, g.block, g.var, varTy, varSpan, y, rfl, rfl, hstore, h.lists_iff.mpr ⟨p, hp, rfl, hb⟩, henters, honce⟩
  · exact absurd hn ((hr.ends t ht v hvt).unprojected sum d ty span)

end

/-! ## (2) Modules -/

end Lowering

namespace TypeTable

/-- In a sum that lists no type twice, a type has one tag. -/
theorem Distinct.variant_unique {t : TypeTable} (h : t.Distinct) {sum sum' : TypeId} {d' : VariantId}
    (heq : t.resolved sum = t.resolved sum') (hd : t.variantType sum d = .ok ty)
    (hd' : t.variantType sum' d' = .ok ty) : d = d' := by
  obtain ⟨variants, hr, hmem⟩ := variantType_eq_ok hd
  obtain ⟨variants', hr', hmem'⟩ := variantType_eq_ok hd'
  obtain rfl : variants = variants' := by
    rw [heq, hr'] at hr
    cases hr
    rfl
  obtain ⟨id, -, hget⟩ := resolved_eq_ok.mp hr
  obtain ⟨hlt, hat⟩ := List.getElem?_eq_some_iff.mp hmem
  obtain ⟨hlt', hat'⟩ := List.getElem?_eq_some_iff.mp hmem'
  exact Handle.eq_of_index ((h id variants hget).getElem_inj_iff.mp (hat.trans hat'.symm))

end TypeTable

/-- The variant whose payload the value is. -/
def Value.payload? : Value → Option VariantId
  | .project _ d _ _ => some d
  | _ => none

theorem Value.eq_project (h : v.payload? = some d) : ∃ sum ty span, v = .project sum d ty span := by
  cases v with
  | project sum d' ty span =>
    cases h
    exact ⟨sum, ty, span, rfl⟩
  | _ => cases h

namespace Value.Typed

variable {σ : Site} {d : VariantId} {v : Value} {ty : TypeId} {span : Span}

theorem variantType_of_inject (h : Typed σ (.inject d v ty span)) : σ.types.variantType ty d = .ok v.ty := by
  cases h with
  | inject _ hst hsum hd => exact TypeTable.variantType_of_resolved (hst.resolved hsum) hd

theorem variantType_of_project (h : Typed σ (.project v d ty span)) : σ.types.variantType v.ty d = .ok ty := by
  cases h with
  | project _ hst hsum hd => exact TypeTable.variantType_of_resolved (hst.resolved hsum) hd

end Value.Typed

namespace Lowering

/-- In a lowered module, a payload is only ever read out of the variable of a match, in a block
that control enters only from the switch of this match and only for this variant; and the variable
is stored to once, before the switch. Tags are written and read by the positions of types in sums,
in which each type has one. -/
theorem lowerModule_payloads {cfg : Settings} {m : Surface.Module} {journal : Log.Journal} {fns : List FunId}
    {s' : State} (h : lowerModule cfg m { journal } = .ok (.ok fns) s') :
    (∀ b block v, s'.context.blocks.get? b = some block → v ∈ block.values →
      (∀ sum d ty span, .project sum d ty span ∈ v.nodes →
        (∃ fn a x varTy varSpan y, sum = .var x varTy varSpan ∧ v = .project sum d ty span ∧
          .store y v ∈ block.stmts.toList ∧ s'.context.Lists fn b ∧ s'.context.EntersOn a b x d ∧
          s'.context.StoredOnce fn a x) ∧
        s'.context.types.variantType sum.ty d = .ok ty) ∧
      ∀ d payload ty span, .inject d payload ty span ∈ v.nodes →
        s'.context.types.variantType ty d = .ok payload.ty) ∧
    ∀ sum sum' ty d d', s'.context.types.resolved sum = s'.context.types.resolved sum' →
      s'.context.types.variantType sum d = .ok ty → s'.context.types.variantType sum' d' = .ok ty → d = d' := by
  obtain ⟨pieces, hpieces⟩ := assembled_of_lowerModule h
  refine ⟨fun b block v hget hv => ?_, fun _ _ _ _ _ => (distinct_of_lowerModule h).variant_unique⟩
  obtain ⟨f, htyped⟩ := value_typed_of_lowerModule h hget hv
  exact ⟨fun sum d ty span hn => ⟨hpieces.payload hget hv hn, (htyped.of_mem_nodes hn).variantType_of_project⟩,
    fun d payload ty span hn => (htyped.of_mem_nodes hn).variantType_of_inject⟩

theorem sampleModule_payloads : ∃ fns s', lowerModule {} sampleModule {} = .ok (.ok fns) s' ∧
    ∃ block sum ty span, s'.context.blocks.get? ⟨2⟩ = some block ∧ .project sum ⟨0⟩ ty span ∈ block.values ∧
      ∃ fn a x, s'.context.EntersOn a ⟨2⟩ x ⟨0⟩ ∧ s'.context.StoredOnce fn a x := by
  have hrun : lowersTo sampleModule fun s =>
      (s.blocks.get? ⟨2⟩).any fun block => block.values.any fun v => v.payload? = some ⟨0⟩ := by decide +kernel
  obtain ⟨fns, s', h, htest⟩ := exists_of_lowersTo hrun
  obtain ⟨block, hget, htest⟩ := Option.any_eq_true _ _ |>.mp htest
  obtain ⟨v, hv, htest⟩ := List.any_eq_true.mp htest
  obtain ⟨sum, ty, span, rfl⟩ := Value.eq_project (of_decide_eq_true htest)
  obtain ⟨⟨fn, a, x, _, _, _, _, _, _, _, henters, honce⟩, -⟩ :=
    ((lowerModule_payloads h).1 _ block _ hget hv).1 sum _ ty span (Value.self_mem_nodes _)
  exact ⟨fns, s', h, block, sum, ty, span, hget, hv, fn, a, x, henters, honce⟩

end Lowering

end BlockCompiler
