/-
  BlockCompiler.Proofs.Verification — what verification accepts.

  `Function.Intact`: the types of the signature are there, the body is the function's own, and
  each block that control can reach is there, is closed, mentions only what is there, and switches
  over variants that there are.

  (1) A switch names variants of what it looks at exactly if their types are found
      (`isOk_variantType_iff`); so a terminator and a block are accepted exactly if they are intact
      (`checkTerminator_iff`, `checkBlock_iff`).
  (2) A function is accepted exactly if it is intact, and what is accepted is printed
      (`verify_iff_intact`).
-/
import BlockCompiler.Proofs.Contexts
import BlockCompiler.Proofs.Ways

namespace BlockCompiler

open TypeTable (StandsFor)

/-! ## (1) Blocks -/

theorem TypeTable.isOk_variantType_iff {t : TypeTable} (hinvalid : t.get? TypeId.invalid = some .invalid)
    {sum : TypeId} {d : VariantId} : (∃ ty, t.variantType sum d = .ok ty) ↔ t.HasVariant sum d := by
  constructor
  · rintro ⟨ty, h⟩
    obtain ⟨variants, hresolved, hd⟩ := variantType_eq_ok h
    obtain ⟨id, hid, hsum⟩ := bind_eq_ok.mp hresolved
    have hsum : t.get? id = some (.sum variants) := Interner.get_eq_ok.mp hsum
    have hst : StandsFor t sum id := .of_unwrapAlias hinvalid hid hsum (by simp)
    exact ⟨id, variants, hst, hsum, (List.getElem?_eq_some_iff.mp hd).1⟩
  · rintro ⟨id, variants, hst, hsum, hd⟩
    exact ⟨_, variantType_of_standsFor hst hsum hd⟩

namespace Context

variable {c : Context} {f : Function}

theorem checkTerminator_iff (hinvalid : c.types.get? TypeId.invalid = some .invalid) {t : Terminator} :
    c.checkTerminator f t = .ok () ↔ t.Intact (c.site f.signature.params) := by
  refine ⟨fun h => ?_, checkTerminator_ok⟩
  cases t with
  | ret value => exact checkValue_iff.mp h
  | jump target => trivial
  | branch condition ifTrue ifFalse => exact checkValue_iff.mp h
  | switch scrutinee targets fallback =>
    obtain ⟨hvalue, htargets⟩ := andThen_eq_ok.mp h
    refine ⟨checkValue_iff.mp hvalue, fun target htarget => (TypeTable.isOk_variantType_iff hinvalid).mp ?_⟩
    have hfound := forM_eq_ok.mp htargets target htarget
    obtain ⟨ty, hty, -⟩ := bind_eq_ok.mp hfound
    exact ⟨ty, hty⟩

theorem checkBlock_iff (hinvalid : c.types.get? TypeId.invalid = some .invalid) {b : BlockId} :
    c.checkBlock f b = .ok () ↔
      c.HasBlock (BlockStmt.Within (c.site f.signature.params)) (Terminator.Intact (c.site f.signature.params)) b := by
  refine ⟨fun h => ?_, checkBlock_ok⟩
  unfold checkBlock at h
  split at h
  · cases h
  · rename_i block hb
    obtain ⟨hstmts, h⟩ := andThen_eq_ok.mp h
    split at h
    · cases h
    · rename_i t ht
      exact ⟨block, t, hb, ht, fun x hx => checkStmt_iff.mp (forM_eq_ok.mp hstmts x hx),
        (checkTerminator_iff hinvalid).mp h⟩

end Context

/-! ## (2) Functions -/

/-- The function that the handle names is sound in its structure. -/
structure Function.Intact (c : Context) (fn : FunId) (f : Function) : Prop where
  signature : ∀ m ∈ (Ty.func f.signature).mentions, m.index < c.types.size
  parent : ∀ body, f.body = some body → body.parent = fn
  blocks : ∀ body, f.body = some body → ∀ b, c.Reaches body.entry b →
    c.HasBlock (BlockStmt.Within (c.site f.signature.params)) (Terminator.Intact (c.site f.signature.params)) b

namespace Context

theorem verify_iff {c : Context} (hinvalid : c.types.get? TypeId.invalid = some .invalid) {fn : FunId} {f : Function}
    (hf : c.funs.get? fn = some f) : c.verify fn = .ok () ↔ f.Intact c fn := by
  simp only [verify_eq_ok hf, mem_reachableFrom_iff, checkBlock_iff hinvalid]
  exact ⟨fun ⟨hsig, hbody⟩ => ⟨hsig, fun body hb => (hbody body hb).1, fun body hb => (hbody body hb).2⟩,
    fun h => ⟨h.signature, fun body hb => ⟨h.parent body hb, h.blocks body hb⟩⟩⟩

/-- In a context where each type but an alias is made of earlier ones, and variables have types that
are there, the functions that are accepted are the ones that are intact, and each of them can be
printed. What aliases stand for is not asked: there may be no end to it. -/
theorem verify_iff_intact {c : Context} (hinvalid : c.types.get? TypeId.invalid = some .invalid)
    (hlayered : c.types.Layered) (hvars : ∀ v var, c.vars.get? v = some var → var.ty.index < c.types.size)
    {fn : FunId} {f : Function} (hf : c.funs.get? fn = some f) :
    (c.verify fn = .ok () ↔ f.Intact c fn) ∧ (c.verify fn = .ok () → ∃ text, c.printFun fn = .ok text) := by
  have hiff := verify_iff hinvalid hf
  refine ⟨hiff, fun h => ?_⟩
  have hintact := hiff.mp h
  exact printFun_of_blocks hlayered hvars hf hintact.signature hintact.blocks

/-- A function that switches over a variable until it holds a flag; `last` is the variant that the loop
ends with. An open block that nothing leads to lies beside it. -/
def sampleLoop (last : VariantId) : List Operation := [
  .addType (.sum [TypeId.int true 32, TypeId.bool]), .declareAlias "S", .defineAlias ⟨14⟩ ⟨13⟩, .addVar ⟨14⟩ "x",
  .addBlock { terminator := some (.jump ⟨1⟩), stmts :=
    #[.live ⟨0⟩, .store ⟨0⟩ (.inject ⟨0⟩ (.arg 0 (TypeId.int true 32) .none) ⟨14⟩ .none)] },
  .addBlock { terminator := some (.switch (.var ⟨0⟩ ⟨14⟩ .none) [(⟨0⟩, ⟨2⟩), (last, ⟨3⟩)] ⟨3⟩) },
  .addBlock { terminator := some (.jump ⟨1⟩), stmts :=
    #[.store ⟨0⟩ (.inject ⟨1⟩ (.bool true TypeId.bool .none) ⟨14⟩ .none)] },
  .addBlock { terminator := some (.ret (.project (.var ⟨0⟩ ⟨14⟩ .none) ⟨1⟩ TypeId.bool .none)) },
  .addBlock {},
  .addFun { name := "f", signature := ⟨[⟨TypeId.int true 32, some "n"⟩], TypeId.bool⟩, file := 0, span := .none,
            body := some ⟨⟨0⟩, ⟨0⟩⟩ }]

theorem sampleLoop_verified : ∃ f g,
    (after (sampleLoop ⟨1⟩)).funs.get? ⟨0⟩ = some f ∧ (after (sampleLoop ⟨2⟩)).funs.get? ⟨0⟩ = some g ∧
    f.Intact (after (sampleLoop ⟨1⟩)) ⟨0⟩ ∧ (∃ text, (after (sampleLoop ⟨1⟩)).printFun ⟨0⟩ = .ok text) ∧
    ¬ g.Intact (after (sampleLoop ⟨2⟩)) ⟨0⟩ := by
  have hfounded : ∀ last, (after (sampleLoop last)).Founded := fun last => (reached_after _).founded
  have hsize : ∀ last ∈ [(⟨1⟩ : VariantId), ⟨2⟩], 0 < (after (sampleLoop last)).funs.size := by decide +kernel
  obtain ⟨f, hf⟩ := Arena.get?_of_lt (h := (⟨0⟩ : FunId)) (hsize ⟨1⟩ (by simp))
  obtain ⟨g, hg⟩ := Arena.get?_of_lt (h := (⟨0⟩ : FunId)) (hsize ⟨2⟩ (by simp))
  have hspec : ∀ last f, (after (sampleLoop last)).funs.get? ⟨0⟩ = some f →
      ((after (sampleLoop last)).verify ⟨0⟩ = .ok () ↔ f.Intact (after (sampleLoop last)) ⟨0⟩) ∧
      ((after (sampleLoop last)).verify ⟨0⟩ = .ok () → ∃ text, (after (sampleLoop last)).printFun ⟨0⟩ = .ok text) :=
    fun last f hf => verify_iff_intact ((hfounded last).formed.primitive 12 _ rfl) (hfounded last).formed.earlier
      (hfounded last).vars hf
  have haccepted : (after (sampleLoop ⟨1⟩)).verify ⟨0⟩ = .ok () := by decide +kernel
  have hrejected : (after (sampleLoop ⟨2⟩)).verify ⟨0⟩ ≠ .ok () := by decide +kernel
  exact ⟨f, g, hf, hg, (hspec ⟨1⟩ f hf).1.mp haccepted, (hspec ⟨1⟩ f hf).2 haccepted,
    fun h => hrejected ((hspec ⟨2⟩ g hg).1.mpr h)⟩

end Context

end BlockCompiler
