/-
  BlockCompiler.Proofs.Pieces — a lowered module is put together from the bodies of its functions.

  (1) `BodyBuilt`: what lowering a body has built when it ends, in whatever state it started.
  (2) A body has the blocks that were made for it, and no others (`BodyBuilt.reaches_iff`). It is
      verified if it reported no error, so all of them are closed (`BodyBuilt.isClosed`).
  (3) `Assembled`: each function with a body is a piece, built between two states; the pieces
      follow one another, leave each other alone and make up all blocks.
  (4) So functions with bodies partition the blocks (`lowered_blocks_partition`).
-/
import BlockCompiler.Proofs.Builds
import BlockCompiler.Proofs.Module

namespace BlockCompiler

variable {b : BlockId} {p : Piece} {fn : FunId} {f : Function}
  {last : Option BlockId} {s1 : State} {rest : List (FunId × FunDecl)} {m : Surface.Module} {q : Piece}

/-! ## (1) Bodies -/

namespace Lowering

open Surface (Stmt FunDecl TypeDef Module)
open State

/-- A body was lowered. -/
structure BodyBuilt (cfg : Settings) (fn : FunId) (f : Function) (last : Option BlockId) (s s₁ s' : State) : Prop where
  found : s.funs.get? fn = some f
  built : Builds (.line s.blocks.next last) (s.started fn f) s₁
  finish : Finish cfg f last s₁.leave.leave s'

section

variable {cfg : Settings} {fn : FunId} {f : Function} {last : Option BlockId} {s s1 s' : State}

theorem whenever_bindParams {entry : BlockId} {span : Span} {Q : PUnit → State → Prop} :
    ∀ (params : List Parameter) (index : Nat) {s : State}, Q ⟨⟩ (s.withParams entry span index params) →
      Whenever (bindParams entry span index params) s Q
  | [], _, _, h => (whenever_pure _).mpr h
  | { ty := _, name := none } :: rest, index, _, h => whenever_bindParams rest (index + 1) h
  | { ty, name := some name } :: rest, index, s, h => by
    simp only [bindParams, whenever_bind, whenever_newVar, whenever_emit, whenever_bindName]
    exact fun _ _ _ => whenever_bindParams rest (index + 1) h

theorem finishBody_finishes (b : Option BlockId) :
    Whenever (finishBody cfg f b) s fun _ s' => Finish cfg f b s s' := by
  cases b with
  | none => exact (whenever_pure _).mpr .left
  | some b =>
    simp only [finishBody]
    split
    · rename_i hunit
      rw [whenever_terminate]
      exact fun _ => .unit hunit
    · simp only [whenever_bind, whenever_limitReached]
      split
      · rename_i hat
        exact (whenever_pure _).mpr (.limit (of_decide_eq_true hat))
      · simp only [whenever_bind, whenever_typeName, whenever_report]
        exact fun _ _ => .missing

theorem inspectBody_verifies : Whenever (inspectBody cfg fn) s fun _ s' =>
    s.verify fn = .ok () ∧ ∃ journal, s' = { s with journal } := by
  simp only [inspectBody, whenever_bind, whenever_ask]
  intro _ hverify
  split
  · simp only [whenever_bind, whenever_ask, whenever_note]
    exact fun _ _ => ⟨hverify, _, rfl⟩
  · exact (whenever_pure _).mpr ⟨hverify, s.journal, rfl⟩

/-- Lowering a body builds one; without an error it is verified. -/
theorem lowerFunBody_builds (body : List Stmt) : Whenever (lowerFunBody cfg fn body) s fun _ s'' =>
    ∃ f last s1 s' journal, BodyBuilt cfg fn f last s s1 s' ∧ s'' = { s' with journal } ∧
      (s'.errors = s.errors → s'.verify fn = .ok ()) := by
  simp only [lowerFunBody, whenever_bind, whenever_get, whenever_ask, Arena.get_eq_ok, whenever_newBlock,
    whenever_setContext]
  intro f hf
  refine whenever_inScope ?_
  simp only [whenever_bind]
  refine whenever_bindParams _ _ (whenever_inScope ?_)
  refine (lowerStmts_builds cfg f.file fn body _ _).mono fun last s1 hbuilt => ?_
  refine (finishBody_finishes last).mono fun _ s' hfinish => ?_
  have hbody : BodyBuilt cfg fn f last s s1 s' := ⟨hf, hbuilt, hfinish⟩
  split
  · refine inspectBody_verifies.mono fun _ s'' h => ?_
    obtain ⟨hverify, journal, rfl⟩ := h
    exact ⟨f, last, s1, s', journal, hbody, rfl, fun _ => hverify⟩
  · rename_i herr
    exact (whenever_pure _).mpr ⟨f, last, s1, s', s'.journal, hbody, rfl, fun h => absurd h herr⟩

/-! ## (2) The blocks of a body -/

section

variable (entry : BlockId) (span : Span) (params : List Parameter) (index : Nat) (s : State)

theorem State.size_withParams : (s.withParams entry span index params).blocks.size = s.blocks.size :=
  withParams_of_bound (R := fun s s' => s'.blocks.size = s.blocks.size) (fun _ => rfl)
    (fun h h' => h'.trans h) (fun _ _ _ _ => size_declare _ _ _ _ _) params index s

theorem State.Onward.withParams : s.Onward (s.withParams entry span index params) :=
  withParams_of_bound .refl .trans (fun s _ _ _ => Onward.declare s _ _ _ _) params index s

end

theorem State.IsOpen.withParams {entry : BlockId} (ho : s.IsOpen entry) (span : Span) (params : List Parameter)
    (index : Nat) : Yields s [entry] (s.withParams entry span index params) [entry] :=
  withParams_of_bound (R := fun s s' => s.IsOpen entry → Yields s [entry] s' [entry]) (fun _ ho => .refl (.single ho))
    (fun h h' ho => (h ho).trans (h' ((h ho).owns.isOpen _ (.head _))))
    (fun _ ty name _ ho => (Yields.declare (.single ho) (.head _) ty name _).same rfl) params index s ho

theorem State.started_covers (s : State) (fn : FunId) (f : Function) :
    Covers s [] [s.blocks.next] (s.started fn f) [s.blocks.next] := by
  have h1 : Covers s [] [s.blocks.next] (s.begun fn f).enter [s.blocks.next] :=
    (Covers.addBlock s).same rfl
  have hopen := h1.owns.isOpen _ (.head _)
  exact (h1.andThen (.of_size_eq (hopen.withParams f.span f.signature.params 0) (size_withParams _ _ _ _ _))).same rfl

section

variable (h : BodyBuilt cfg fn f last s s1 s')
include h

theorem BodyBuilt.covers : ∃ rest, Covers s [] [s.blocks.next] s' rest := by
  have hstart := s.started_covers fn f
  have hstmts : Covers s [] [s.blocks.next] s1.leave.leave last.toList :=
    (hstart.andThen (h.built.covers hstart.owns)).same rfl
  cases h.finish with
  | left | limit => exact ⟨_, hstmts⟩
  | unit => exact ⟨_, hstmts.close _ (by simp [Terminator.successors])⟩
  | missing => exact ⟨_, hstmts.same rfl⟩

theorem BodyBuilt.onward : (s.begun fn f).Onward s' := by
  have hparams : (s.begun fn f).Onward (s.started fn f) := Onward.withParams _ _ _ _ (s.begun fn f).enter
  have hstmts := hparams.trans h.built.onward
  cases h.finish with
  | left | limit | unit => exact hstmts
  | missing => exact hstmts.trans (Idle.reported s1.leave.leave cfg _).onward

theorem BodyBuilt.scopes_eq : s'.scopes = s.scopes := by
  have hstmts : s1.leave.leave.scopes = s.scopes := started_scopes s fn f h.built.widens.sameDepth
  cases h.finish with
  | left | limit | unit | missing => exact hstmts

theorem BodyBuilt.get?_fun (fn' : FunId) : s'.funs.get? fn' =
    if fn' = fn then some { f with body := some ⟨s.blocks.next, fn⟩ } else s.funs.get? fn' := by
  rw [h.onward.1]
  exact get?_begun h.found fn'

/-- What was there before a body stays as it is. -/
theorem BodyBuilt.below (hb : b.index < s.blocks.size) : s'.blocks.get? b = s.blocks.get? b := by
  obtain ⟨rest, hcovers⟩ := h.covers
  exact hcovers.kept b hb List.not_mem_nil

theorem BodyBuilt.size_le : s.blocks.size ≤ s'.blocks.size ∧ s.vars.size ≤ s'.vars.size := by
  obtain ⟨rest, hcovers⟩ := h.covers
  exact ⟨hcovers.size_le, h.onward.2.1⟩

end

theorem State.Covers.reaches_iff {entry : BlockId} {rest : List BlockId} (h : Covers s [] [entry] s' rest)
    (he : s.IsNew s' entry) : s'.context.Reaches entry b ↔ s.IsNew s' b := by
  refine ⟨fun hr => ?_, fun hb => ?_⟩
  · induction hr with
    | refl => exact he
    | tail _ hstep ih => exact h.inside _ (.inr ih.1) _ hstep
  · obtain ⟨a, ha, hr⟩ := h.reached b hb
    rwa [List.mem_singleton.mp ha] at hr

/-- Control that enters a body reaches all the blocks that were made for it, and no others. -/
theorem BodyBuilt.reaches_iff (h : BodyBuilt cfg fn f last s s1 s') :
    s'.context.Reaches s.blocks.next b ↔ s.IsNew s' b := by
  obtain ⟨rest, hcovers⟩ := h.covers
  refine hcovers.reaches_iff ⟨Nat.le_refl _, ?_⟩
  have hstart : s.blocks.size + 1 = (s.started fn f).blocks.size :=
    ((size_withParams _ f.span f.signature.params 0 (s.begun fn f).enter).trans (size_addBlock s)).symm
  have hle := (h.built.covers (s.started_covers fn f).owns).size_le
  have hfinish : s1.blocks.size = s'.blocks.size := by
    cases h.finish with
    | left | limit | missing => rfl
    | unit => exact (size_close _ _ _).symm
  change s.blocks.size < s'.blocks.size
  omega

end

end Lowering

namespace Context

variable {c : Context} {fn : FunId} {f : Function} {body : Body}

theorem closed_of_checkBlock (h : c.checkBlock f b = .ok ()) :
    ∃ block t, c.blocks.get? b = some block ∧ block.terminator = some t := by
  unfold checkBlock at h
  split at h
  · cases h
  · rename_i block hget
    obtain ⟨_, -, h⟩ := bind_eq_ok.mp h
    split at h
    · cases h
    · exact ⟨block, _, hget, ‹_›⟩

/-- The blocks of a function that is verified are closed. -/
theorem closed_of_verify (h : c.verify fn = .ok ()) (hf : c.funs.get? fn = some f) (hbody : f.body = some body)
    (hb : c.Reaches body.entry b) : ∃ block t, c.blocks.get? b = some block ∧ block.terminator = some t := by
  unfold verify at h
  obtain ⟨f', hf', h⟩ := bind_eq_ok.mp h
  rw [Arena.get_eq_ok, hf] at hf'
  cases hf'
  obtain ⟨_, -, h⟩ := bind_eq_ok.mp h
  obtain ⟨_, -, h⟩ := bind_eq_ok.mp h
  rw [hbody] at h
  obtain ⟨_, -, h⟩ := bind_eq_ok.mp h
  exact closed_of_checkBlock (ok_of_forM h b (mem_reachableFrom_iff.mpr hb))

theorem reachable_eq_ok (hf : c.funs.get? fn = some f) {blocks : List BlockId} :
    c.reachable fn = .ok blocks ↔ blocks = (f.body.map fun body => c.reachableFrom body.entry).getD [] := by
  have hget : c.funs.get fn = .ok f := Arena.get_eq_ok.mpr hf
  unfold reachable
  rw [bind_eq_ok]
  constructor
  · rintro ⟨f', hf', h⟩
    rw [hget] at hf'
    cases hf'
    cases hbody : f.body with
    | none | some =>
      rw [hbody] at h
      cases h
      rfl
  · rintro rfl
    refine ⟨f, hget, ?_⟩
    cases f.body <;> rfl

/-- The block is one of those that are listed for the function. -/
def Lists (c : Context) (fn : FunId) (b : BlockId) : Prop := ∃ blocks, c.reachable fn = .ok blocks ∧ b ∈ blocks

theorem lists_iff : c.Lists fn b ↔ ∃ f body, c.funs.get? fn = some f ∧ f.body = some body ∧ c.Reaches body.entry b := by
  constructor
  · rintro ⟨blocks, hlist, hb⟩
    obtain ⟨f, hf, -⟩ := bind_eq_ok.mp hlist
    rw [Arena.get_eq_ok] at hf
    rw [reachable_eq_ok hf] at hlist
    subst hlist
    cases hbody : f.body with
    | none =>
      rw [hbody] at hb
      cases hb
    | some body =>
      rw [hbody] at hb
      exact ⟨f, body, hf, hbody, mem_reachableFrom_iff.mp hb⟩
  · rintro ⟨f, body, hf, hbody, hb⟩
    exact ⟨_, (reachable_eq_ok hf).mpr rfl, by rw [hbody]; exact mem_reachableFrom_iff.mpr hb⟩

/-- No two functions have the same name. -/
def DistinctFuns (c : Context) : Prop := ∀ fn fn' f f', c.funs.get? fn = some f →
  c.funs.get? fn' = some f' → f.name = f'.name → fn = fn'

end Context

namespace Lowering

open Surface (Stmt FunDecl TypeDef Module)
open State

section

variable {cfg : Settings} {fn : FunId} {f : Function} {last : Option BlockId} {s s1 s' : State}

section

variable (h : BodyBuilt cfg fn f last s s1 s')
include h

theorem BodyBuilt.get?_self : s'.funs.get? fn = some { f with body := some ⟨s.blocks.next, fn⟩ } :=
  (h.get?_fun fn).trans (if_pos rfl)

theorem BodyBuilt.lists_iff : s'.context.Lists fn b ↔ s.IsNew s' b := by
  rw [Context.lists_iff, ← h.reaches_iff]
  constructor
  · rintro ⟨f', body, hf', hbody, hb⟩
    rw [h.get?_self] at hf'
    cases hf'
    cases hbody
    exact hb
  · exact fun hb => ⟨_, _, h.get?_self, rfl, hb⟩

/-- The blocks of a verified body are closed. -/
theorem BodyBuilt.isClosed (hverify : s'.verify fn = .ok ()) (hb : s.IsNew s' b) : s'.IsClosed b :=
  Context.closed_of_verify hverify h.get?_self rfl (h.reaches_iff.mpr hb)

end

/-- A body is put into a function that keeps its name. -/
theorem BodyBuilt.distinctFuns (hb : BodyBuilt cfg fn f last s s1 s') (h : s.context.DistinctFuns) :
    s'.context.DistinctFuns := by
  have hnamed : ∀ fn' g, s'.funs.get? fn' = some g →
      ∃ g0, s.funs.get? fn' = some g0 ∧ g0.name = g.name := by
    intro fn' g hg
    rw [hb.get?_fun] at hg
    split at hg
    · rename_i hfn
      cases hg
      subst hfn
      exact ⟨f, hb.found, rfl⟩
    · exact ⟨g, hg, rfl⟩
  intro fn1 fn2 f1 f2 h1 h2 hname
  obtain ⟨g1, hg1, hn1⟩ := hnamed fn1 f1 h1
  obtain ⟨g2, hg2, hn2⟩ := hnamed fn2 f2 h2
  exact h fn1 fn2 g1 g2 hg1 hg2 (hn1.trans (hname.trans hn2.symm))

end

/-! ## (3) Modules -/

/-- A function and the states between which its body was lowered. -/
structure Piece where
  fn : FunId
  /-- The function as it was declared. -/
  source : Function
  before : State
  after : State

namespace Piece

/-- The function with its body. -/
def lowered (p : Piece) : Function := { p.source with body := some ⟨p.before.blocks.next, p.fn⟩ }

/-- The body of the piece was lowered without an error, and is in `s` as it was then. -/
structure Fits (cfg : Settings) (s : State) (p : Piece) : Prop where
  built : ∃ last s₁, BodyBuilt cfg p.fn p.source last p.before s₁ p.after
  scopes : p.before.scopes = []
  errors : p.after.errors = p.before.errors
  verified : p.after.verify p.fn = .ok ()
  get?_fun : s.funs.get? p.fn = some p.lowered
  get?_block : ∀ b, p.before.IsNew p.after b → s.blocks.get? b = p.after.blocks.get? b
  size_le : p.after.blocks.size ≤ s.blocks.size ∧ p.after.vars.size ≤ s.vars.size

/-- One function was done before the other was begun. -/
def Precedes (p q : Piece) : Prop :=
  p.fn ≠ q.fn ∧ p.after.blocks.size ≤ q.before.blocks.size ∧
    p.after.vars.size ≤ q.before.vars.size

end Piece

/-- The functions with bodies are these pieces, and the pieces make up all blocks. -/
structure Assembled (cfg : Settings) (s : State) (pieces : List Piece) : Prop where
  scopes : s.scopes = []
  names : s.context.DistinctFuns
  fits : ∀ p ∈ pieces, p.Fits cfg s
  ordered : pieces.Pairwise Piece.Precedes
  bodies : ∀ fn f body, s.funs.get? fn = some f → f.body = some body → ∃ p ∈ pieces, p.fn = fn
  full : ∀ b : BlockId, b.index < s.blocks.size → ∃ p ∈ pieces, p.before.IsNew p.after b

section

variable {cfg : Settings} {s s' : State} {pieces : List Piece}

theorem Piece.Fits.journal (h : p.Fits cfg s) (journal : Log.Journal) : p.Fits cfg { s with journal } := { h with }

theorem Assembled.journal (h : Assembled cfg s pieces) (journal : Log.Journal) : Assembled cfg { s with journal } pieces :=
  { h with fits := fun p hp => (h.fits p hp).journal journal }

/-- A function that has no body yet gets one. -/
theorem BodyBuilt.assembled (hb : BodyBuilt cfg fn f last s s1 s') (hnone : f.body = none)
    (herrors : s'.errors = s.errors) (hverify : s'.verify fn = .ok ()) (h : Assembled cfg s pieces) :
    Assembled cfg s' (pieces ++ [⟨fn, f, s, s'⟩]) := by
  have hne : ∀ p ∈ pieces, p.fn ≠ fn := by
    rintro p hp rfl
    have hp := (h.fits p hp).get?_fun
    rw [hb.found] at hp
    cases hp
    cases hnone
  refine ⟨hb.scopes_eq.trans h.scopes, hb.distinctFuns h.names, fun p hp => ?_, ?_, fun fn' f' body hf' hbody => ?_,
    fun b hlt => ?_⟩
  · rcases List.mem_append.mp hp with hp | hp
    · have hfits := h.fits p hp
      refine { hfits with
        get?_fun := ?_
        get?_block := fun b hnew => ?_
        size_le := ⟨Nat.le_trans hfits.size_le.1 hb.size_le.1, Nat.le_trans hfits.size_le.2 hb.size_le.2⟩ }
      · rw [hb.get?_fun, if_neg (hne p hp)]
        exact hfits.get?_fun
      · rw [hb.below (Nat.lt_of_lt_of_le hnew.2 hfits.size_le.1)]
        exact hfits.get?_block b hnew
    · rw [List.mem_singleton.mp hp]
      exact ⟨⟨last, s1, hb⟩, h.scopes, herrors, hverify, hb.get?_self, fun _ _ => rfl, Nat.le_refl _, Nat.le_refl _⟩
  · refine List.pairwise_append.mpr ⟨h.ordered, List.pairwise_singleton _ _, fun p hp q hq => ?_⟩
    rw [List.mem_singleton.mp hq]
    exact ⟨hne p hp, (h.fits p hp).size_le⟩
  · by_cases heq : fn' = fn
    · exact ⟨⟨fn, f, s, s'⟩, by simp, heq.symm⟩
    · rw [hb.get?_fun, if_neg heq] at hf'
      obtain ⟨p, hp, hfn⟩ := h.bodies fn' f' body hf' hbody
      exact ⟨p, List.mem_append_left _ hp, hfn⟩
  · by_cases hold : b.index < s.blocks.size
    · obtain ⟨p, hp, hnew⟩ := h.full b hold
      exact ⟨p, List.mem_append_left _ hp, hnew⟩
    · exact ⟨⟨fn, f, s, s'⟩, by simp, Nat.le_of_not_lt hold, hlt⟩

/-- Functions that were declared and have no body yet. -/
structure Waiting (s : State) (declared : List (FunId × FunDecl)) : Prop where
  nodup : (declared.map (·.1)).Nodup
  bodyless : ∀ p ∈ declared, ∀ f, s.funs.get? p.1 = some f → f.body = none

theorem Waiting.tail {p : FunId × FunDecl} (h : Waiting s (p :: rest)) : Waiting s rest :=
  ⟨(List.nodup_cons.mp h.nodup).2, fun q hq => h.bodyless q (.tail _ hq)⟩

theorem Waiting.built {d : FunDecl} (h : Waiting s ((fn, d) :: rest)) (hb : BodyBuilt cfg fn f last s s1 s') :
    Waiting s' rest := by
  refine ⟨h.tail.nodup, fun p hp f' hf' => ?_⟩
  have hne : p.1 ≠ fn := fun heq => (List.nodup_cons.mp h.nodup).1 (List.mem_map.mpr ⟨p, hp, heq⟩)
  rw [hb.get?_fun, if_neg hne] at hf'
  exact h.tail.bodyless p hp f' hf'

/-- Bodies are lowered one after the other; without an error, they are assembled. -/
theorem lowerBodies_assembles : ∀ (declared : List (FunId × FunDecl)) {s : State}, Waiting s declared →
    (s.errors = 0 → ∃ pieces, Assembled cfg s pieces) → Whenever (lowerBodies cfg declared) s fun _ s' =>
      s.errors ≤ s'.errors ∧ (s'.errors = 0 → ∃ pieces, Assembled cfg s' pieces)
  | [], s, _, h => by
    simp only [lowerBodies, whenever_pure]
    exact ⟨Nat.le_refl _, h⟩
  | (fn, d) :: rest, s, hw, h => by
    simp only [lowerBodies, whenever_bind, whenever_limitReached]
    split
    · simp only [whenever_bind, whenever_get, whenever_note]
      refine ⟨Nat.le_refl _, fun herr => ?_⟩
      obtain ⟨pieces, hpieces⟩ := h herr
      exact ⟨pieces, hpieces.journal _⟩
    · cases d.body with
      | none => exact lowerBodies_assembles rest hw.tail h
      | some body =>
        simp only [whenever_bind]
        refine (lowerFunBody_builds body).mono fun _ s'' hbody => ?_
        obtain ⟨f, last, s1, s', journal, hb, rfl, hverify⟩ := hbody
        have hle : s.errors ≤ s'.errors := hb.onward.2.2
        have hw' : Waiting { s' with journal } rest := ⟨(hw.built hb).nodup, (hw.built hb).bodyless⟩
        refine (lowerBodies_assembles rest hw' fun herr => ?_).mono fun _ _ h' => ⟨Nat.le_trans hle h'.1, h'.2⟩
        have herr : s'.errors = 0 := herr
        have hsame : s'.errors = s.errors := by omega
        obtain ⟨pieces, hpieces⟩ := h (by omega)
        have hnone := hw.bodyless _ (.head _) f hb.found
        exact ⟨_, (hb.assembled hnone hsame (hverify hsame) hpieces).journal journal⟩

/-! ### Declarations -/

/-- No two functions can be found by one name. -/
theorem State.Catalogued.distinctFuns (h : s.Catalogued) : s.context.DistinctFuns := by
  intro fn fn' f f' hf hf' hname
  have hlookup := h fn f hf
  rw [hname, h fn' f' hf'] at hlookup
  exact (Option.some.inj hlookup).symm

/-- A lowered module is assembled from the bodies of its functions. -/
theorem assembled_of_lowerModule {journal : Log.Journal} {fns : List FunId}
    (h : lowerModule cfg m { journal } = .ok (.ok fns) s') : ∃ pieces, Assembled cfg s' pieces := by
  have hrun : Whenever (lowerModule cfg m) { journal } fun _ s' => s'.errors = 0 → ∃ pieces, Assembled cfg s' pieces := by
    simp only [lowerModule, whenever_bind, whenever_note]
    intro _ s1 hrun1
    obtain ⟨hbare, -⟩ := (lowerTypes_ends (State.new_bare _) TypeTable.fresh_ne_named m.types).result hrun1
    intro declared s2 hrun2
    have h2 := (declareFuns_ends m.funs hbare.opening.sound).result hrun2
    have hopening := h2.opening hbare.opening
    have hempty : s1.Catalogued := fun fn f hf => by
      rw [hbare.funs] at hf
      cases hf
    have hstart : Assembled cfg s2 [] := by
      refine ⟨hopening.scopes, (h2.names hempty).distinctFuns, by simp, .nil, fun fn f body hf hbody => ?_, fun b hlt => ?_⟩
      · rw [hopening.bodyless fn f hf] at hbody
        cases hbody
      · rw [h2.blocks, hbare.blocks] at hlt
        cases hlt
    have hwaiting : Waiting s2 declared := ⟨h2.nodup, fun p _ => hopening.bodyless p.1⟩
    refine (lowerBodies_assembles declared hwaiting fun _ => ⟨[], hstart⟩).mono fun _ s3 h3 => ?_
    simp only [whenever_get]
    split
    · exact (whenever_pure _).mpr h3.2
    · exact (whenever_pure _).mpr h3.2
  exact hrun _ _ h (complete_of_lowerModule h).2

/-! ## (4) Functions partition blocks -/

theorem Piece.Fits.reaches_iff (h : p.Fits cfg s) :
    s.context.Reaches p.before.blocks.next b ↔ p.before.IsNew p.after b := by
  obtain ⟨last, s1, hb⟩ := h.built
  have hsame : ∀ {a : BlockId}, p.before.IsNew p.after a → s.successors a = p.after.successors a :=
    fun ha => successors_of_get?_eq (h.get?_block _ ha)
  rw [← hb.reaches_iff]
  constructor
  · intro hr
    induction hr with
    | refl => exact .refl
    | tail _ hstep ih => exact ih.tail (by rwa [← hsame (hb.reaches_iff.mp ih)])
  · intro hr
    induction hr with
    | refl => exact .refl
    | tail hr hstep ih => exact ih.tail (by rwa [hsame (hb.reaches_iff.mp hr)])

theorem Piece.Fits.isClosed (h : p.Fits cfg s) (hb : p.before.IsNew p.after b) : s.IsClosed b := by
  obtain ⟨last, s1, hbuilt⟩ := h.built
  obtain ⟨block, t, hget, ht⟩ := hbuilt.isClosed h.verified hb
  exact ⟨block, t, (h.get?_block b hb).trans hget, ht⟩

/-- In a lowered module the values of all blocks are typed. -/
theorem value_typed_of_lowerModule {journal : Log.Journal} {fns : List FunId}
    (h : lowerModule cfg m { journal } = .ok (.ok fns) s') {block : Block}
    (hget : s'.blocks.get? b = some block) {v : Value} (hv : v ∈ block.values) :
    ∃ f : Function, v.Typed (s'.context.site f.signature.params) := by
  obtain ⟨pieces, hpieces⟩ := assembled_of_lowerModule h
  obtain ⟨hcomplete, herr⟩ := complete_of_lowerModule h
  obtain ⟨-, -, hwell⟩ := hcomplete.typed herr
  obtain ⟨p, hp, hb⟩ := hpieces.full b (Arena.get?_lt hget)
  have hbody := hwell p.fn p.lowered _ (hpieces.fits p hp).get?_fun rfl
  obtain ⟨block', t, hget', ht, hstmts, hterm⟩ := hbody.2 b ((hpieces.fits p hp).reaches_iff.mpr hb)
  cases hget.symm.trans hget'
  exact ⟨_, Block.typed_of_mem_values ht hstmts hterm hv⟩

section

variable (h : Assembled cfg s pieces)
include h

/-- The piece of a function with a body. -/
theorem Assembled.piece {body : Body} (hf : s.funs.get? fn = some f) (hbody : f.body = some body) :
    ∃ p ∈ pieces, p.fn = fn ∧ p.lowered = f ∧ p.before.blocks.next = body.entry := by
  obtain ⟨p, hp, rfl⟩ := h.bodies fn f body hf hbody
  have heq := (h.fits p hp).get?_fun
  rw [hf] at heq
  cases heq
  cases hbody
  exact ⟨p, hp, rfl, rfl, rfl⟩

theorem Assembled.apart (hp : p ∈ pieces) (hq : q ∈ pieces) (hne : p ≠ q) : p.Precedes q ∨ q.Precedes p := by
  have hsymm : Std.Symm fun p q : Piece => p.Precedes q ∨ q.Precedes p := ⟨fun _ _ => Or.symm⟩
  have hpairs : pieces.Pairwise fun p q => p.Precedes q ∨ q.Precedes p := h.ordered.imp .inl
  exact hpairs.forall hp hq hne

/-- No block is in two pieces. -/
theorem Assembled.eq_of_isNew (hp : p ∈ pieces) (hq : q ∈ pieces) (hbp : p.before.IsNew p.after b)
    (hbq : q.before.IsNew q.after b) : p = q := by
  by_contra hne
  rcases h.apart hp hq hne with hpq | hqp
  · have := hpq.2.1
    have := hbp.2
    have := hbq.1
    omega
  · have := hqp.2.1
    have := hbq.2
    have := hbp.1
    omega

theorem Assembled.lists_iff : s.context.Lists fn b ↔ ∃ p ∈ pieces, p.fn = fn ∧ p.before.IsNew p.after b := by
  rw [Context.lists_iff]
  constructor
  · rintro ⟨f, body, hf, hbody, hb⟩
    obtain ⟨p, hp, hfn, -, hentry⟩ := h.piece hf hbody
    exact ⟨p, hp, hfn, (h.fits p hp).reaches_iff.mp (hentry ▸ hb)⟩
  · rintro ⟨p, hp, rfl, hb⟩
    exact ⟨p.lowered, _, (h.fits p hp).get?_fun, rfl, (h.fits p hp).reaches_iff.mpr hb⟩

end

end

/-- Lowering a body that reports no error makes exactly the blocks that are listed for its
function, and closes them. So the functions with bodies of a lowered module partition its blocks. -/
theorem lowered_blocks_partition (cfg : Settings) :
    (∀ (fn : FunId) (body : List Stmt) (s s' : State), lowerFunBody cfg fn body s = .ok ⟨⟩ s' → s'.errors = s.errors →
      (∀ b : BlockId, s'.context.Lists fn b ↔
        s.context.blocks.size ≤ b.index ∧ b.index < s'.context.blocks.size) ∧
      ∀ b, s'.context.Lists fn b → s'.IsClosed b) ∧
    ∀ (m : Module) (journal : Log.Journal) (fns : List FunId) (s' : State),
      lowerModule cfg m { journal } = .ok (.ok fns) s' →
      (∀ fn f, s'.context.funs.get? fn = some f → (f.body.isSome ↔ ∃ b, s'.context.Lists fn b)) ∧
      (∀ b : BlockId, b.index < s'.context.blocks.size ↔ ∃ fn, s'.context.Lists fn b) ∧
      ∀ b fn fn', s'.context.Lists fn b → s'.context.Lists fn' b → fn = fn' := by
  constructor
  · intro fn body s s'' h herr
    obtain ⟨f, last, s₁, s', journal, hb, rfl, hverify⟩ := lowerFunBody_builds body _ _ h
    have hlists : ∀ b, s'.context.Lists fn b ↔ s.IsNew s' b := fun b => hb.lists_iff
    exact ⟨hlists, fun b hl => hb.isClosed (hverify herr) ((hlists b).mp hl)⟩
  · intro m journal fns s' h
    obtain ⟨pieces, hp⟩ := assembled_of_lowerModule h
    refine ⟨fun fn f hf => ⟨fun hbody => ?_, ?_⟩, fun b => ⟨fun hlt => ?_, ?_⟩, fun b fn fn' hl hl' => ?_⟩
    · obtain ⟨body, hbody⟩ := Option.isSome_iff_exists.mp hbody
      exact ⟨body.entry, Context.lists_iff.mpr ⟨f, body, hf, hbody, .refl⟩⟩
    · rintro ⟨b, hl⟩
      obtain ⟨f', body, hf', hbody, -⟩ := Context.lists_iff.mp hl
      cases hf.symm.trans hf'
      exact Option.isSome_iff_exists.mpr ⟨body, hbody⟩
    · obtain ⟨p, hmem, hnew⟩ := hp.full b hlt
      exact ⟨p.fn, hp.lists_iff.mpr ⟨p, hmem, rfl, hnew⟩⟩
    · rintro ⟨fn, hl⟩
      obtain ⟨p, hmem, -, hnew⟩ := hp.lists_iff.mp hl
      exact Nat.lt_of_lt_of_le hnew.2 (hp.fits p hmem).size_le.1
    · obtain ⟨p, hmem, rfl, hnew⟩ := hp.lists_iff.mp hl
      obtain ⟨q, hmem', rfl, hnew'⟩ := hp.lists_iff.mp hl'
      rw [hp.eq_of_isNew hmem hmem' hnew hnew']

/-- The module is lowered, and the state passes the test. -/
def lowersTo (m : Module) (test : State → Bool) : Bool :=
  match lowerModule {} m {} with
  | .ok (.ok _) s => test s
  | _ => false

theorem exists_of_lowersTo {test : State → Bool} (h : lowersTo m test) :
    ∃ fns s', lowerModule {} m {} = .ok (.ok fns) s' ∧ test s' = true := by
  unfold lowersTo at h
  split at h
  · exact ⟨_, _, by assumption, h⟩
  · cases h

/-- A function without parameters and result, which has no body yet. -/
def sampleDeclared : State :=
  ({} : State).addFun { name := "g", signature := ⟨[], TypeId.unit⟩, file := 0, span := .none }

theorem sampleLoop_blocks :
    (∃ s', lowerFunBody {} ⟨0⟩ [.whileLoop (.bool true .none) [] .none] sampleDeclared = .ok ⟨⟩ s' ∧
      ∀ b : BlockId, s'.context.Lists ⟨0⟩ b ↔ b.index < 4) ∧
    ∃ fns s', lowerModule {} sampleModule {} = .ok (.ok fns) s' ∧
      ∀ b : BlockId, b.index < 3 ↔ s'.context.Lists ⟨0⟩ b := by
  constructor
  · have hrun : (match lowerFunBody {} ⟨0⟩ [.whileLoop (.bool true .none) [] .none] sampleDeclared with
        | .ok _ s => decide (s.errors = 0 ∧ s.blocks.size = 4)
        | _ => false) = true := by decide +kernel
    split at hrun
    · rename_i s' h
      obtain ⟨herr, hsize⟩ := of_decide_eq_true hrun
      refine ⟨s', h, fun b => ?_⟩
      rw [((lowered_blocks_partition {}).1 ⟨0⟩ _ _ _ h herr).1 b, hsize]
      exact ⟨fun hb => hb.2, fun hb => ⟨Nat.zero_le _, hb⟩⟩
    · cases hrun
  · have hrun : lowersTo sampleModule fun s => s.blocks.size = 3 ∧ s.funs.size = 1 := by decide +kernel
    obtain ⟨fns, s', h, htest⟩ := exists_of_lowersTo hrun
    obtain ⟨hsize, hfuns⟩ := of_decide_eq_true htest
    obtain ⟨-, hall, -⟩ := (lowered_blocks_partition {}).2 _ _ _ _ h
    refine ⟨fns, s', h, fun b => ?_⟩
    rw [← hsize, hall b]
    refine ⟨fun ⟨fn, hl⟩ => ?_, fun hl => ⟨_, hl⟩⟩
    obtain ⟨f, body, hf, -, -⟩ := Context.lists_iff.mp hl
    have hlt : fn.index < 1 := hfuns ▸ Arena.get?_lt hf
    have hfn : fn = ⟨0⟩ := Handle.eq_of_index (by simpa using hlt)
    rwa [← hfn]

end Lowering

end BlockCompiler
