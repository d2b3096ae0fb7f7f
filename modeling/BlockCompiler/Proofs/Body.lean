/-
  BlockCompiler.Proofs.Body — lowering the body of a function.

  A body starts with an entry block, into which the named arguments are stored, and is
  finished by a `return` of nothing or by an error. `BodyRun` says what happens in between.

  (1) What a body does to the state is effects on blocks of its own (`BodyRun.effects`).
  (2) A body without an error leaves no block open (`BodyRun.yields`). So lowering a body never
      stops at a fault: it is verified, and printed if asked for (`lowerFunBody_runs`).
  (3) If besides no type contains itself, all blocks of the body are typed
      (`BodyRun.typed`).
-/
import BlockCompiler.Proofs.Reachable
import BlockCompiler.Proofs.Stmt
import BlockCompiler.Lowering.Module

namespace BlockCompiler.Lowering

open Surface (Stmt)
open TypeTable (Grows Acyclic)
open Typing (Adds)
open State

variable {s : State} {b : BlockId} {index : Nat} {p : Parameter} {P : BlockStmt → Prop} {T : Terminator → Prop}

namespace State

/-- A function gets a body, which has one empty block so far. -/
def begun (s : State) (fn : FunId) (f : Function) : State :=
  { s.addBlock with
    context := { s.addBlock.context with
      funs := s.funs.put fn { f with body := some ⟨s.blocks.next, fn⟩ } } }

/-- The named arguments, from `index` on, become variables. -/
def withParams (s : State) (entry : BlockId) (span : Span) (index : Nat) : List Parameter → State
  | [] => s
  | { ty := _, name := none } :: rest => s.withParams entry span (index + 1) rest
  | { ty, name := some name } :: rest =>
    ((s.declare entry ty name (some (.arg index ty span))).bind name s.vars.next).withParams entry span
      (index + 1) rest

/-- Everything is set for the statements of a body. -/
def started (s : State) (fn : FunId) (f : Function) : State :=
  ((s.begun fn f).enter.withParams s.blocks.next f.span 0 f.signature.params).enter

end State

/-- What happens where a body ends. -/
inductive Finish (cfg : Settings) (f : Function) : Option BlockId → State → State → Prop
  | left {s : State} : Finish cfg f none s s
  | unit {s : State} {b : BlockId} : f.signature.result = TypeId.unit →
      Finish cfg f (some b) s (s.close b (.ret (.unit TypeId.unit ⟨f.span.stop, f.span.stop⟩)))
  | limit {s : State} {b : BlockId} : s.AtLimit cfg → Finish cfg f (some b) s s
  | missing {s : State} {b : BlockId} {ty : String} :
      Finish cfg f (some b) s (s.reported cfg (missingReturn f.file f ty))

/-- A body was lowered. -/
structure BodyRun (cfg : Settings) (fn : FunId) (f : Function) (body : List Stmt) (last : Option BlockId)
    (s s₁ s' : State) : Prop where
  stmts : Run cfg f.file f.signature (.stmts body (some s.blocks.next) last) (s.started fn f) s₁
  finish : Finish cfg f last s₁.leave.leave s'

/-! ## (1) Effects -/

section Params

variable {cfg : Settings} {sig : Signature} {lo : Nat} {entry : BlockId} {span : Span}

theorem State.IsOpen.bound (ho : s.IsOpen entry) (ty : TypeId) (name : String) (value : Option Value) :
    ((s.declare entry ty name value).bind name s.vars.next).IsOpen entry :=
  isOpen_of_get?_eq ((Yields.declare (Owns.single ho) (.head _) ty name value).owns.isOpen entry
    (.head _)) rfl

theorem ends_bindParams (Q : PUnit → State → Prop) : ∀ (params : List Parameter) (index : Nat) {s : State},
    s.IsOpen entry → s.scopes ≠ [] →
    (Ends (bindParams entry span index params) s Q ↔ Q ⟨⟩ (s.withParams entry span index params))
  | [], _, _, _, _ => ends_pure _
  | { ty := _, name := none } :: rest, index, s, ho, hsc => ends_bindParams Q rest (index + 1) ho hsc
  | { ty, name := some name } :: rest, index, s, ho, hsc => by
    have hvar := ho.addVar ty name
    simp only [bindParams, ends_bind, ends_newVar]
    rw [ends_emit hvar, ends_emit (hvar.append _)]
    refine (ends_bindName ?_ name _ _).trans (ends_bindParams Q rest (index + 1) ?_ ?_)
    · exact hsc
    · exact ho.bound ty name (some (.arg index ty span))
    · exact (SameDepth.bind _ _ _).ne_nil hsc

/-- What every named argument does to the state, all of them do. -/
theorem withParams_of_bound {R : State → State → Prop} (hrefl : ∀ s, R s s) (htrans : ∀ {s s1 s2}, R s s1 → R s1 s2 → R s s2)
    (hbound : ∀ s ty name index, R s ((s.declare entry ty name (some (.arg index ty span))).bind name s.vars.next)) :
    ∀ (params : List Parameter) (index : Nat) (s : State), R s (s.withParams entry span index params)
  | [], _, s => hrefl s
  | { ty := _, name := none } :: rest, index, s => withParams_of_bound hrefl htrans hbound rest (index + 1) s
  | { ty, name := some name } :: rest, index, s =>
    htrans (hbound s ty name index) (withParams_of_bound hrefl htrans hbound rest (index + 1) _)

theorem withParams_sameDepth (params : List Parameter) (index : Nat) (s : State) :
    s.SameDepth (s.withParams entry span index params) :=
  withParams_of_bound (fun _ => .of_eq rfl) .trans
    (fun s ty name _ => (SameDepth.of_eq (scopes_declare s entry ty name _)).trans (SameDepth.bind _ _ _)) params index s

theorem getElem?_of_drop {rest : List Parameter} (h : sig.params.drop index = p :: rest) :
    sig.params[index]? = some p := by
  rw [← List.head?_drop, h]
  rfl

/-- An argument fits a variable of its type. -/
theorem fits_param (hs : s.Sound) (hget : sig.params[index]? = some p)
    (hp : ∀ p ∈ sig.params, s.types.Proper p.ty) (span : Span) :
    Fits sig.params s p.ty (some (.arg index p.ty span)) := by
  have hproper := hp p (List.mem_of_getElem? hget)
  have htyped : (Value.arg index p.ty span).Typed (s.site sig.params) := .arg hget hproper
  exact .of_value (w := .arg index p.ty span) (htyped.within hs.types) (fun _ => hproper.2) fun _ => htyped

theorem State.Holds.withParams : ∀ (rest : List Parameter) (index : Nat) {s : State}, s.Holds sig lo [entry] →
    sig.params.drop index = rest → (∀ p ∈ sig.params, s.types.Proper p.ty) →
    Moves cfg sig lo s [entry] (s.withParams entry span index rest) [entry]
  | [], _, _, h, _, _ => .refl h.owns
  | { ty := _, name := none } :: rest, index, s, h, hdrop, hp => by
    refine Holds.withParams rest (index + 1) h ?_ hp
    rw [← List.drop_drop, hdrop]
    rfl
  | { ty, name := some name } :: rest, index, s, h, hdrop, hp => by
    have hfits := fits_param h.sound (getElem?_of_drop hdrop) hp span
    have hbound : Moves cfg sig lo s [entry] _ [entry] := h.bound (.head _) name hfits
    refine hbound.trans (Holds.withParams rest (index + 1) (hbound.holds h) ?_ fun p hmem => ?_)
    · rw [← List.drop_drop, hdrop]
      rfl
    · exact (hp p hmem).grows (hbound.extends h).types.grows

end Params

section

variable {cfg : Settings} {fn : FunId} {f : Function} {body : List Stmt} {last : Option BlockId} {s s1 s' : State}

theorem State.get?_begun (hf : s.funs.get? fn = some f) (fn' : FunId) :
    (s.begun fn f).funs.get? fn' =
      if fn' = fn then some { f with body := some ⟨s.blocks.next, fn⟩ } else s.funs.get? fn' := by
  have hput := Arena.put_eq_modify hf fun f => { f with body := some ⟨s.blocks.next, fn⟩ }
  simp only [State.begun, hput, Arena.get?_modify, hf, Option.map_some]

section

variable (s : State) (fn : FunId) (f : Function)

theorem State.begun_yields : State.Yields s [] (s.begun fn f) [s.blocks.next] :=
  (Yields.addBlock (owns_nil s)).same rfl

theorem State.started_scopes (h : (s.started fn f).SameDepth s1) : s1.leave.leave.scopes = s.scopes := by
  change s1.leave.scopes.tail = _
  rw [h.leave_eq]
  exact (withParams_sameDepth f.signature.params 0 _).2

theorem State.region_begun (P : BlockStmt → Prop) (T : Terminator → Prop) :
    Region (s.begun fn f) s.blocks.size P T := (Region.empty s).addBlock.of_blocks_eq rfl

end

theorem BodyRun.scopes_eq (h : BodyRun cfg fn f body last s s1 s') : s'.scopes = s.scopes := by
  have hstmts : s1.leave.leave.scopes = s.scopes := started_scopes s fn f h.stmts.keeps
  cases h.finish with
  | left | limit | unit | missing => exact hstmts

/-- Control that starts in a region of closed blocks meets nothing but blocks of the region. -/
theorem State.Region.hasBlock {lo : Nat} (h : Region s lo P T)
    (hclosed : ∀ b : BlockId, lo ≤ b.index → b.index < s.blocks.size → s.IsClosed b) {a : BlockId}
    (ha : lo ≤ a.index ∧ a.index < s.blocks.size) (hb : s.context.Reaches a b) :
    (lo ≤ b.index ∧ b.index < s.blocks.size) ∧ s.context.HasBlock P T b := by
  have hat : ∀ b : BlockId, lo ≤ b.index ∧ b.index < s.blocks.size → s.context.HasBlock P T b := by
    intro b hb
    obtain ⟨block, t, hget, ht⟩ := hclosed b hb.1 hb.2
    obtain ⟨hstmts, hterm⟩ := h b block hb.1 hget
    exact ⟨block, t, hget, ht, hstmts, (hterm t ht).1⟩
  suffices hin : lo ≤ b.index ∧ b.index < s.blocks.size from ⟨hin, hat b hin⟩
  induction hb with
  | refl => exact ha
  | @tail b c _ hstep ih =>
    obtain ⟨block, t, hget, ht⟩ := hclosed b ih.1 ih.2
    exact ((h b block ih.1 hget).2 t ht).2 c (Context.successors_eq hget ht ▸ hstep)

theorem ends_finishBody (hs : s.Sound) (hresult : s.types.Proper f.signature.result) {b : Option BlockId}
    (ho : s.Owns b.toList) : Ends (finishBody cfg f b) s fun _ s' => Finish cfg f b s s' := by
  cases b with
  | none => exact (ends_pure _).mpr .left
  | some b =>
    simp only [finishBody]
    split
    · rename_i hunit
      rw [ends_terminate (ho.isOpen b (by simp))]
      exact .unit hunit
    · simp only [ends_bind, ends_limitReached]
      split
      · rename_i hat
        rw [ends_pure]
        exact .limit (of_decide_eq_true hat)
      · simp only [ends_bind]
        refine typeName_ends hs hresult.1 fun ty => ?_
        rw [ends_report]
        exact .missing

/-- A body that is verified changes nothing but the journal. -/
theorem ends_inspectBody {text : String} (hverify : s.verify fn = .ok ())
    (hprint : s.context.printFun fn = .ok text) :
    Ends (inspectBody cfg fn) s fun _ s' => ∃ journal, s' = { s with journal } := by
  simp only [inspectBody, ends_bind, ends_ask]
  refine ⟨⟨⟩, hverify, ?_⟩
  split
  · simp only [ends_bind, ends_ask, ends_note]
    exact ⟨text, hprint, _, rfl⟩
  · rw [ends_pure]
    exact ⟨s.journal, rfl⟩

/-- Lowers the body of a declared function, which is not verified yet. -/
def buildBody (cfg : Settings) (fn : FunId) (body : List Stmt) : LowerM Unit := do
  let f ← ask (·.funs.get fn)
  let entry ← newBlock
  setContext fun c => { c with funs := c.funs.put fn { f with body := some ⟨entry, fn⟩ } }
  let last ← inScope do
    bindParams entry f.span 0 f.signature.params
    lowerBlock cfg f.file fn body entry
  finishBody cfg f last

theorem lowerFunBody_eq (cfg : Settings) (fn : FunId) (body : List Stmt) : lowerFunBody cfg fn body = (do
    let s ← get
    buildBody cfg fn body
    if (← get).errors = s.errors then inspectBody cfg fn) := by
  simp only [lowerFunBody, buildBody, bind_assoc]

variable (hs : s.Sound) (hf : s.funs.get? fn = some f)
include hs hf

theorem State.Sound.begun : (s.begun fn f).Sound := by
  refine ⟨hs.types, hs.vars, fun fn' f' hf' => ?_, fun p hp => ?_, hs.scopes⟩
  · rw [get?_begun hf] at hf'
    split at hf'
    · cases hf'
      exact hs.signatures fn f hf
    · exact hs.signatures fn' f' hf'
  · obtain ⟨f', hf', hname⟩ := hs.functions p hp
    rw [get?_begun hf]
    split
    · rename_i heq
      rw [heq, hf] at hf'
      cases hf'
      exact ⟨_, rfl, hname⟩
    · exact ⟨f', hf', hname⟩

theorem State.Sound.holds_begun : (s.begun fn f).Holds f.signature s.blocks.size [s.blocks.next] :=
  ⟨hs.begun hf, (hs.signatures fn f hf _ (.head _)).2, (s.begun_yields fn f).size_le, (s.begun_yields fn f).owns,
    by simp⟩

theorem State.Sound.moves_started :
    Moves cfg f.signature s.blocks.size (s.begun fn f) [s.blocks.next] (s.started fn f)
      [s.blocks.next] := by
  have hh := hs.holds_begun hf
  have henter : Moves cfg f.signature s.blocks.size _ _ (s.begun fn f).enter _ := .single .enter hh.owns rfl
  have hproper : ∀ p ∈ f.signature.params, s.types.Proper p.ty := fun p hp =>
    hs.signatures fn f hf p.ty (.tail _ (List.mem_map_of_mem hp))
  have hparams : Moves cfg f.signature s.blocks.size _ _
      ((s.begun fn f).enter.withParams s.blocks.next f.span 0 f.signature.params) _ :=
    henter.trans ((henter.holds hh).withParams f.signature.params 0 rfl hproper)
  exact hparams.trans (.single .enter hparams.owns rfl)

/-- What a function whose body is lowered needs. -/
theorem State.Ready.started : (s.started fn f).Ready fn f.signature := by
  have hmoves : Moves {} f.signature _ _ _ (s.started fn f) _ := hs.moves_started hf
  have hdeclares : (s.begun fn f).Declares fn f.signature := ⟨_, (get?_begun hf fn).trans (if_pos rfl), rfl⟩
  exact ⟨(hmoves.holds (hs.holds_begun hf)).sound, List.cons_ne_nil _ _,
    hdeclares.extends (hmoves.extends (hs.holds_begun hf))⟩

theorem Run.moves_body
    (h : Run cfg f.file f.signature (.stmts body (some s.blocks.next) last) (s.started fn f) s1) :
    Moves cfg f.signature s.blocks.size (s.begun fn f) [s.blocks.next] s1.leave.leave last.toList := by
  have hstart : Moves cfg f.signature s.blocks.size _ _ _ _ := hs.moves_started hf
  have h1 := hstart.trans (h.moves (hstart.holds (hs.holds_begun hf)))
  have h2 := h1.trans (.single .leave h1.owns rfl)
  exact h2.trans (.single .leave h2.owns rfl)

section

variable (h : BodyRun cfg fn f body last s s1 s')
include h

/-- What a body does is effects on blocks of its own. -/
theorem BodyRun.effects : Effects cfg f.signature s.blocks.size (s.begun fn f) s' := by
  have hstmts := h.stmts.moves_body hs hf
  have hh := hstmts.holds (hs.holds_begun hf)
  cases h.finish with
  | left => exact hstmts.effects
  | @unit _ b hunit =>
    have htyped : (Value.unit .unit ⟨f.span.stop, f.span.stop⟩).Typed (s1.leave.leave.site f.signature.params) :=
      .unit
    have hret : Moves cfg f.signature s.blocks.size _ [b] (s1.leave.leave.close b (.ret _)) [] :=
      hh.close (htyped.within hh.sound.types) (fun _ => ⟨htyped, hunit.symm⟩) (by simp [Terminator.successors])
    exact hstmts.effects.trans hret.effects
  | limit => exact hstmts.effects
  | missing => exact hstmts.effects.tail .report

/-! ## (2) Verified bodies -/

/-- A body without an error leaves no block open. -/
theorem BodyRun.yields (hlimit : ¬ s.AtLimit cfg) (herr : s'.errors = s.errors) : State.Yields s [] s' [] := by
  have hstmts := h.stmts.moves_body hs hf
  have hyields := (s.begun_yields fn f).trans hstmts.yields
  have hle : s.errors ≤ s1.errors := (hstmts.extends (hs.holds_begun hf)).errors
  cases h.finish with
  | left => exact hyields
  | unit => exact hyields.trans (.close hyields.owns _)
  | limit hat => exact absurd ⟨hat.1, Nat.le_trans hat.2 (Nat.le_of_eq herr)⟩ hlimit
  | missing =>
    have herr' : s1.errors + 1 = s.errors := herr
    omega

/-- The blocks of a body that leaves none open, whatever region they form. -/
theorem BodyRun.hasBlock (hyields : State.Yields s [] s' []) (hr : Region s' s.blocks.size P T) (hb :
    s'.context.Reaches s.blocks.next b) : s'.context.HasBlock P T b := by
  refine (hr.hasBlock (fun b hlo hlt => hyields.closed b (Or.inr hlo) hlt (by simp)) ⟨Nat.le_refl _, ?_⟩ hb).2
  have hsize := (Effects.extends (h.effects hs hf) (hs.begun hf)).size_le
  have hbegun : (s.begun fn f).blocks.size = s.blocks.size + 1 := Arena.size_insert _ _
  change s.blocks.size < s'.blocks.size
  omega

theorem BodyRun.region :
    Region s' s.blocks.size (BlockStmt.Within (s'.site f.signature.params))
      (Terminator.Within (s'.site f.signature.params)) :=
  Effects.within (h.effects hs hf) (hs.begun hf) (s.region_begun fn f _ _)

theorem BodyRun.within (hyields : State.Yields s [] s' []) : s'.context.BodyWithin f ⟨s.blocks.next, fn⟩ :=
  fun _ hb => h.hasBlock hs hf hyields (h.region hs hf) hb

theorem BodyRun.get?_fun (fn' : FunId) : s'.funs.get? fn' =
      if fn' = fn then some { f with body := some ⟨s.blocks.next, fn⟩ } else s.funs.get? fn' := by
  rw [(Effects.extends (h.effects hs hf) (hs.begun hf)).funs]
  exact get?_begun hf fn'

theorem BodyRun.verified (hyields : State.Yields s [] s' []) :
    s'.verify fn = .ok () ∧ ∃ text, s'.context.printFun fn = .ok text := by
  have hs' := Effects.sound (h.effects hs hf) (hs.begun hf)
  have hfn := (h.get?_fun hs hf fn).trans (if_pos rfl)
  have hsig := hs'.signatures fn _ hfn
  have hbody := h.within hs hf hyields
  constructor
  · refine Context.verify_ok hfn hsig fun body hb => ?_
    cases hb
    exact ⟨rfl, hbody⟩
  · refine Context.printFun_ok hs'.types hs'.vars hfn hsig fun body hb => ?_
    cases hb
    exact hbody

end

/-- A body gets its statements and its end, whatever the limit. -/
theorem buildBody_runs (body : List Stmt) :
    Ends (buildBody cfg fn body) s fun _ s' => ∃ last s1, BodyRun cfg fn f body last s s1 s' ∧
      lowerStmts cfg f.file fn body (some s.blocks.next) (s.started fn f) = .ok last s1 ∧
      finishBody cfg f last s1.leave.leave = .ok ⟨⟩ s' := by
  have hready := State.Ready.started hs hf
  have hstarted : Moves cfg f.signature _ _ _ _ _ := hs.moves_started hf
  have hopen : (s.begun fn f).enter.IsOpen s.blocks.next :=
    isOpen_of_get?_eq ((s.begun_yields fn f).owns.isOpen _ (.head _)) rfl
  simp only [buildBody, ends_bind, ends_ask, Arena.get_eq_ok, hf, Option.some.injEq, exists_eq_left', ends_newBlock,
    ends_setContext]
  refine ends_inScope ?_
  simp only [ends_bind]
  refine (ends_bindParams _ _ _ hopen (List.cons_ne_nil _ _)).mpr (ends_inScope ?_)
  have howns : (s.started fn f).Owns (some s.blocks.next).toList := hstarted.owns
  refine (lowerStmts_runs cfg f.file fn f.signature body hready howns).traced.mono fun last s1 h => ⟨?_, ?_, ?_⟩
  · exact SameDepth.ne_nil h.2.keeps (List.cons_ne_nil _ _)
  · rw [SameDepth.leave_eq h.2.keeps]
    exact (withParams_sameDepth _ _ _).ne_nil (List.cons_ne_nil _ _)
  · obtain ⟨hlower, hrun⟩ := h
    have hmoves := hrun.moves_body hs hf
    have hh := hmoves.holds (hs.holds_begun hf)
    have hresult := hs.signatures fn f hf _ (.head _)
    have hresult1 := hresult.grows (hmoves.extends (hs.holds_begun hf)).types.grows
    refine (ends_finishBody hh.sound hresult1 hh.owns).traced.mono fun _ s' hfinish => ?_
    exact ⟨last, s1, ⟨hrun, hfinish.2⟩, hlower, hfinish.1⟩

/-- A body that reported no error and left no block open is verified. -/
theorem lowerFunBody_of_build (hbuild : buildBody cfg fn body s = .ok ⟨⟩ s') (hbody : BodyRun cfg fn f body last s s1
    s') (hyields : s'.errors = s.errors → State.Yields s [] s' []) : ∃ journal, lowerFunBody cfg fn body s = .ok ⟨⟩ {
    s' with journal } := by
  have hends : Ends (lowerFunBody cfg fn body) s fun _ s'' => ∃ journal, s'' = { s' with journal } := by
    simp only [lowerFunBody_eq, ends_bind, ends_get]
    refine (ends_iff_of_eq hbuild).mpr ?_
    split
    · rename_i herr
      obtain ⟨hverify, text, hprint⟩ := hbody.verified hs hf (hyields herr)
      exact ends_inspectBody hverify hprint
    · rw [ends_pure]
      exact ⟨s'.journal, rfl⟩
  obtain ⟨_, _, hrun, journal, rfl⟩ := hends
  exact ⟨journal, hrun⟩

/-- Lowering a body never stops at a fault, unless the limit was reached before. -/
theorem lowerFunBody_runs (hlimit : ¬ s.AtLimit cfg) (body : List Stmt) : Ends (lowerFunBody cfg fn body) s fun _ s''
    => ∃ last s1 s', BodyRun cfg fn f body last s s1 s' ∧ ∃ journal, s'' = { s' with journal } := by
  obtain ⟨_, s', hbuild, last, s1, hbody, -⟩ : Ends (buildBody cfg fn body) s _ := buildBody_runs hs hf body
  obtain ⟨journal, hrun⟩ := lowerFunBody_of_build hs hf hbuild hbody (hbody.yields hs hf hlimit)
  exact ⟨_, _, hrun, last, s1, s', hbody, journal, rfl⟩

/-! ## (3) Typed bodies -/

variable (h : BodyRun cfg fn f body last s s1 s')
include h

theorem BodyRun.typed (hlimit : ¬ s.AtLimit cfg) (herr : s'.errors = s.errors) (hfine : s.Fine) : s'.context.BodyTyped
    f ⟨s.blocks.next, fn⟩ := by
  intro b hb
  have htyped := Effects.typed (h.effects hs hf) (hs.begun hf) herr hfine (s.region_begun fn f _ _)
  exact h.hasBlock hs hf (h.yields hs hf hlimit herr) htyped hb

/-- What was there before a body stays as it is. -/
theorem BodyRun.site (params : List Parameter) : (s.context.site params).Extends (s'.context.site params) := by
  have hbegun : (s.context.site params).Extends ((s.begun fn f).context.site params) := by
    refine ⟨Grows.refl _, fun _ _ hv => hv, fun fn' f' hf' => ?_, rfl⟩
    by_cases heq : fn' = fn
    · subst heq
      cases hf.symm.trans hf'
      exact ⟨_, (get?_begun hf fn').trans (if_pos rfl), rfl, rfl⟩
    · exact ⟨f', ((get?_begun hf fn').trans (if_neg heq)).trans hf', rfl, rfl⟩
  exact hbegun.trans ((Effects.extends (h.effects hs hf) (hs.begun hf)).site params)

theorem BodyRun.below (hb : b.index < s.blocks.size) : s'.blocks.get? b = s.blocks.get? b :=
    by
  have hsize := (s.begun_yields fn f).size_le
  rw [Effects.below (h.effects hs hf) (hs.begun hf) hsize hb]
  exact Arena.get?_insert_of_lt hb

/-- A body without an error is typed, and so are those before it. -/
theorem BodyRun.wellTyped (hlimit : ¬ s.AtLimit cfg) (herr : s'.errors = s.errors) (hfine : s.Fine)
    (hw : s.context.WellTyped) : s'.context.WellTyped := by
  intro fn' f' body' hf' hbody'
  rw [h.get?_fun hs hf] at hf'
  split at hf'
  · rename_i heq
    cases hf'
    cases hbody'
    have htyped := h.typed hs hf hlimit herr hfine
    exact ⟨heq.symm, htyped⟩
  · obtain ⟨hparent, htyped⟩ := hw fn' f' body' hf' hbody'
    exact ⟨hparent, htyped.extends (h.site hs hf _) fun b hb => h.below hs hf hb⟩

end

end BlockCompiler.Lowering
