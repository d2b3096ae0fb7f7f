/-
  BlockCompiler.Proofs.Module — lowering modules.

  (1) Functions are declared one by one; a state stays sound, and no function has a body yet
      (`declareFuns_ends`).
  (2) Bodies are lowered one by one. What was lowered before stays as it is, so that without
      an error every function with a body is typed (`lowerBodies_ends`).
  (3) Lowering a module never stops at a fault, and it succeeds exactly if no error was
      reported (`lowerModule_total`). If it succeeds, all functions are well typed
      (`lowerModule_typed`), and the module can be printed and has target code
      (`lowerModule_output`).
-/
import BlockCompiler.Proofs.Body
import BlockCompiler.Proofs.Emission
import BlockCompiler.Proofs.TypeDefs

namespace BlockCompiler

open TypeTable (Grows Sound Acyclic)
open Typing (Adds)

variable {f : Function} {fn : FunId} {st : Typing}

namespace Lowering

open Surface (FunDecl TypeDef Module)
open State

variable {cfg : Settings} {file : FileId} {s s' : State}

/-! ## (1) Declaring functions -/

/-- A function is added, under its name. -/
def State.addFun (s : State) (f : Function) : State :=
  { s with
    context := { s.context with funs := s.funs.insert f }
    functions := s.functions ++ [(f.name, s.funs.next)] }

theorem State.get?_addFun {g : Function} (h : s.funs.get? fn = some g) :
    (s.addFun f).funs.get? fn = some g :=
  (Arena.get?_insert_of_lt (Arena.get?_lt h)).trans h

theorem State.Sound.addFun (hs : s.Sound) (hf : f.signature.Proper s.types) : (s.addFun f).Sound := by
  refine ⟨hs.types, hs.vars, fun fn g hg => ?_, fun p hp => ?_, hs.scopes⟩
  · simp only [State.addFun, Arena.get?_insert] at hg
    split at hg
    · cases hg
      exact hf
    · exact hs.signatures fn g hg
  · rcases List.mem_append.mp hp with hp | hp
    · obtain ⟨g, hg, hname⟩ := hs.functions p hp
      exact ⟨g, get?_addFun hg, hname⟩
    · rw [List.mem_singleton.mp hp]
      exact ⟨f, Arena.get?_insert_next _ _, rfl⟩

theorem resolveSignature_judges (hs : st.types.Sound) (file : FileId) (d : FunDecl) :
    Judges (resolveSignature file d) st (fun sig st' => Adds st st' ∧ sig.Proper st'.types)
      ( Annotation.Refused st) := by
  have hresult := Annotation.resolve_judges file d.result hs
  simp only [resolveSignature, judges_bind, judges_pure]
  refine hresult.mono (fun result st1 h1 => ?_) fun _ _ h => h
  have hparams := Annotation.resolveParams_judges file (d.params.map fun p => (p.ty, p.name)) h1.1.sound
  refine hparams.mono (fun params st2 h2 => ?_) fun _ _ h => ⟨h1.1.trans h.1, h.2⟩
  refine ⟨h1.1.trans h2.1, fun m hm => ?_⟩
  rcases List.mem_cons.mp hm with rfl | hm
  · exact h1.2.grows h2.1.grows
  · obtain ⟨p, hp, rfl⟩ := List.mem_map.mp hm
    exact h2.2 p hp

theorem noteDeclared_ends (hs : s.Sound) (hf : f.signature.Proper s.types) :
    Ends (noteDeclared cfg f) s fun _ s' => s' = s.withTyping s'.typing ∧ s.typing.Adds s'.typing := by
  unfold noteDeclared
  split
  · have hintern : Ends (Typing.intern (.func f.signature)) s.typing _ :=
      Typing.intern_ends hs.types rfl (by simp) hf
    simp only [ends_bind, ends_onTyping]
    refine hintern.mono fun ty st h => ?_
    refine typeName_ends (hs.withTyping h.1) h.2.2.1 fun name => ?_
    rw [ends_note]
    exact ⟨rfl, h.1.sound, h.1.grows, h.1.aliases⟩
  · rw [ends_pure]
    exact ⟨rfl, Adds.refl hs.types⟩

/-- A function was declared under a new name: types were added before it and, for the log, after it. -/
def AddsFun (s : State) (fn : FunId) (s' : State) : Prop :=
  ∃ st f, s.typing.Adds st ∧ f.signature.Proper st.types ∧ f.body = none ∧ s.functions.lookup f.name = none ∧
    fn = s.funs.next ∧ s' = ((s.withTyping st).addFun f).withTyping s'.typing ∧ st.Adds s'.typing

theorem addsFun_of_noteDeclared (hs : s.Sound) (hadds : s.typing.Adds st) (f : Function)
    (hproper : f.signature.Proper st.types) (hnone : f.body = none) (hnew : s.functions.lookup f.name = none) :
    Ends (noteDeclared cfg f) ((s.withTyping st).addFun f) fun _ s' => AddsFun s s.funs.next s' := by
  have hs1 : ((s.withTyping st).addFun f).Sound := (hs.withTyping hadds).addFun hproper
  refine (noteDeclared_ends hs1 hproper).mono fun _ s' h => ?_
  exact ⟨st, f, hadds, hproper, hnone, hnew, rfl, h.1, h.2⟩

theorem declareFun_judges (hs : s.Sound) (d : FunDecl) :
    Judges (declareFun cfg file d) s (AddsFun s) (Rejects s) := by
  simp only [declareFun, judges_bind, judges_get]
  split
  · rename_i first hfirst
    obtain ⟨f, hf, -⟩ := hs.functions _ (mem_of_lookup hfirst)
    simp only [judges_bind, judges_lift, ends_ask, Arena.get_eq_ok, hf, Option.some.injEq, exists_eq_left',
      judges_throw]
    exact .here hs rfl
  · rename_i hnew
    simp only [judges_bind, judges_checked]
    refine (resolveSignature_judges hs.types _ d).mono (fun sig st h => ?_) fun e st h => ⟨rfl, h.1, h.2⟩
    obtain ⟨hadds, hproper⟩ := h
    simp only [judges_lift, newFun, ends_bind, ends_get, ends_setContext, ends_pure, judges_modify, judges_pure]
    exact addsFun_of_noteDeclared hs hadds _ hproper rfl hnew

/-- No function has a body yet. -/
def State.Bodyless (s : State) : Prop := ∀ fn f, s.funs.get? fn = some f → f.body = none

/-- Every function is found by its name. -/
def State.Catalogued (s : State) : Prop :=
  ∀ fn f, s.funs.get? fn = some f → s.functions.lookup f.name = some fn

theorem State.Catalogued.addFun (h : s.Catalogued) (hnew : s.functions.lookup f.name = none) : (s.addFun f).Catalogued := by
  intro fn g hg
  simp only [State.addFun, Arena.get?_insert] at hg
  change (s.functions ++ [(f.name, s.funs.next)]).lookup g.name = some fn
  split at hg
  · rename_i hfn
    cases hg
    subst hfn
    rw [List.lookup_append, hnew]
    simp
  · rw [List.lookup_append, h fn g hg]
    rfl

/-- Functions without bodies were declared, each under a new name; what was rejected was reported. -/
structure State.Enlarges (s : State) (declared : List FunId) (s' : State) : Prop where
  sound : s'.Sound
  counted : s.Counted → s'.Counted
  scopes : s'.scopes = s.scopes
  blocks : s'.blocks = s.blocks
  errors : s.errors ≤ s'.errors
  types : s.typing.Adds s'.typing
  size_le : s.funs.size ≤ s'.funs.size
  fresh : ∀ fn ∈ declared, s.funs.size ≤ fn.index ∧ fn.index < s'.funs.size
  nodup : declared.Nodup
  bodyless : ∀ fn f, s'.funs.get? fn = some f → s.funs.get? fn = some f ∨ f.body = none
  names : s.Catalogued → s'.Catalogued

namespace State.Enlarges

variable {A B : List FunId}

theorem refl (hs : s.Sound) : s.Enlarges [] s :=
  ⟨hs, id, rfl, rfl, Nat.le_refl _, Adds.refl hs.types, Nat.le_refl _, by simp, List.nodup_nil, fun _ _ => .inl, id⟩

theorem trans {s'' : State} (h : s.Enlarges A s') (h' : s'.Enlarges B s'') : s.Enlarges (A ++ B) s'' := by
  have hle := h.size_le
  have hle' := h'.size_le
  refine ⟨h'.sound, h'.counted ∘ h.counted, h'.scopes.trans h.scopes, h'.blocks.trans h.blocks,
    Nat.le_trans h.errors h'.errors, h.types.trans h'.types, Nat.le_trans hle hle', fun fn hfn => ?_, ?_,
    fun fn f hf => ?_, h'.names ∘ h.names⟩
  · rcases List.mem_append.mp hfn with hfn | hfn
    · have := h.fresh fn hfn
      omega
    · have := h'.fresh fn hfn
      omega
  · refine List.Nodup.append h.nodup h'.nodup fun fn hA hB => ?_
    have := h.fresh fn hA
    have := h'.fresh fn hB
    omega
  · rcases h'.bodyless fn f hf with hf | hnone
    · exact h.bodyless fn f hf
    · exact .inr hnone

theorem rejected (hs : s.Sound) {d : Diagnostic} (h : Rejects s d s') : s.Enlarges [] (s'.reported cfg d) := by
  have hs1 := hs.withTyping h.adds
  rw [h.typing]
  refine ⟨{ hs1 with }, fun hc => ?_, rfl, rfl, ?_, { h.adds with }, Nat.le_refl _, by simp, List.nodup_nil,
    fun _ _ => .inl, id⟩
  · exact State.Counted.reported (s := s.withTyping _) hc d
  · rw [errors_reported h.isError]
    exact Nat.le_succ _

theorem exists_fun (h : s.Enlarges A s') (hfn : fn ∈ A) : ∃ f, s'.funs.get? fn = some f :=
  Arena.get?_of_lt (h.fresh fn hfn).2

end State.Enlarges

theorem AddsFun.enlarges (h : AddsFun s fn s') (hs : s.Sound) : s.Enlarges [fn] s' := by
  obtain ⟨st, f, hadds, hproper, hnone, hnew, rfl, heq, hadds'⟩ := h
  have hs1 : ((s.withTyping st).addFun f).Sound := (hs.withTyping hadds).addFun hproper
  have htypes := hadds.trans hadds'
  rw [heq]
  have hnames : s.Catalogued → ((s.withTyping st).addFun f).Catalogued := fun hc =>
    State.Catalogued.addFun (s := s.withTyping st) hc hnew
  refine ⟨hs1.withTyping hadds', id, rfl, rfl, Nat.le_refl _, htypes, ?_, ?_, List.nodup_singleton _, fun fn g hg => ?_,
    hnames⟩
  · simp [State.withTyping, State.addFun]
  · simp [State.withTyping, State.addFun]
  · simp only [State.withTyping, State.addFun, Arena.get?_insert] at hg
    split at hg
    · cases hg
      exact .inr hnone
    · exact .inl hg

theorem declareFuns_ends : ∀ (decls : List FunDecl) {s : State}, s.Sound →
    Ends (declareFuns cfg file decls) s fun declared s' => s.Enlarges (declared.map (·.1)) s'
  | [], s, hs => by
    simp only [declareFuns, ends_pure]
    exact .refl hs
  | d :: rest, s, hs => by
    simp only [declareFuns, ends_bind]
    refine Ends.mono (declareFun_judges hs d) fun r s1 h1 => ?_
    cases r with
    | error e =>
      have henlarges : s.Enlarges [] (s1.reported cfg e) := .rejected hs h1
      simp only [ends_bind, ends_report]
      exact (declareFuns_ends rest henlarges.sound).mono fun declared s2 h2 => henlarges.trans h2
    | ok fn =>
      have henlarges := AddsFun.enlarges h1 hs
      simp only [ends_bind, ends_pure]
      exact (declareFuns_ends rest henlarges.sound).mono fun declared s2 h2 => henlarges.trans h2

/-- Nothing but types and functions without bodies. -/
structure State.Opening (s : State) : Prop where
  sound : s.Sound
  counted : s.Counted
  scopes : s.scopes = []
  bodyless : s.Bodyless

theorem State.Bare.opening (h : s.Bare) : s.Opening := by
  refine ⟨⟨h.types, ?_, ?_, ?_, ?_⟩, h.counted, h.scopes, ?_⟩
  all_goals simp [State.Bodyless, h.vars, h.funs, h.functions, h.scopes, Arena.empty, Arena.get?]

theorem State.Enlarges.opening {declared : List FunId} (h : s.Enlarges declared s') (ho : s.Opening) : s'.Opening :=
  ⟨h.sound, h.counted ho.counted, h.scopes.trans ho.scopes, fun fn f hf => (h.bodyless fn f hf).elim (ho.bodyless fn f) id⟩

/-! ## (2) Bodies -/

/-- A sound state between two bodies. Without an error its types and bodies are in order. -/
structure State.Complete (s : State) : Prop where
  sound : s.Sound
  counted : s.Counted
  scopes : s.scopes = []
  typed : s.errors = 0 → s.types.Defined ∧ Acyclic s.types ∧ s.context.WellTyped

theorem State.Complete.journal (h : s.Complete) (journal : Log.Journal) : { s with journal }.Complete :=
  ⟨⟨h.sound.types, h.sound.vars, h.sound.signatures, h.sound.functions, h.sound.scopes⟩, h.counted, h.scopes, h.typed⟩

theorem State.Opening.complete (h : s.Opening)
    (htypes : s.errors = 0 → s.types.Defined ∧ Acyclic s.types) : s.Complete :=
  ⟨h.sound, h.counted, h.scopes, fun herr => ⟨(htypes herr).1, (htypes herr).2, fun fn f body hf hbody => by
    rw [h.bodyless fn f hf] at hbody
    cases hbody⟩⟩

theorem defined_of_adds {st' : Typing} (h : st.types.Defined) (ha : st.Adds st') : st'.types.Defined :=
  fun id name u hid => h id name u (ha.aliases id name u hid)

/-- Declared functions have no bodies yet, so the state is in order if the types are. -/
theorem declareFuns_complete (hbare : s.Bare)
    (htypes : s.errors = 0 → s.types.Defined ∧ Acyclic s.types) (decls : List FunDecl) :
    Ends (declareFuns cfg file decls) s fun declared s' => s'.Complete ∧
      ∀ p ∈ declared, ∃ f, s'.funs.get? p.1 = some f := by
  refine (declareFuns_ends decls hbare.opening.sound).mono fun declared s' henlarges => ?_
  refine ⟨(henlarges.opening hbare.opening).complete fun herr => ?_, fun p hp => henlarges.exists_fun (List.mem_map_of_mem hp)⟩
  have hle := henlarges.errors
  obtain ⟨hdefined, hacyclic⟩ := htypes (by omega)
  exact ⟨defined_of_adds hdefined henlarges.types, hacyclic.adds hbare.types henlarges.types⟩

theorem BodyRun.complete {body : List Surface.Stmt} {last : Option BlockId} {s1 : State}
    (h : BodyRun cfg fn f body last s s1 s') (hc : s.Complete) (hf : s.funs.get? fn = some f)
    (hlimit : ¬ s.AtLimit cfg) : s'.Complete := by
  have hbegun := hc.sound.begun hf
  have heff := h.effects hc.sound hf
  have hext := Effects.extends heff hbegun
  refine ⟨Effects.sound heff hbegun, Effects.counted heff hc.counted, h.scopes_eq.trans hc.scopes, fun herr => ?_⟩
  have hle : s.errors ≤ s'.errors := hext.errors
  have herr0 : s.errors = 0 := by omega
  obtain ⟨hdefined, hacyclic, hwell⟩ := hc.typed herr0
  have hclean : s.Clean := by
    unfold State.Clean
    rw [hc.scopes]
    simp
  refine ⟨defined_of_adds hdefined hext.types, hacyclic.adds hbegun.types hext.types, ?_⟩
  exact h.wellTyped hc.sound hf hlimit (by omega) ⟨hclean, hacyclic⟩ hwell

/-- What every body keeps that is lowered before the limit, all bodies keep. -/
theorem lowerBodies_keeps {I : State → Prop} (hsound : ∀ {s}, I s → s.Sound)
    (hjournal : ∀ {s} journal, I s → I { s with journal })
    (hbody : ∀ {s s1 s' fn f body last}, I s → s.funs.get? fn = some f → ¬ s.AtLimit cfg →
      BodyRun cfg fn f body last s s1 s' → I s') :
    ∀ (declared : List (FunId × FunDecl)) {s : State}, I s → (∀ p ∈ declared, ∃ f, s.funs.get? p.1 = some f) →
      Ends (lowerBodies cfg declared) s fun _ s' => I s'
  | [], s, hs, _ => by
    simp only [lowerBodies, ends_pure]
    exact hs
  | (fn, d) :: rest, s, hs, hfuns => by
    obtain ⟨f, hf⟩ := hfuns (fn, d) (.head _)
    have hrest : ∀ p ∈ rest, ∃ f, s.funs.get? p.1 = some f := fun p hp => hfuns p (.tail _ hp)
    simp only [lowerBodies, ends_bind, ends_limitReached]
    split
    · simp only [ends_bind, ends_get, ends_note]
      exact hjournal _ hs
    · rename_i hat
      have hlimit : ¬ s.AtLimit cfg := fun h => hat (decide_eq_true h)
      cases d.body with
      | none => exact lowerBodies_keeps hsound hjournal hbody rest hs hrest
      | some body =>
        simp only [ends_bind]
        refine (lowerFunBody_runs (hsound hs) hf hlimit body).mono fun _ s'' h => ?_
        obtain ⟨last, s1, s', hrun, journal, rfl⟩ := h
        have hs' : I { s' with journal } := hjournal journal (hbody hs hf hlimit hrun)
        refine lowerBodies_keeps hsound hjournal hbody rest hs' fun p hp => ?_
        obtain ⟨g, hg⟩ := hrest p hp
        obtain ⟨g', hg', -⟩ := (hrun.site (hsound hs) hf []).funs p.1 g hg
        exact ⟨g', hg'⟩

theorem lowerBodies_ends (declared : List (FunId × FunDecl)) (hc : s.Complete)
    (hfuns : ∀ p ∈ declared, ∃ f, s.funs.get? p.1 = some f) :
    Ends (lowerBodies cfg declared) s fun _ s' => s'.Complete :=
  lowerBodies_keeps (fun h => h.sound) (fun journal h => h.journal journal)
    (fun hc hf hlimit hrun => hrun.complete hc hf hlimit) declared hc hfuns

/-! ## (3) Modules -/

/-- A state in which nothing has been lowered yet. -/
def State.new (journal : Log.Journal) : State := { journal }

theorem State.new_bare (journal : Log.Journal) : (State.new journal).Bare :=
  ⟨TypeTable.fresh_sound, rfl, rfl, rfl, rfl, rfl, rfl⟩

/-- A module is lowered to the end, with functions or with diagnostics. -/
theorem lowerModule_ends (cfg : Settings) (m : Module) (journal : Log.Journal) :
    Ends (lowerModule cfg m) (State.new journal) fun r s' => s'.Complete ∧
      ((∃ fns, r = .ok fns) ∧ s'.errors = 0 ∨ r = .error s'.diags.toList ∧ s'.errors ≠ 0) := by
  simp only [lowerModule, ends_bind, ends_note]
  refine (lowerTypes_ends (State.new_bare _) TypeTable.fresh_ne_named m.types).mono fun _ s1 h1 => ?_
  obtain ⟨hbare, -, htypes⟩ := h1
  refine (declareFuns_complete hbare htypes m.funs).mono fun declared s2 h2 => ?_
  obtain ⟨hcomplete, hdeclared⟩ := h2
  refine (lowerBodies_ends declared hcomplete hdeclared).mono fun _ s3 h3 => ?_
  simp only [ends_get]
  split
  · rename_i herr
    rw [ends_pure]
    exact ⟨h3, Or.inl ⟨⟨_, rfl⟩, herr⟩⟩
  · rename_i herr
    rw [ends_pure]
    exact ⟨h3, Or.inr ⟨rfl, herr⟩⟩

theorem complete_of_lowerModule {m : Module} {journal : Log.Journal} {fns : List FunId}
    (h : lowerModule cfg m { journal } = .ok (.ok fns) s') : s'.Complete ∧ s'.errors = 0 := by
  obtain ⟨hcomplete, hr⟩ := (lowerModule_ends cfg m journal).result h
  rcases hr with ⟨-, herr⟩ | ⟨hbad, -⟩
  · exact ⟨hcomplete, herr⟩
  · cases hbad

/-- Lowering a module never stops at a fault, whatever the limit on errors and the log. It
succeeds exactly if no error was reported, and gives all diagnostics otherwise. -/
theorem lowerModule_total (cfg : Settings) (m : Module) (journal : Log.Journal) :
    ∃ r s', lowerModule cfg m { journal } = .ok r s' ∧
      ((∃ fns, r = .ok fns) ↔ ∀ d ∈ s'.diags.toList, d.severity ≠ .error) ∧
      ∀ ds, r = .error ds → ds = s'.diags.toList := by
  obtain ⟨r, s', hrun, hcomplete, hr⟩ := lowerModule_ends cfg m journal
  have hcount : s'.errors = 0 ↔ ∀ d ∈ s'.diags.toList, d.severity ≠ .error := by
    rw [hcomplete.counted, List.countP_eq_zero]
    simp [Diagnostic.isError]
  refine ⟨r, s', hrun, ?_, ?_⟩
  · rw [← hcount]
    rcases hr with ⟨hok, herr⟩ | ⟨rfl, herr⟩
    · exact ⟨fun _ => herr, fun _ => hok⟩
    · simp [herr]
  · rintro ds rfl
    rcases hr with ⟨⟨fns, hok⟩, -⟩ | ⟨hds, -⟩
    · cases hok
    · exact Except.error.inj hds

/-- In every reachable block of every function of a lowered module, each part of each value
has the type that the rules give it, which is never `invalid`, and statements and terminators
are typed. -/
theorem lowerModule_typed {cfg : Settings} {m : Module} {journal : Log.Journal} {fns : List FunId} {s' : State}
    (h : lowerModule cfg m { journal } = .ok (.ok fns) s') {fn : FunId} {f : Function} {body : Body}
    (hf : s'.context.funs.get? fn = some f) (hbody : f.body = some body) {b : BlockId}
    (hb : s'.context.Reaches body.entry b) :
    ∃ block t, s'.context.blocks.get? b = some block ∧ block.terminator = some t ∧
      (∀ v ∈ block.values, ∀ n ∈ v.nodes,
        n.Typed (s'.context.site f.signature.params) ∧ n.ty ≠ TypeId.invalid) ∧
      (∀ x ∈ block.stmts.toList, x.Typed (s'.context.site f.signature.params)) ∧
      t.Typed (s'.context.site f.signature.params) f.signature.result := by
  obtain ⟨hcomplete, herr⟩ := complete_of_lowerModule h
  obtain ⟨-, -, hwell⟩ := hcomplete.typed herr
  obtain ⟨block, t, hget, ht, hstmts, hterm⟩ := (hwell fn f body hf hbody).2 b hb
  refine ⟨block, t, hget, ht, fun v hv n hn => ?_, hstmts, hterm⟩
  have htyped := Block.typed_of_mem_values ht hstmts hterm hv
  exact ⟨htyped.of_mem_nodes hn, htyped.ne_invalid hcomplete.sound.types hn⟩

/-- A sum of two variants, and a function that matches on one. -/
def sampleModule : Module where
  name := "sample"
  file := 0
  types := [⟨"S", .sum [.int ⟨true, .w32⟩ .none, .bool .none] .none, .none⟩]
  funs := [⟨"f", [⟨.named "S" .none, some "s"⟩], .int ⟨true, .w32⟩ .none, {},
    some [
      .matchOn (.name "s" .none)
        [⟨.int ⟨true, .w32⟩ .none, some "x", [.ret (some (.name "x" .none)) .none], .none⟩] none .none,
      .ret (some (.int 0 none .none)) .none],
    .none⟩]

theorem sampleModule_typed : ∃ fns s', lowerModule {} sampleModule {} = .ok (.ok fns) s' ∧
    ∃ f body block t, s'.context.funs.get? ⟨0⟩ = some f ∧ f.body = some body ∧
      s'.context.blocks.get? body.entry = some block ∧ block.terminator = some t ∧
      (∀ v ∈ block.values, ∀ n ∈ v.nodes, n.ty ≠ TypeId.invalid) ∧
      t.Typed (s'.context.site f.signature.params) f.signature.result := by
  have hrun : (match lowerModule {} sampleModule {} with
      | .ok (.ok _) s => ((s.funs.get? ⟨0⟩).bind (·.body)).isSome
      | _ => false) = true := by decide +kernel
  split at hrun
  · rename_i fns s' h
    obtain ⟨body, hbody⟩ := Option.isSome_iff_exists.mp hrun
    obtain ⟨f, hf, hbody⟩ := Option.bind_eq_some_iff.mp hbody
    obtain ⟨block, t, hget, ht, hvalues, -, hterm⟩ := lowerModule_typed h hf hbody .refl
    exact ⟨fns, s', h, f, body, block, t, hf, hbody, hget, ht, fun v hv n hn => (hvalues v hv n hn).2, hterm⟩
  · cases hrun

/-- A lowered module has target code under all options, and its functions can be printed. -/
theorem lowerModule_output {cfg : Settings} {m : Module} {journal : Log.Journal} {fns : List FunId} {s' : State}
    (h : lowerModule cfg m { journal } = .ok (.ok fns) s') :
    (∀ (g : Target.Generator) (name : String), ∃ text, g.generate s'.context name = (.ok text, g)) ∧
      ∃ text, s'.context.print = .ok text := by
  obtain ⟨hcomplete, herr⟩ := complete_of_lowerModule h
  obtain ⟨hdefined, hacyclic, hwell⟩ := hcomplete.typed herr
  have hs := hcomplete.sound
  constructor
  · exact fun g name => Target.generate_eq ⟨hs.types, hacyclic, hdefined⟩ hs.signatures hwell g name
  · refine Context.print_ok fun fn f hf => Context.printFun_ok hs.types hs.vars hf (hs.signatures fn f hf) ?_
    exact fun body hbody => (hwell fn f body hf hbody).2.within hs.types

theorem sampleModule_output : ∃ fns s', lowerModule {} sampleModule {} = .ok (.ok fns) s' ∧
    (∃ text, Target.Generator.generate {} s'.context "sample" = (.ok text, {})) ∧
      ∃ text, s'.context.print = .ok text := by
  have hrun : (match lowerModule {} sampleModule {} with
      | .ok (.ok _) _ => true
      | _ => false) = true := by decide +kernel
  split at hrun
  · rename_i fns s' h
    exact ⟨fns, s', h, (lowerModule_output h).1 {} "sample", (lowerModule_output h).2⟩
  · cases hrun

end Lowering

end BlockCompiler
