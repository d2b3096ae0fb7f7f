/-
  BlockCompiler.Proofs.LogIndependence — logging does not influence compilation.

  A log that wants to know of declared functions adds their types to the table, early and only to
  be named. So the types met later have other handles than without that log, and nothing else
  differs: two runs of one module under two logs give the same functions or the same diagnostics,
  and contexts that are twins (`lowerModule_jointly`). So printed text and target code are the same
  (`lowering_ignores_log`).

  (1) Aliases are declared before anything is resolved, so they have the same handles. They are
      defined alike, and found to contain themselves alike (`lowerTypes_jointly`).
  (2) Functions are declared alike, under the same handles (`declareFuns_jointly`).
  (3) Bodies are lowered alike, and the limit on errors is met at the same body.
-/
import BlockCompiler.Log.Logger
import BlockCompiler.Proofs.AlikeBody
import BlockCompiler.Proofs.AlikeDecls

namespace BlockCompiler

open Surface (TypeDef FunDecl Module)
open TypeTable (Formed Widens Alike Congruent SameAliases)

namespace Lowering

variable {cfg1 cfg2 : Settings} {s1 s2 : State}

/-! ## (1) Types -/

/-- The states differ in the journal and in the handles of types, but not in those of aliases. -/
structure TypeTwins (s₁ s₂ : State) : Prop where
  same : s₂ = s₁.withTyping s₂.typing
  types : s₁.types.Congruent s₂.types
  aliases : s₁.types.SameAliases s₂.types

theorem TypeTwins.reported (h : TypeTwins s1 s2) (d : Diagnostic) : TypeTwins (s1.reported cfg1 d) (s2.reported cfg2 d) := by
  refine ⟨?_, h.types, h.aliases⟩
  rw [h.same]
  rfl

theorem TypeTwins.withTyping (h : TypeTwins s1 s2) {st1 st2 : Typing} (hc : st1.types.Congruent st2.types)
    (ha : st1.types.SameAliases st2.types) : TypeTwins (s1.withTyping st1) (s2.withTyping st2) := by
  refine ⟨?_, hc, ha⟩
  rw [h.same]
  rfl

theorem declareTypes_jointly (file : FileId) : ∀ (defs : List TypeDef) {s : State} (journal : Log.Journal),
    s.types.Formed → Jointly (declareTypes cfg1 file defs) s (declareTypes cfg2 file defs) { s with journal }
      fun declared s1 declared' s2 => declared = declared' ∧ s1.types.Formed ∧ ∃ journal, s2 = { s1 with journal }
  | [], s, journal, hf => (jointly_pure _ _).mpr ⟨rfl, hf, journal, rfl⟩
  | d :: rest, s, journal, hf => by
    simp only [declareTypes, jointly_bind, jointly_get]
    cases hfree : s.types.findAlias? d.name with
    | some _ =>
      simp only [jointly_bind, jointly_report]
      exact declareTypes_jointly file rest (s := s.reported cfg1 _) _ hf
    | none =>
      simp only [jointly_bind, jointly_pure]
      refine declareAlias_whenever hfree fun journal1 =>
        declareAlias_whenever (s := { s with journal }) hfree fun journal2 => ?_
      refine Jointly.mono (declareTypes_jointly file rest (s := s.withTyping ⟨_, journal1⟩) journal2
        (hf.push_alias hfree)) ?_
      rintro declared s1 _ s2 ⟨rfl, hs⟩
      exact ⟨rfl, hs⟩

/-- One alias is defined in both tables. -/
theorem congruent_defineAlias {t1 t2 t1' t2' : TypeTable} (hc : t1.Congruent t2) (ha : t1.SameAliases t2) {id u v : TypeId}
    (huv : t1.Alike t2 u v) (h1 : t1.defineAlias id u = .ok t1') (h2 : t2.defineAlias id v = .ok t2') :
    t1'.Congruent t2' ∧ t1'.SameAliases t2' := by
  obtain ⟨name, hid1, -, hget1⟩ := TypeTable.get?_of_defineAlias h1
  obtain ⟨name', hid2, -, hget2⟩ := TypeTable.get?_of_defineAlias h2
  obtain ⟨w, hw⟩ := (ha id name).mp ⟨_, hid1⟩
  rw [hid2] at hw
  cases hw
  refine ⟨⟨hc.left.defineAlias huv.left_lt h1, hc.right.defineAlias huv.right_lt h2, ?_⟩, ?_⟩
  · rw [TypeTable.alias?_defineAlias hc.left h1 huv.left_lt hid1, TypeTable.alias?_defineAlias hc.right h2 huv.right_lt hid2,
      hc.alias?_eq, huv.shape_eq]
  · have hleft := SameAliases.define hid1 hget1
    have hright := SameAliases.define hid2 hget2
    exact fun id name => (hleft id name).symm.trans ((ha id name).trans (hright id name))

theorem defineTypes_jointly (file : FileId) : ∀ (declared : List (TypeId × TypeDef)) {s1 s2 : State}, TypeTwins s1 s2 →
    Jointly (defineTypes cfg1 file declared) s1 (defineTypes cfg2 file declared) s2 fun _ s1' _ s2' => TypeTwins s1' s2'
  | [], _, _, h => (jointly_pure _ _).mpr h
  | (id, d) :: rest, s1, s2, h => by
    have hresolve : Tallies True ( Annotation.resolve file d.ty) s1.typing ( Annotation.resolve file d.ty) s2.typing Alike :=
      Annotation.resolve_tallies file d.ty h.types.left h.types.right h.types.sameNames
    simp only [defineTypes, resolveType, jointly_bind]
    refine jointly_checking (hresolve.mono (fun u st1 v st2 hq => ?_) fun e st1 e' st2 hr => ?_)
    · obtain ⟨⟨w1, w2⟩, huv⟩ := hq
      simp only [jointly_bind, jointly_onTyping, Typing.defineAlias, Typing.ask, Typing.settle, jointly_get,
        jointly_ofExcept, jointly_modify]
      intro t1 h1 t2 h2
      obtain ⟨hc, ha⟩ := congruent_defineAlias (h.types.widens w1 w2) (h.aliases.widens w1 w2) huv h1 h2
      exact defineTypes_jointly file rest (h.withTyping hc ha)
    · obtain ⟨⟨w1, w2⟩, he⟩ := hr
      rw [he.2 trivial]
      simp only [jointly_bind, jointly_report]
      have htwins := h.withTyping (h.types.widens w1 w2) (h.aliases.widens w1 w2)
      exact defineTypes_jointly file rest (htwins.reported e')

theorem rejectCycles_jointly (file : FileId) : ∀ (declared : List (TypeId × TypeDef)) {s1 s2 : State}, TypeTwins s1 s2 →
    Jointly (rejectCycles cfg1 file declared) s1 (rejectCycles cfg2 file declared) s2 fun _ s1' _ s2' => TypeTwins s1' s2'
  | [], _, _, h => (jointly_pure _ _).mpr h
  | (id, d) :: rest, s1, s2, h => by
    simp only [rejectCycles, jointly_bind, jointly_ask]
    intro x hx y hy
    obtain ⟨name, u, hu⟩ := TypeTable.named_of_isCyclic hx
    obtain ⟨v, hv⟩ := (h.aliases id name).mp ⟨u, hu⟩
    obtain rfl := h.types.isCyclic_eq hu hv hx hy
    cases x with
    | true =>
      simp only [if_true, jointly_bind, jointly_report]
      exact rejectCycles_jointly file rest (h.reported _)
    | false => exact rejectCycles_jointly file rest h

theorem lowerTypes_jointly (file : FileId) (defs : List TypeDef) {s : State} (journal : Log.Journal)
    (hf : s.types.Formed) :
    Jointly (lowerTypes cfg1 file defs) s (lowerTypes cfg2 file defs) { s with journal }
      fun _ s1 _ s2 => TypeTwins s1 s2 := by
  simp only [lowerTypes, jointly_bind]
  refine Jointly.mono (declareTypes_jointly file defs journal hf) ?_
  rintro declared s1 _ _ ⟨rfl, hf1, journal', rfl⟩
  have htwins : TypeTwins s1 { s1 with journal := journal' } := ⟨rfl, ⟨hf1, hf1, rfl⟩, fun _ _ => Iff.rfl⟩
  exact Jointly.mono (defineTypes_jointly file declared htwins) fun _ s1 _ s2 h => rejectCycles_jointly file declared h

/-! ## (2) Functions -/

/-- The states differ in the journal and in the handles of types, but not in those of aliases. -/
structure Twins (s₁ s₂ : State) : Prop extends like : s₁.Like .same s₂ where
  aliases : s₁.types.SameAliases s₂.types
  named : s₁.functions = s₂.functions

theorem TypeTwins.twins (h : TypeTwins s1 s2) (hb : s1.Bare) : Twins s1 s2 := by
  have hsame := h.same
  refine ⟨⟨h.types, ?_, ?_, fun f g hfg => ?_, fun name => ?_, fun _ => ?_, ?_,
    ⟨s1.diags.toList, s2.diags.toList, rfl, rfl, ?_⟩, ⟨s1.errors, by simp [Pairing.same], ?_⟩⟩, h.aliases, ?_⟩
  all_goals rw [hsame]
  all_goals simp only [State.withTyping, hb.vars, hb.blocks, hb.funs, hb.functions, hb.scopes]
  · exact Arena.Like.start .empty .empty
  · exact Arena.Like.start .empty .empty
  · exact .none
  · exact .none
  · exact .nil
  · exact List.forall₂_same.mpr fun d _ => .refl d
  · simp [Pairing.same]

theorem Twins.withTyping (h : Twins s1 s2) {st1 st2 : Typing} (w1 : s1.types.Widens st1.types)
    (w2 : s2.types.Widens st2.types) : Twins (s1.withTyping st1) (s2.withTyping st2) :=
  ⟨h.like.withTyping w1 w2, h.aliases.widens w1 w2, h.named⟩

theorem Twins.next_eq (h : Twins s1 s2) : s1.funs.next = s2.funs.next :=
  Handle.eq_of_index (Arena.size_eq_of_rel fun fn => h.funs fn fn rfl)

theorem Twins.addFun (h : Twins s1 s2) {f g : Function}
    (hfg : f.Like (s1.types.Alike s2.types) .same g) : Twins (s1.addFun f) (s2.addFun g) := by
  have hfunctions : (s1.addFun f).functions = (s2.addFun g).functions := by
    simp only [State.addFun, h.named, h.next_eq, hfg.name]
  refine ⟨⟨h.types, h.vars, h.blocks, ?_, fun name => ?_, fun _ => by rw [hfunctions], h.scopes,
    h.diags, h.errors⟩, h.aliases, hfunctions⟩
  · rintro fn _ rfl
    simp only [State.addFun, Arena.get?_insert, h.next_eq]
    split
    · exact .some hfg
    · exact h.funs fn fn rfl
  · rw [hfunctions]
    cases List.lookup name (s2.addFun g).functions with
    | some fn => exact .some rfl
    | none => exact .none

theorem declareFun_concurs (file : FileId) (d : FunDecl) (h : Twins s1 s2) :
    Concurs (declareFun cfg1 file d) s1 (declareFun cfg2 file d) s2 (fun fn s1' fn' s2' => fn = fn' ∧ Twins s1' s2')
      fun e s1' e' s2' => e = e' ∧ Twins s1' s2' := by
  refine Concurs.bind ((concurs_get _).mpr ?_)
  rw [h.named]
  cases hlookup : s2.functions.lookup d.name with
  | some first =>
    refine Concurs.bind ((concurs_lift (ask _) (ask _)).mpr ((jointly_ask _ _ _).mpr fun f hf g hg => ?_))
    have hfg := optionRel_some (h.funs first first rfl) (Arena.get_eq_ok.mp hf) (Arena.get_eq_ok.mp hg)
    exact (concurs_throw _ _).mpr ⟨by rw [duplicateFun, duplicateFun, hfg.file, hfg.span], h⟩
  | none =>
    have hresolve : Tallies True (resolveSignature file d) s1.typing (resolveSignature file d) s2.typing _ :=
      resolveSignature_tallies file d h.types.left h.types.right h.types.sameNames
    refine Concurs.bind (concurs_checked (hresolve.mono (fun sig st1 sig' st2 hq => ?_) fun e st1 e' st2 hr => ?_))
    · obtain ⟨⟨w1, w2⟩, hsig⟩ := hq
      have htwins := h.withTyping w1 w2
      have hmentions := (Ty.Like.func hsig).mentions rfl
      have hleft := addFun_answers cfg1 (headOf file d sig) (s := s1.withTyping st1) w1.formed
        (forall₂_left hmentions fun _ _ => Alike.left_lt)
      have hright := addFun_answers cfg2 (headOf file d sig') (s := s2.withTyping st2) w2.formed
        (forall₂_right hmentions fun _ _ => Alike.right_lt)
      refine (Concurs.of_answers hleft hright).mono ?_ fun _ _ _ _ hr => hr
      rintro fn s1' fn' s2' ⟨⟨rfl, heq1, w1'⟩, rfl, heq2, w2'⟩
      refine ⟨htwins.next_eq, ?_⟩
      rw [heq1, heq2]
      have hadded := htwins.addFun (f := headOf file d sig) (g := headOf file d sig')
        ⟨rfl, hsig, rfl, rfl, rfl, fun _ => rfl⟩
      exact hadded.withTyping w1' w2'
    · exact ⟨hr.2.2 trivial, h.withTyping hr.1.1 hr.1.2⟩

theorem declareFuns_jointly (file : FileId) : ∀ (decls : List FunDecl) {s1 s2 : State}, Twins s1 s2 →
    Jointly (declareFuns cfg1 file decls) s1 (declareFuns cfg2 file decls) s2
      fun declared s1' declared' s2' => declared = declared' ∧ Twins s1' s2'
  | [], _, _, h => (jointly_pure _ _).mpr ⟨rfl, h⟩
  | d :: rest, s1, s2, h => by
    simp only [declareFuns, jointly_bind]
    refine Jointly.mono (declareFun_concurs file d h) fun r s1' r' s2' hr => ?_
    cases hr with
    | ok hq =>
      obtain ⟨rfl, htwins⟩ := hq
      simp only [jointly_bind, jointly_pure]
      refine Jointly.mono (declareFuns_jointly file rest htwins) ?_
      rintro declared s1'' _ s2'' ⟨rfl, htwins'⟩
      exact ⟨rfl, htwins'⟩
    | error he =>
      obtain ⟨rfl, htwins⟩ := he
      simp only [jointly_bind, jointly_report]
      exact declareFuns_jointly file rest ⟨htwins.like.reported (.refl _) cfg1 cfg2, htwins.aliases, htwins.named⟩

/-! ## (3) Bodies -/

theorem lowerBodies_parallel (hl : Pairing.same.Limits cfg1 cfg2) : ∀ (declared : List (FunId × FunDecl)) {s1 s2 : State},
    s1.Like .same s2 → Parallel .same (lowerBodies cfg1 declared) s1 (lowerBodies cfg2 declared) s2 fun _ _ _ _ => True
  | [], _, _, hs => parallel_pure hs trivial
  | (fn, d) :: rest, s1, s2, hs => by
    simp only [lowerBodies]
    refine (parallel_limitReached hs hl).bind fun x y s1' s2' hon heq => ?_
    obtain rfl := heq
    cases x with
    | true =>
      simp only [if_true, Parallel, jointly_bind, jointly_get, note, Typing.note, jointly_onTyping, jointly_modify]
      exact ⟨hon.like.abreast (hon.journal _ _) rfl rfl, trivial⟩
    | false =>
      cases d.body with
      | none => exact lowerBodies_parallel hl rest hon.like
      | some body =>
        refine (lowerFunBody_parallel hl hon.like rfl body).bind fun _ _ _ _ hon' _ => ?_
        exact lowerBodies_parallel hl rest hon'.like

/-! ## Modules -/

theorem State.Like.diags_eq (h : s1.Like .same s2) : s1.diags = s2.diags := by
  obtain ⟨ds, ds', h1, h2, hds⟩ := h.diags
  have heq : ds = ds' := by
    simpa using map_eq_of_forall₂ (f := id) (g := id) hds fun _ _ hd => hd.2 trivial
  exact Array.toList_inj.mp (by rw [h1, h2, heq]; rfl)

/-- Without errors there is text, printed and generated. -/
theorem State.Complete.has_text {s : State} (hc : s.Complete) (herr : s.errors = 0) :
    (∃ text, s.print = .ok text) ∧
      ∀ (g : Target.Generator) (name : String), ∃ text, g.generate s.context name = (.ok text, g) := by
  obtain ⟨hdefined, hacyclic, hwell⟩ := hc.typed herr
  have hs := hc.sound
  constructor
  · refine Context.print_ok fun fn f hf => Context.printFun_ok hs.types hs.vars hf (hs.signatures fn f hf) ?_
    exact fun body hbody => (hwell fn f body hf hbody).2.within hs.types
  · exact fun g name => Target.generate_eq ⟨hs.types, hacyclic, hdefined⟩ hs.signatures hwell g name

/-- A module is lowered alike in both runs. -/
theorem lowerModule_jointly (cfg1 cfg2 : Settings) (hl : cfg1.maxErrors = cfg2.maxErrors) (m : Module)
    (journal1 journal2 : Log.Journal) :
    Jointly (lowerModule cfg1 m) { journal := journal1 } (lowerModule cfg2 m) { journal := journal2 }
      fun r s1 r' s2 => r = r' ∧ s1.diags = s2.diags ∧ s1.context.Twin s2.context := by
  have hlimits : Pairing.same.Limits cfg1 cfg2 := ⟨hl, .inr rfl⟩
  simp only [lowerModule, jointly_bind, note, Typing.note, jointly_onTyping, jointly_modify]
  intro _ s1 h1 _ s2 h2
  have htypes := (lowerTypes_jointly m.file m.types _ TypeTable.fresh_formed).result h1 h2
  have hbare := ((lowerTypes_ends (State.new_bare _) TypeTable.fresh_ne_named m.types).result h1).1
  refine Jointly.mono (declareFuns_jointly m.file m.funs (htypes.twins hbare)) ?_
  rintro declared s1' _ s2' ⟨rfl, htwins⟩
  refine Jointly.mono (lowerBodies_parallel hlimits declared htwins.like) fun _ s1'' _ s2'' hr => ?_
  obtain ⟨hon, -⟩ := hr
  have htwin : s1''.context.Twin s2''.context := ⟨hon.types, htwins.aliases.widens hon.left hon.right, hon.vars,
    hon.blocks, fun fn => hon.funs fn fn rfl⟩
  have hdiags := hon.like.diags_eq
  have herrors : s1''.errors = s2''.errors := by
    obtain ⟨n, hn1, hn2⟩ := hon.errors
    exact hn1.trans hn2.symm
  simp only [jointly_get, herrors, hdiags]
  split
  · exact (jointly_pure _ _).mpr ⟨rfl, hdiags, htwin⟩
  · exact (jointly_pure _ _).mpr ⟨rfl, hdiags, htwin⟩

/-- Two runs of one module under two logs have the same outcome, the same diagnostics and the same
text, printed and generated. There is text if the module was lowered. -/
theorem lowering_ignores_log (m : Module) (maxErrors : Nat) (dump₁ dump₂ : Bool) (log₁ log₂ : Log.Logger)
    (journal₁ journal₂ : Log.Journal) : ∃ r s₁ s₂,
      lowerModule { gate := log₁.gate, maxErrors, dumpGraph := dump₁ } m { journal := journal₁ } = .ok r s₁ ∧
      lowerModule { gate := log₂.gate, maxErrors, dumpGraph := dump₂ } m { journal := journal₂ } = .ok r s₂ ∧
      s₁.diags = s₂.diags ∧ s₁.print = s₂.print ∧
      (∀ (g : Target.Generator) (name : String), g.generate s₁.context name = g.generate s₂.context name) ∧
      ((∃ fns, r = .ok fns) → (∃ text, s₁.print = .ok text) ∧
        ∀ (g : Target.Generator) (name : String), ∃ text, g.generate s₁.context name = (.ok text, g)) := by
  let cfg₁ : Settings := { gate := log₁.gate, maxErrors, dumpGraph := dump₁ }
  let cfg₂ : Settings := { gate := log₂.gate, maxErrors, dumpGraph := dump₂ }
  obtain ⟨r, s₁, h₁, hcomplete, hr⟩ := lowerModule_ends cfg₁ m journal₁
  obtain ⟨r', s₂, h₂, -, -⟩ := lowerModule_ends cfg₂ m journal₂
  obtain ⟨rfl, hdiags, htwin⟩ := (lowerModule_jointly cfg₁ cfg₂ rfl m journal₁ journal₂).result h₁ h₂
  refine ⟨r, s₁, s₂, h₁, h₂, hdiags, htwin.print_eq, Target.generate_alike htwin, ?_⟩
  rintro ⟨fns, rfl⟩
  have herr : s₁.errors = 0 := by
    rcases hr with ⟨-, herr⟩ | ⟨hbad, -⟩
    · exact herr
    · cases hbad
  exact hcomplete.has_text herr

end Lowering

end BlockCompiler
