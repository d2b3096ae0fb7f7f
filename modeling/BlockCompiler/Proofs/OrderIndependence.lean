/-
  BlockCompiler.Proofs.OrderIndependence — declaration order does not matter.

  Every declaration of a module is looked at by itself, in a state that depends on the order of
  the others. What is reported of it does not, up to suggestions: it is what would be reported in
  one fixed state. So the reports on a module are a list over its declarations, and permuting
  these permutes the reports.

  (1) What a step of type checking comes to in a fixed table (`judged`).
  (2) Types: names stand for the same whatever the order, and the reports on each definition
      depend on that only (`lowerTypes_reports`).
  (3) Functions: each has the same signature (`declareFuns_reports`).
  (4) Bodies: each is compared with the same body lowered first of all (`lowerBodies_reports`).
  (5) Modules (`declaration_order_irrelevant`).
-/
import BlockCompiler.Proofs.AlikeBody
import BlockCompiler.Proofs.AlikeDecls

namespace BlockCompiler

open List (flatMap_cons flatMap_map map_cons map_map mem_map mem_map_of_mem)
open TypeTable (fresh_formed fresh_ne_named)
open Surface (TypeDef FunDecl Module)
open TypeTable (Formed Widens Alike Congruent SameNames SameAliases Sound Contains)
open Relation (TransGen)

variable {t t' : TypeTable} {d : FunDecl} {fn : FunId} {st : Typing} {defs : List TypeDef} {name : String} {s0 : State}
  {defs' types : List TypeDef} {sig : Signature} {t0 t1 : TypeTable} {funs : List FunDecl} {m : Module}

namespace Lowering

variable {cfg : Settings} {file : FileId} {s s' s'' : State}

/-! ## Reports -/

/-- These diagnostics were reported in between, up to suggestions. -/
def Reports (s s' : State) (ds : List Diagnostic) : Prop :=
  s'.diags.toList.map Diagnostic.withoutHelp = s.diags.toList.map Diagnostic.withoutHelp ++ ds

theorem Reports.trans {ds ds' : List Diagnostic} (h : Reports s s' ds) (h' : Reports s' s'' ds') :
    Reports s s'' (ds ++ ds') := by
  unfold Reports at *
  rw [h', h, List.append_assoc]

theorem Reports.of_eq (h : s'.diags = s.diags) : Reports s s' [] := by
  rw [Reports, h, List.append_nil]

theorem reports_reported (s : State) (cfg : Settings) (d : Diagnostic) : Reports s (s.reported cfg d) [d.withoutHelp] := by
  simp [Reports, State.reported]

/-! ## (1) Verdicts -/

section

variable {α : Type}

/-- What a step comes to in a table: its result, written out, or a diagnostic. -/
def judged (act : CheckM α) (view : TypeTable → α → Shape) (t : TypeTable) : Except Diagnostic Shape :=
  match act.run { types := t } with
  | .ok (.ok a) st => .ok (view st.types a)
  | .ok (.error e) _ => .error e.withoutHelp
  | .error _ _ => .ok .invalid

def refusals : Except Diagnostic Shape → List Diagnostic
  | .ok _ => []
  | .error e => [e]

/-- In every table that the step tallies with it comes to the same. -/
theorem answers_judged {act : CheckM α} (view : TypeTable → α → Shape) {Q : TypeTable → TypeTable → α → α → Prop}
    {P : α → Typing → Prop} {R : Diagnostic → Typing → Prop} (hends : Judges act { types := t } P R)
    (h : Tallies False act { types := t } act st Q) (hview : ∀ t1 t2 a b, Q t1 t2 a b → view t1 a = view t2 b) :
    Answers act st
      (fun b st' => st.types.Widens st'.types ∧ judged act view t = .ok (view st'.types b) ∧ ∃ t1 a, Q t1 st'.types a b)
      fun e st' => st.types.Widens st'.types ∧ judged act view t = .error e.withoutHelp := by
  obtain ⟨r, st1, hrun, -⟩ := hends
  intro r' st' hrun'
  have hr := h.result hrun hrun'
  unfold judged
  rw [hrun]
  cases hr with
  | ok hq => exact ⟨hq.1.2, congrArg Except.ok (hview _ _ _ _ hq.2), _, _, hq.2⟩
  | error hd => exact ⟨hd.1.2, congrArg Except.error hd.2.1⟩

end

/-! ## (2) Types -/

/-- What the names stand for once aliases are declared. -/
def announced (defs : List TypeDef) (names : String → Option Shape) : String → Option Shape :=
  defs.foldl (fun names d => Function.update names d.name (some .invalid)) names

/-- What a definition comes to. -/
def typeVerdict (t : TypeTable) (file : FileId) (d : TypeDef) : Except Diagnostic Shape :=
  judged ( Annotation.resolve file d.ty) TypeTable.shape t

/-- What the names stand for once one more alias is defined. -/
def meaning (t : TypeTable) (file : FileId) (names : String → Option Shape) (d : TypeDef) : String → Option Shape :=
  match typeVerdict t file d with
  | .ok τ => Function.update names d.name (some τ)
  | .error _ => names

theorem announced_perm (h : defs.Perm defs') (names : String → Option Shape) :
    announced defs names = announced defs' names := by
  refine h.foldl_eq' (fun x _ y _ names => ?_) names
  by_cases hxy : x.name = y.name
  · rw [hxy]
  · exact Function.update_comm hxy _ _ names

theorem meaning_perm (h : defs.Perm defs') (hnodup : (defs.map (·.name)).Nodup) (names : String → Option Shape) :
    defs.foldl (meaning t file) names = defs'.foldl (meaning t file) names := by
  refine h.foldl_eq' (fun x hx y hy names => ?_) names
  by_cases hxy : x = y
  · rw [hxy]
  · -- two definitions write to two names, and neither is judged by what the other wrote
    have hname : x.name ≠ y.name := fun heq => hxy (List.inj_on_of_nodup_map hnodup hx hy heq)
    unfold meaning
    split <;> split
    · exact Function.update_comm hname _ _ names
    · rfl
    · rfl
    · rfl

/-- The declared handles are aliases of the names of their definitions. -/
def Denotes (t : TypeTable) (declared : List (TypeId × TypeDef)) : Prop :=
  ∀ p ∈ declared, ∃ u, t.get? p.1 = some (.named p.2.name u)

theorem declareTypes_reports (file : FileId) : ∀ (defs : List TypeDef) {s : State}, s.types.Formed →
    (defs.map (·.name)).Nodup → (∀ d ∈ defs, s.types.alias? d.name = none) →
    Whenever (declareTypes cfg file defs) s fun declared s' => declared.map (·.2) = defs ∧ Reports s s' [] ∧
      s'.types.Formed ∧ s'.types.alias? = announced defs s.types.alias? ∧
      TypeTable.Grows s.types s'.types ∧ Denotes s'.types declared
  | [], s, hf, _, _ => (whenever_pure _).mpr ⟨rfl, .of_eq rfl, hf, rfl, .refl _, by simp [Denotes]⟩
  | d :: rest, s, hf, hnodup, hfree => by
    obtain ⟨hd, hrest⟩ := List.nodup_cons.mp hnodup
    have hnone : s.types.findAlias? d.name = none := by
      have hsome := hf.isSome_findAlias? d.name
      rw [hfree d List.mem_cons_self] at hsome
      simpa using hsome
    simp only [declareTypes, whenever_bind, whenever_get, hnone]
    refine declareAlias_whenever hnone fun journal => ?_
    have halias := TypeTable.alias?_push hf hnone
    refine (declareTypes_reports file rest (hf.push_alias hnone) hrest fun d' hd' => ?_).mono fun declared s' h => ?_
    · have hne : d'.name ≠ d.name := fun heq => hd (mem_map.mpr ⟨d', hd', heq⟩)
      rw [State.withTyping, halias, Function.update_of_ne hne]
      exact hfree d' (.tail _ hd')
    · obtain ⟨hdeclared, hreports, hf', halias', hgrows, hdenotes⟩ := h
      rw [whenever_pure]
      refine ⟨by rw [map_cons, hdeclared], hreports, hf', ?_, (TypeTable.grows_push _ _).trans hgrows, fun p hp => ?_⟩
      · rw [halias', State.withTyping, halias]
        rfl
      · rcases List.mem_cons.mp hp with rfl | hp
        · exact ⟨.invalid, hgrows _ _ (by rw [State.withTyping, TypeTable.get?_push, if_pos rfl])⟩
        · exact hdenotes p hp

theorem Denotes.sameAliases (h : t.SameAliases t') {declared : List (TypeId × TypeDef)} (hd : Denotes t declared) :
    Denotes t' declared := fun p hp => (h p.1 p.2.name).mp (hd p hp)

/-- Defining aliases declares none. -/
theorem sameNames_of_sameAliases (hf : t.Formed) (hf' : t'.Formed) (h : t.SameAliases t') : t.SameNames t' := by
  intro name
  rw [Bool.eq_iff_iff, Option.isSome_iff_exists, Option.isSome_iff_exists]
  simp only [hf.alias?_eq_some, hf'.alias?_eq_some]
  constructor
  · rintro ⟨_, id, u, hid, -⟩
    obtain ⟨v, hv⟩ := (h id name).mp ⟨u, hid⟩
    exact ⟨_, id, v, hv, rfl⟩
  · rintro ⟨_, id, u, hid, -⟩
    obtain ⟨v, hv⟩ := (h id name).mpr ⟨u, hid⟩
    exact ⟨_, id, v, hv, rfl⟩

/-- A definition, compared with the same definition in a table of the same names. -/
theorem resolve_answers (hs : t.Sound) (hf : t.Formed) (hf' : st.types.Formed) (hn : t.SameNames st.types)
    (file : FileId) (d : TypeDef) :
    Answers ( Annotation.resolve file d.ty) st
      (fun u st' => st.types.Widens st'.types ∧ typeVerdict t file d = .ok (st'.types.shape u) ∧ u.index < st'.types.size)
      fun e st' => st.types.Widens st'.types ∧ typeVerdict t file d = .error e.withoutHelp := by
  have htallies : Tallies False ( Annotation.resolve file d.ty) { types := t } ( Annotation.resolve file d.ty) st Alike :=
    Annotation.resolve_tallies file d.ty hf hf' hn
  have hends := Annotation.resolve_judges file d.ty (show TypeTable.Sound ({ types := t } : Typing).types from hs)
  have hjudged := answers_judged TypeTable.shape hends htallies fun _ _ _ _ => Alike.shape_eq
  refine hjudged.mono (fun u st' h => ?_) fun _ _ h => h
  obtain ⟨hw, hverdict, t1, a, halike⟩ := h
  exact ⟨hw, hverdict, halike.right_lt⟩

theorem defineTypes_reports {t : TypeTable} (hs : t.Sound) (hf0 : t.Formed) (file : FileId) :
    ∀ (declared : List (TypeId × TypeDef)) {s : State}, s.types.Formed → t.SameNames s.types →
    Denotes s.types declared → Whenever (defineTypes cfg file declared) s fun _ s' =>
      Reports s s' (declared.flatMap fun p => refusals (typeVerdict t file p.2)) ∧ s'.types.Formed ∧
      s'.types.alias? = (declared.map (·.2)).foldl (meaning t file) s.types.alias? ∧
      s.types.SameAliases s'.types
  | [], s, hf, _, _ => (whenever_pure _).mpr ⟨.of_eq rfl, hf, rfl, fun _ _ => Iff.rfl⟩
  | (id, d) :: rest, s, hf, hn, hd => by
    simp only [defineTypes, resolveType, whenever_bind, whenever_checking]
    refine (resolve_answers hs hf0 hf hn file d).mono (fun u st h => ?_) fun e st h => ?_
    · -- the table has grown, and its aliases stand for more, but which names are declared is as in `t`
      obtain ⟨w, hverdict, hu⟩ := h
      obtain ⟨v, hv⟩ := hd (id, d) (.head _)
      simp only [whenever_onTyping, Typing.defineAlias, whenever_bind, whenever_typingAsk, whenever_modify]
      intro t' ht'
      have hf' := w.formed.defineAlias hu ht'
      obtain ⟨name, hid, -, hget⟩ := TypeTable.get?_of_defineAlias ht'
      have haliases := w.sameAliases.trans (SameAliases.define hid hget)
      have halias := TypeTable.alias?_defineAlias w.formed ht' hu (w.grows _ _ hv)
      have hn' := sameNames_of_sameAliases hf hf' haliases
      refine (defineTypes_reports hs hf0 file rest hf' (fun name => (hn name).trans (hn' name))
        (Denotes.sameAliases haliases fun p hp => hd p (.tail _ hp))).mono fun _ s' h => ?_
      obtain ⟨hreports, hf'', halias', haliases'⟩ := h
      refine ⟨?_, hf'', ?_, haliases.trans haliases'⟩
      · rw [flatMap_cons, hverdict]
        exact hreports
      · rw [halias', map_cons, List.foldl_cons, meaning, hverdict]
        refine congrArg (List.foldl _ · _) (halias.trans ?_)
        rw [w.alias?_eq]
        rfl
    · obtain ⟨w, hverdict⟩ := h
      simp only [whenever_report]
      refine (defineTypes_reports hs hf0 file rest (s := (s.withTyping st).reported cfg e) w.formed (hn.widens (.refl hf0) w)
        (Denotes.sameAliases w.sameAliases fun p hp => hd p (.tail _ hp))).mono fun _ s' h => ?_
      obtain ⟨hreports, hf'', halias', haliases'⟩ := h
      refine ⟨?_, hf'', ?_, w.sameAliases.trans haliases'⟩
      · rw [flatMap_cons, hverdict]
        exact (reports_reported (s.withTyping st) cfg e).trans hreports
      · rw [halias', map_cons, List.foldl_cons, meaning, hverdict]
        exact congrArg (List.foldl _ · _) w.alias?_eq

/-- The alias of this name contains itself. -/
def Loops (t : TypeTable) (name : String) : Prop :=
  ∃ id u, t.get? id = some (.named name u) ∧ TransGen (Contains t) id id

theorem Loops.congruent (hc : t.Congruent t') (h : Loops t name) : Loops t' name := by
  obtain ⟨id, u, hid, hcycle⟩ := h
  obtain ⟨id', v, hid', -⟩ := hc.right.alias?_eq_some.mp
    (hc.alias?_eq ▸ hc.left.alias?_eq_some.mpr ⟨id, u, hid, rfl⟩ : t'.alias? name = some (t.shape u))
  exact ⟨id', v, hid', hc.cyclic (.of_like hc.left hc.right hid hid' (.named name u v)) hcycle⟩

open Classical in
/-- What is reported of a definition once all are known. -/
noncomputable def cycleReport (t : TypeTable) (file : FileId) (d : TypeDef) : List Diagnostic :=
  if Loops t d.name then [(cyclicType file d).withoutHelp] else []

theorem cycleReport_congruent (hc : t.Congruent t') (file : FileId) (d : TypeDef) :
    cycleReport t file d = cycleReport t' file d := by
  have hiff : Loops t d.name ↔ Loops t' d.name := ⟨.congruent hc, .congruent hc.symm⟩
  unfold cycleReport
  by_cases h : Loops t d.name
  · rw [if_pos h, if_pos (hiff.mp h)]
  · rw [if_neg h, if_neg (mt hiff.mpr h)]

theorem loops_iff (hf : t.Formed) {id u : TypeId} (hid : t.get? id = some (.named name u)) {x : Bool}
    (hx : t.isCyclic id = .ok x) : Loops t name ↔ x = true := by
  constructor
  · rintro ⟨id', v, hid', hcycle⟩
    obtain rfl := hf.single id id' _ _ hid hid' rfl
    cases x with
    | true => rfl
    | false => exact absurd hcycle (TypeTable.not_contains_of_isCyclic_false hid hx)
  · rintro rfl
    exact ⟨id, u, hid, TypeTable.contains_of_isCyclic_true hid hx⟩

theorem rejectCycles_reports (file : FileId) : ∀ (declared : List (TypeId × TypeDef)) {s : State},
    s.types.Formed → Denotes s.types declared → Whenever (rejectCycles cfg file declared) s fun _ s' =>
      s'.types = s.types ∧
      Reports s s' (declared.flatMap fun p => cycleReport s.types file p.2)
  | [], s, _, _ => (whenever_pure _).mpr ⟨rfl, .of_eq rfl⟩
  | (id, d) :: rest, s, hf, hd => by
    have hrest : Denotes s.types rest := fun p hp => hd p (.tail _ hp)
    obtain ⟨u, hid⟩ := hd (id, d) (.head _)
    simp only [rejectCycles, whenever_bind, whenever_ask]
    intro x hx
    have hloops := loops_iff hf hid hx
    cases x with
    | true =>
      have hreport : cycleReport s.types file d = [(cyclicType file d).withoutHelp] := if_pos (hloops.mpr rfl)
      simp only [if_true, whenever_bind, whenever_report]
      refine (rejectCycles_reports file rest (s := s.reported cfg _) hf hrest).mono fun _ s' h => ⟨h.1, ?_⟩
      rw [flatMap_cons, hreport]
      exact (reports_reported s cfg _).trans h.2
    | false =>
      have hreport : cycleReport s.types file d = [] := if_neg fun h => by cases hloops.mp h
      refine (rejectCycles_reports file rest hf hrest).mono fun _ s' h => ⟨h.1, ?_⟩
      rw [flatMap_cons, hreport]
      exact h.2

theorem alias?_fresh (name : String) : TypeTable.fresh.alias? name = none := by
  refine Option.eq_none_iff_forall_ne_some.mpr fun τ hτ => ?_
  obtain ⟨id, u, hid, -⟩ := fresh_formed.alias?_eq_some.mp hτ
  exact fresh_ne_named id name u hid

/-- What is reported of the types of a module. Definitions are judged in the table `t`, in which
their names are declared. -/
theorem lowerTypes_reports (hs : t.Sound) (hf0 : t.Formed) (file : FileId)
    (h0 : t.alias? = announced defs TypeTable.fresh.alias?) (hnodup : (defs.map (·.name)).Nodup)
    (hf : s.types = .fresh) : Whenever (lowerTypes cfg file defs) s fun _ s' => s'.types.Formed ∧
      s'.types.alias? = defs.foldl (meaning t file) t.alias? ∧
      Reports s s' ((defs.flatMap fun d => refusals (typeVerdict t file d)) ++
        defs.flatMap (cycleReport s'.types file)) := by
  have hformed : s.types.Formed := hf ▸ fresh_formed
  have hfree : ∀ d ∈ defs, s.types.alias? d.name = none := fun d _ => hf ▸ alias?_fresh d.name
  simp only [lowerTypes, whenever_bind]
  refine (declareTypes_reports file defs hformed hnodup hfree).mono fun declared s1 h1 => ?_
  obtain ⟨hdeclared, hreports1, hf1, halias1, -, hdenotes1⟩ := h1
  have halias : t.alias? = s1.types.alias? := by rw [h0, halias1, hf]
  refine (defineTypes_reports hs hf0 file declared hf1 (Congruent.sameNames ⟨hf0, hf1, halias⟩) hdenotes1).mono
    fun _ s2 h2 => ?_
  obtain ⟨hreports2, hf2, halias2, haliases2⟩ := h2
  refine (rejectCycles_reports file declared hf2 (hdenotes1.sameAliases haliases2)).mono fun _ s3 h3 => ?_
  obtain ⟨htypes, hreports3⟩ := h3
  rw [htypes]
  refine ⟨hf2, by rw [halias2, hdeclared, halias], ?_⟩
  have hreports := (hreports1.trans hreports2).trans hreports3
  rw [← hdeclared, flatMap_map, flatMap_map]
  exact hreports

/-! ## (3) Functions -/

/-- A signature, written out. -/
def signatureShape (t : TypeTable) (sig : Signature) : Shape := (Ty.func sig).shapeBy t.shape

def signatureVerdict (t : TypeTable) (file : FileId) (d : FunDecl) : Except Diagnostic Shape :=
  judged (resolveSignature file d) signatureShape t

/-- Whether the signature of a declaration is accepted. -/
def accepted (t : TypeTable) (file : FileId) (d : FunDecl) : Bool := (refusals (signatureVerdict t file d)).isEmpty

/-- The types of a signature are issued. -/
def Signature.Issued (t : TypeTable) (sig : Signature) : Prop := ∀ m ∈ (Ty.func sig).mentions, m.index < t.size

/-- The functions of the state are those of the declarations, up to their bodies. -/
structure Enlists (t : TypeTable) (file : FileId) (s : State) (declared : List (FunId × FunDecl)) : Prop where
  functions : s.functions = declared.map fun p => (p.2.name, p.1)
  heads : ∀ p ∈ declared, ∃ f, s.funs.get? p.1 = some f ∧ { f with body := none } = headOf file p.2 f.signature ∧
    Signature.Issued s.types f.signature ∧
    signatureVerdict t file p.2 = .ok (signatureShape s.types f.signature)

variable {t : TypeTable} {declared : List (FunId × FunDecl)}

/-- Declarations are kept by what changes no function but its body. -/
theorem Enlists.after (h : Enlists t file s declared) (w : s.types.Widens s'.types)
    (hfunctions : s'.functions = s.functions) (hfuns : ∀ fn g, s.funs.get? fn = some g →
      ∃ g', s'.funs.get? fn = some g' ∧ { g' with body := none } = { g with body := none }) :
    Enlists t file s' declared := by
  refine ⟨hfunctions.trans h.functions, fun p hp => ?_⟩
  obtain ⟨f, hf, hhead, hissued, hverdict⟩ := h.heads p hp
  obtain ⟨g, hg, hsame⟩ := hfuns _ f hf
  have hsig : g.signature = f.signature := by
    simp only [Function.mk.injEq] at hsame
    exact hsame.2.1
  refine ⟨g, hg, by rw [hsame, hsig, hhead], ?_, ?_⟩
  · rw [hsig]
    exact fun m hm => w.lt (hissued m hm)
  · rw [hverdict, hsig]
    exact congrArg _ (Ty.shapeBy_congr fun _ m hm => w.shape_eq (hissued m hm)).symm

theorem Enlists.withTyping (h : Enlists t file s declared) (w : s.types.Widens st.types) :
    Enlists t file (s.withTyping st) declared := h.after w rfl fun _ g hg => ⟨g, hg, rfl⟩

theorem Enlists.addFun (h : Enlists t file s declared) (hissued : Signature.Issued s.types sig)
    (hverdict : signatureVerdict t file d = .ok (signatureShape s.types sig)) :
    Enlists t file (s.addFun (headOf file d sig)) (declared ++ [(s.funs.next, d)]) := by
  refine ⟨?_, fun p hp => ?_⟩
  · rw [List.map_append, ← h.functions]
    rfl
  · rcases List.mem_append.mp hp with hp | hp
    · obtain ⟨f, hf, hrest⟩ := h.heads p hp
      exact ⟨f, State.get?_addFun hf, hrest⟩
    · rw [List.mem_singleton.mp hp]
      exact ⟨headOf file d sig, Arena.get?_insert_next _ _, rfl, hissued, hverdict⟩

theorem declareFun_answers (hs : t.Sound) (hf0 : t.Formed) (hf : s.types.Formed)
    (hn : t.SameNames s.types) (d : FunDecl) (hfree : s.functions.lookup d.name = none)
    (henlists : Enlists t file s declared) :
    Answers (declareFun cfg file d) s
      (fun fn s' => s.types.Widens s'.types ∧ Reports s s' [] ∧ s'.scopes = s.scopes ∧
        accepted t file d = true ∧ refusals (signatureVerdict t file d) = [] ∧ Enlists t file s' (declared ++ [(fn, d)]))
      fun e s' => s.types.Widens s'.types ∧ Reports s s' [] ∧ s'.scopes = s.scopes ∧
        accepted t file d = false ∧ refusals (signatureVerdict t file d) = [e.withoutHelp] ∧ Enlists t file s' declared := by
  have htallies : Tallies False (resolveSignature file d) { types := t } (resolveSignature file d) s.typing _ :=
    resolveSignature_tallies file d hf0 hf hn
  have hends := resolveSignature_judges (show TypeTable.Sound ({ types := t } : Typing).types from hs) file d
  have hjudged := answers_judged signatureShape hends htallies fun t1 t2 a b hab =>
    (Ty.Like.func hab).shapeBy_eq fun _ _ => Alike.shape_eq
  rw [declareFun, answers_bind, answers_get, hfree]
  dsimp only
  rw [answers_bind, answers_checked]
  refine hjudged.mono (fun sig st h => ?_) fun e st h => ?_
  · obtain ⟨w, hverdict, t1, a, hlike⟩ := h
    have hissued : Signature.Issued st.types sig :=
      forall₂_right ((Ty.Like.func hlike).mentions rfl) fun _ _ => Alike.right_lt
    have hadd := addFun_answers cfg (headOf file d sig) (s := s.withTyping st) w.formed hissued
    refine hadd.mono (fun fn s' h => ?_) fun _ _ h => h.elim
    obtain ⟨rfl, heq, w'⟩ := h
    have hrefusals : refusals (signatureVerdict t file d) = [] := by
      rw [signatureVerdict, hverdict]
      rfl
    have hnew := (henlists.withTyping w).addFun hissued hverdict
    refine ⟨w.trans w', ?_, ?_, by rw [accepted, hrefusals]; rfl, hrefusals, ?_⟩
    · rw [heq]
      exact .of_eq rfl
    · rw [heq]
      rfl
    · rw [heq]
      exact hnew.withTyping w'
  · obtain ⟨w, hverdict⟩ := h
    have hrefusals : refusals (signatureVerdict t file d) = [e.withoutHelp] := by
      rw [signatureVerdict, hverdict]
      rfl
    exact ⟨w, .of_eq rfl, rfl, by rw [accepted, hrefusals]; rfl, hrefusals, henlists.withTyping w⟩

theorem Enlists.lookup_isSome (h : Enlists t file s declared) (name : String) :
    (s.functions.lookup name).isSome ↔ name ∈ declared.map (·.2.name) := by
  rw [h.functions, List.lookup_isSome_iff]
  constructor
  · rintro ⟨x, hx, heq⟩
    obtain ⟨p, hp, rfl⟩ := mem_map.mp hx
    exact mem_map.mpr ⟨p, hp, (eq_of_beq heq).symm⟩
  · intro hmem
    obtain ⟨p, hp, rfl⟩ := mem_map.mp hmem
    exact ⟨_, mem_map_of_mem hp, beq_self_eq_true _⟩

/-- What is reported of the signatures of a module. -/
theorem declareFuns_reports (hs : t.Sound) (hf0 : t.Formed) : ∀ (decls : List FunDecl) {s : State}
    {declared : List (FunId × FunDecl)}, s.types.Formed → t.SameNames s.types →
    Enlists t file s declared → (declared.map (·.2.name) ++ decls.map (·.name)).Nodup →
    Whenever (declareFuns cfg file decls) s fun more s' => more.map (·.2) = decls.filter (accepted t file) ∧
      Reports s s' (decls.flatMap fun d => refusals (signatureVerdict t file d)) ∧
      s.types.Widens s'.types ∧ s'.scopes = s.scopes ∧ Enlists t file s' (declared ++ more)
  | [], s, declared, hf, _, he, _ => (whenever_pure _).mpr ⟨rfl, .of_eq rfl, .refl hf, rfl, by simpa using he⟩
  | d :: rest, s, declared, hf, hn, he, hnodup => by
    have hfree : s.functions.lookup d.name = none := by
      have hnot : d.name ∉ declared.map (·.2.name) := fun hmem =>
        List.disjoint_of_nodup_append hnodup hmem (.head _)
      rw [← he.lookup_isSome] at hnot
      exact Option.not_isSome_iff_eq_none.mp hnot
    simp only [declareFuns, whenever_bind]
    refine Whenever.mono (declareFun_answers hs hf0 hf hn d hfree he) fun r s1 h1 => ?_
    cases r with
    | ok fn =>
      obtain ⟨w, hreports, hscopes, haccepted, hrefusals, he1⟩ := h1
      have hnodup1 : ((declared ++ [(fn, d)]).map (·.2.name) ++ rest.map (·.name)).Nodup := by simpa using hnodup
      simp only [whenever_bind, whenever_pure]
      refine (declareFuns_reports hs hf0 rest w.formed (hn.widens (.refl hf0) w) he1 hnodup1).mono fun more s2 h2 => ?_
      obtain ⟨hmore, hreports2, w2, hscopes2, he2⟩ := h2
      refine ⟨?_, ?_, w.trans w2, hscopes2.trans hscopes, by simpa using he2⟩
      · rw [map_cons, hmore, List.filter_cons_of_pos haccepted]
      · rw [flatMap_cons, hrefusals]
        exact hreports.trans hreports2
    | error e =>
      obtain ⟨w, hreports, hscopes, haccepted, hrefusals, he1⟩ := h1
      have hnodup1 : (declared.map (·.2.name) ++ rest.map (·.name)).Nodup :=
        hnodup.sublist ((List.Sublist.refl _).append (List.sublist_cons_self _ _))
      simp only [whenever_bind, whenever_report]
      refine (declareFuns_reports hs hf0 rest (s := s1.reported cfg e) w.formed (hn.widens (.refl hf0) w)
        ⟨he1.functions, he1.heads⟩ hnodup1).mono fun more s2 h2 => ?_
      obtain ⟨hmore, hreports2, w2, hscopes2, he2⟩ := h2
      refine ⟨?_, ?_, w.trans w2, hscopes2.trans hscopes, he2⟩
      · rw [hmore, List.filter_cons_of_neg (by simp [haccepted])]
      · rw [flatMap_cons, hrefusals]
        exact (hreports.trans (reports_reported s1 cfg e)).trans hreports2

/-! ## (4) Bodies -/

/-- Functions correspond by their names; variables and blocks count from now on. -/
def Pairing.byName (s₀ s : State) : Pairing where
  exact := False
  funs f g := ∃ name, s₀.functions.lookup name = some f ∧ s.functions.lookup name = some g
  var₁ := s₀.vars.size
  var₂ := s.vars.size
  block₁ := s₀.blocks.size
  block₂ := s.blocks.size
  diags₁ := s₀.diags.toList
  diags₂ := s.diags.toList
  errors₁ := s₀.errors
  errors₂ := s.errors
  strict h := h.elim

theorem Enlists.exists_of_lookup (h : Enlists t file s declared) (hl : s.functions.lookup name = some fn) :
    ∃ d, (fn, d) ∈ declared ∧ d.name = name := by
  have hmem := State.mem_of_lookup hl
  rw [h.functions] at hmem
  obtain ⟨⟨_, d⟩, hp, heq⟩ := mem_map.mp hmem
  cases heq
  exact ⟨d, hp, rfl⟩

/-- Functions of one declaration are declared alike. -/
theorem function_like {p : Pairing} (hexact : ¬ p.exact) {f g : Function}
    (hhead : { f with body := none } = headOf file d f.signature)
    (hhead' : { g with body := none } = headOf file d g.signature)
    (hissued : Signature.Issued s0.types f.signature) (hissued' : Signature.Issued s.types g.signature)
    (h : signatureShape s0.types f.signature = signatureShape s.types g.signature) :
    f.Like (s0.types.Alike s.types) p g := by
  have hlike : (Ty.func f.signature).Like (s0.types.Alike s.types) (.func g.signature) :=
    Ty.like_of_shapeBy h fun _ a ha b hb => .of_shape_eq (hissued a ha) (hissued' b hb)
  have hsig : f.signature.Like (s0.types.Alike s.types) g.signature := by
    cases hlike with
    | func hsig => exact hsig
  simp only [headOf, Function.mk.injEq] at hhead hhead'
  obtain ⟨hname, -, hfile, hspan, -, hflags⟩ := hhead
  obtain ⟨hname', -, hfile', hspan', -, hflags'⟩ := hhead'
  exact ⟨hname.trans hname'.symm, hsig, hfile.trans hfile'.symm, hspan.trans hspan'.symm, hflags.trans hflags'.symm,
    fun h => (hexact h).elim⟩

theorem names_perm {l l' : List (FunId × FunDecl)} (h : (l.map (·.2)).Perm (l'.map (·.2))) :
    (l.map (·.2.name)).Perm (l'.map (·.2.name)) := by
  simpa [map_map, Function.comp_def] using h.map FunDecl.name

/-- A state between two bodies, beside the one before all bodies. -/
structure Beside (t : TypeTable) (file : FileId) (s₀ s : State) (declared : List (FunId × FunDecl)) : Prop where
  complete : s.Complete
  types : s₀.types.Congruent s.types
  enlists : Enlists t file s declared

theorem not_atLimit (hmax : cfg.maxErrors = 0) (s : State) : ¬ s.AtLimit cfg := fun h => h.1 hmax

/-- A body changes no other function, and no name. -/
theorem lowerFunBody_frame (hc : s.Complete) (hmax : cfg.maxErrors = 0) {f : Function}
    (hf : s.funs.get? fn = some f) (body : List Surface.Stmt) :
    Whenever (lowerFunBody cfg fn body) s fun _ s' => s'.Complete ∧ s'.functions = s.functions ∧
      ∀ fn' g, s.funs.get? fn' = some g →
        ∃ g', s'.funs.get? fn' = some g' ∧ { g' with body := none } = { g with body := none } := by
  intro _ s'' hrun
  obtain ⟨last, s1, s', hbody, journal, rfl⟩ := (lowerFunBody_runs hc.sound hf (not_atLimit hmax s) body).result hrun
  have hext := Effects.extends (hbody.effects hc.sound hf) (hc.sound.begun hf)
  refine ⟨(hbody.complete hc hf (not_atLimit hmax s)).journal journal, hext.functions, fun fn' g hg => ?_⟩
  have hget : s'.funs.get? fn' = (s.begun fn f).funs.get? fn' := by rw [hext.funs]
  rw [State.get?_begun hf] at hget
  split at hget
  · rename_i heq
    rw [heq, hf] at hg
    cases hg
    exact ⟨_, hget, rfl⟩
  · exact ⟨g, hget.trans hg, rfl⟩

/-- What is reported of the body of a declaration in the state before all bodies. -/
def bodyReport (cfg : Settings) (s₀ : State) (d : FunDecl) : List Diagnostic :=
  match d.body, s₀.functions.lookup d.name with
  | some body, some fn =>
    match lowerFunBody cfg fn body s₀ with
    | .ok _ s' => (s'.diags.toList.drop s₀.diags.toList.length).map Diagnostic.withoutHelp
    | .error _ _ => []
  | _, _ => []

/-- Of two declarations of one name only one is in the list. -/
theorem Enlists.lookup_eq (h : Enlists t file s declared) (hnames : (declared.map (·.2.name)).Nodup)
    (hmem : (fn, d) ∈ declared) : s.functions.lookup d.name = some fn := by
  obtain ⟨fn', hfn'⟩ := Option.isSome_iff_exists.mp ((h.lookup_isSome d.name).mpr (mem_map_of_mem hmem))
  obtain ⟨d', hmem', hname⟩ := h.exists_of_lookup hfn'
  have heq : ((fn', d') : FunId × FunDecl) = (fn, d) := List.inj_on_of_nodup_map hnames hmem' hmem hname
  cases heq
  exact hfn'

section

variable {s0 : State} {declared0 : List (FunId × FunDecl)} (h0 : Beside t file s0 s0 declared0)
  (hnames : (declared0.map (·.2.name)).Nodup) (hperm : (declared.map (·.2)).Perm (declared0.map (·.2)))
include h0 hnames hperm

theorem Beside.like (h : Beside t file s0 s declared) : s0.Like (Pairing.byName s0 s) s := by
  refine ⟨h.types, .start _ _, .start _ _, ?_, fun name => ?_, fun hexact => hexact.elim, ?_,
    ⟨[], [], by simp [Pairing.byName], by simp [Pairing.byName], .nil⟩, ⟨0, rfl, rfl⟩⟩
  · rintro f g ⟨name, hf, hg⟩
    obtain ⟨d, hd, hname⟩ := h0.enlists.exists_of_lookup hf
    obtain ⟨d', hd', hname'⟩ := h.enlists.exists_of_lookup hg
    -- there is one declaration of that name
    have hmem : d' ∈ declared0.map (·.2) := hperm.mem_iff.mp (mem_map_of_mem hd')
    have hnodup : ((declared0.map (·.2)).map (·.name)).Nodup := by simpa [map_map, Function.comp_def] using hnames
    obtain rfl : d = d' := List.inj_on_of_nodup_map hnodup (mem_map_of_mem hd) hmem (hname.trans hname'.symm)
    obtain ⟨x, hx, hhead, hissued, hverdict⟩ := h0.enlists.heads _ hd
    obtain ⟨y, hy, hhead', hissued', hverdict'⟩ := h.enlists.heads _ hd'
    rw [hx, hy]
    exact .some (function_like id hhead hhead' hissued hissued' (Except.ok.inj (hverdict.symm.trans hverdict')))
  · have hiff : (s0.functions.lookup name).isSome ↔ (s.functions.lookup name).isSome := by
      rw [h0.enlists.lookup_isSome, h.enlists.lookup_isSome, (names_perm hperm).mem_iff]
    cases hx : s0.functions.lookup name with
    | none =>
      cases hy : s.functions.lookup name with
      | none => exact .none
      | some g => simp [hx, hy] at hiff
    | some f =>
      cases hy : s.functions.lookup name with
      | none => simp [hx, hy] at hiff
      | some g => exact .some ⟨name, hx, hy⟩
  · rw [h0.complete.scopes, h.complete.scopes]
    exact .nil

variable (hmax : cfg.maxErrors = 0)
include hmax

theorem lowerFunBody_reports (h : Beside t file s0 s declared) (hmem : (fn, d) ∈ declared) {body : List Surface.Stmt}
    (hbody : d.body = some body) :
    Whenever (lowerFunBody cfg fn body) s fun _ s' =>
      Beside t file s0 s' declared ∧ Reports s s' (bodyReport cfg s0 d) := by
  intro _ s' hrun
  have hlike := h0.like hnames hperm h
  have hlookup := h.enlists.lookup_eq ((names_perm hperm).nodup_iff.mpr hnames) hmem
  -- the same body, before all bodies
  obtain ⟨⟨fn0, d0⟩, hmem0, heq⟩ := mem_map.mp (hperm.mem_iff.mp (mem_map_of_mem hmem))
  obtain rfl : d0 = d := heq
  have hlookup0 := h0.enlists.lookup_eq hnames hmem0
  obtain ⟨f0, hf0, -⟩ := h0.enlists.heads _ hmem0
  obtain ⟨_, s0', hrun0, -⟩ := lowerFunBody_runs h0.complete.sound hf0 (not_atLimit hmax s0) body
  have hlimits : (Pairing.byName s0 s).Limits cfg cfg := ⟨rfl, .inl hmax⟩
  obtain ⟨hon, -⟩ := (lowerFunBody_parallel hlimits hlike ⟨d0.name, hlookup0, hlookup⟩ body).result hrun0 hrun
  obtain ⟨f, hf, -⟩ := h.enlists.heads _ hmem
  obtain ⟨hcomplete, hfunctions, hfuns⟩ := lowerFunBody_frame h.complete hmax hf body _ _ hrun
  refine ⟨⟨hcomplete, h.types.widens (.refl h.types.left) hon.right, h.enlists.after hon.right hfunctions hfuns⟩, ?_⟩
  obtain ⟨ds, ds', hds, hds', hforall⟩ := hon.diags
  have hmap := map_eq_of_forall₂ (f := Diagnostic.withoutHelp) (g := Diagnostic.withoutHelp) hforall fun _ _ hd => hd.1
  have hreport : bodyReport cfg s0 d0 = ds.map Diagnostic.withoutHelp := by
    simp only [bodyReport, hbody, hlookup0, hrun0, hds, Pairing.byName, List.drop_left]
  rw [Reports, hds', List.map_append, hreport, hmap]
  rfl

/-- What is reported of the bodies of a module. -/
theorem lowerBodies_reports : ∀ (rest : List (FunId × FunDecl)) {s : State}, rest ⊆ declared → Beside t file s0 s declared →
    Whenever (lowerBodies cfg rest) s fun _ s' => Reports s s' (rest.flatMap fun p => bodyReport cfg s0 p.2)
  | [], s, _, _ => (whenever_pure _).mpr (.of_eq rfl)
  | (fn, d) :: rest, s, hsub, h => by
    obtain ⟨hmem, hrest⟩ := List.cons_subset.mp hsub
    simp only [lowerBodies, whenever_bind, whenever_limitReached, not_atLimit hmax s, decide_false,
      Bool.false_eq_true, if_false]
    cases hbody : d.body with
    | none =>
      have hreport : bodyReport cfg s0 d = [] := by simp only [bodyReport, hbody]
      rw [flatMap_cons, hreport]
      exact lowerBodies_reports rest hrest h
    | some body =>
      simp only [whenever_bind]
      refine (lowerFunBody_reports h0 hnames hperm hmax h hmem hbody).mono fun _ s1 h1 => ?_
      refine (lowerBodies_reports rest hrest h1.1).mono fun _ s2 h2 => ?_
      exact h1.2.trans h2

end

/-! ## (5) Modules -/

/-- The stages of one run on a module, in which the declarations are judged in every other run:
`t₀` with all aliases declared, `t₁` with all of them defined, `s₀` with all functions declared. -/
structure Reference (m : Module) (t₀ t₁ : TypeTable) (s₀ : State) (declared : List (FunId × FunDecl)) : Prop where
  sound₀ : t₀.Sound
  formed₀ : t₀.Formed
  alias₀ : t₀.alias? = announced m.types TypeTable.fresh.alias?
  sound₁ : t₁.Sound
  formed₁ : t₁.Formed
  alias₁ : t₁.alias? = m.types.foldl (meaning t₀ m.file) t₀.alias?
  widens : t₁.Widens s₀.types
  beside : Beside t₁ m.file s₀ s₀ declared
  declared : declared.map (·.2) = m.funs.filter (accepted t₁ m.file)

/-- All that is reported on declarations, judged by a reference. -/
noncomputable def verdicts (cfg : Settings) (file : FileId) (t₀ t₁ : TypeTable) (s₀ : State) (types : List TypeDef)
    (funs : List FunDecl) : List Diagnostic :=
  (types.flatMap fun d => refusals (typeVerdict t₀ file d)) ++ types.flatMap (cycleReport t₁ file) ++
    (funs.flatMap fun d => refusals (signatureVerdict t₁ file d)) ++
    (funs.filter (accepted t₁ file)).flatMap (bodyReport cfg s₀)

theorem verdicts_perm {types' : List TypeDef} {funs' : List FunDecl} (htypes : types.Perm types')
    (hfuns : funs.Perm funs') :
    (verdicts cfg file t0 t1 s0 types funs).Perm (verdicts cfg file t0 t1 s0 types' funs') :=
  (((htypes.flatMap_right _).append (htypes.flatMap_right _)).append (hfuns.flatMap_right _)).append
    ((hfuns.filter _).flatMap_right _)

theorem Enlists.none (h : s.Bare) : Enlists t file s [] := ⟨h.functions, by simp⟩

theorem exists_reference (m : Module) (htypes : (m.types.map (·.name)).Nodup) (hfuns : (m.funs.map (·.name)).Nodup) :
    ∃ t0 t1 s0 declared, Reference m t0 t1 s0 declared := by
  let cfg : Settings := {}
  have hbare := State.new_bare #[]
  -- aliases are declared once by themselves, for `t0`, and once as the first part of all types
  obtain ⟨_, s1, hrun1, hretypes1, -⟩ : Ends (declareTypes cfg m.file m.types) (State.new #[]) _ :=
    declareTypes_ends m.types hbare.types
  obtain ⟨-, -, hformed1, halias1, -⟩ := declareTypes_reports m.file m.types fresh_formed htypes
    (fun d _ => alias?_fresh d.name) _ _ hrun1
  obtain ⟨_, s2, hrun2, hbare2, -, hdefined2⟩ : Ends (lowerTypes cfg m.file m.types) (State.new #[]) _ :=
    lowerTypes_ends hbare fresh_ne_named m.types
  obtain ⟨hformed2, halias2, -⟩ := lowerTypes_reports hretypes1.types hformed1 m.file halias1 htypes rfl _ _ hrun2
  obtain ⟨declared, s3, hrun3, hcomplete, -⟩ : Ends (declareFuns cfg m.file m.funs) s2 _ :=
    declareFuns_complete hbare2 hdefined2 m.funs
  obtain ⟨hdeclared, -, hwidens, -, henlists⟩ := declareFuns_reports hbare2.types hformed2 m.funs hformed2 (fun _ => rfl)
    (.none hbare2) hfuns _ _ hrun3
  exact ⟨s1.types, s2.types, s3, declared, hretypes1.types, hformed1, halias1, hbare2.types, hformed2, halias2,
    hwidens, ⟨hcomplete, ⟨hwidens.formed, hwidens.formed, rfl⟩, henlists⟩, hdeclared⟩

/-- What is reported in a run on the declarations of a module in another order. -/
theorem lowerModule_reports {declared0 : List (FunId × FunDecl)} (h : Reference m t0 t1 s0 declared0)
    (hmax : cfg.maxErrors = 0) (htypes : m.types.Perm types) (hfuns : m.funs.Perm funs)
    (htypeNames : (m.types.map (·.name)).Nodup) (hfunNames : (m.funs.map (·.name)).Nodup) (journal : Log.Journal) :
    Whenever (lowerModule cfg { m with types, funs }) (State.new journal) fun _ s' =>
      s'.diags.toList.map Diagnostic.withoutHelp = verdicts cfg m.file t0 t1 s0 types funs := by
  have htypeNames' : (types.map (·.name)).Nodup := (htypes.map _).nodup_iff.mp htypeNames
  have hfunNames' : (funs.map (·.name)).Nodup := (hfuns.map _).nodup_iff.mp hfunNames
  simp only [lowerModule, whenever_bind, whenever_note]
  intro _ s1 hrun1
  obtain ⟨hbare1, -, hdefined1⟩ := (lowerTypes_ends (State.new_bare _) fresh_ne_named types).result hrun1
  obtain ⟨hformed1, halias1, hreports1⟩ := lowerTypes_reports h.sound₀ h.formed₀ m.file
    (h.alias₀.trans (announced_perm htypes _)) htypeNames' rfl _ _ hrun1
  have hcongruent : t1.Congruent s1.types :=
    ⟨h.formed₁, hformed1, by rw [h.alias₁, halias1, meaning_perm htypes htypeNames]⟩
  intro declared s2 hrun2
  obtain ⟨hcomplete, -⟩ := (declareFuns_complete hbare1 hdefined1 funs).result hrun2
  obtain ⟨hdeclared, hreports2, hwidens, -, henlists⟩ := declareFuns_reports h.sound₁ h.formed₁ funs hformed1
    hcongruent.sameNames (.none hbare1) hfunNames' _ _ hrun2
  have hperm : (declared.map (·.2)).Perm (declared0.map (·.2)) := by
    rw [hdeclared, h.declared]
    exact (hfuns.filter _).symm
  have hnames0 : (declared0.map (·.2.name)).Nodup := by
    have hsub := (List.filter_sublist (p := accepted t1 m.file) (l := m.funs)).map FunDecl.name
    rw [← h.declared, map_map] at hsub
    exact hfunNames.sublist hsub
  refine (lowerBodies_reports h.beside hnames0 hperm hmax declared (List.Subset.refl _)
    ⟨hcomplete, hcongruent.widens h.widens hwidens, henlists⟩).mono fun _ s3 hreports3 => ?_
  have hreports := (hreports1.trans hreports2).trans hreports3
  have hall : s3.diags.toList.map Diagnostic.withoutHelp = verdicts cfg m.file t0 t1 s0 types funs := by
    rw [verdicts, ← hdeclared, flatMap_map, funext (cycleReport_congruent hcongruent m.file)]
    exact hreports
  rw [whenever_get]
  split
  · exact (whenever_pure _).mpr hall
  · exact (whenever_pure _).mpr hall

theorem State.Counted.errors_eq_countP (h : s.Counted) :
    s.errors = (s.diags.toList.map Diagnostic.withoutHelp).countP (·.isError) := by
  rw [h, List.countP_map]
  rfl

/-- Declarations of distinct names can be given in any order: lowering succeeds in all orders or in
none, and reports the same, up to suggestions and the order of the reports. -/
theorem declaration_order_irrelevant (cfg : Settings) (hmax : cfg.maxErrors = 0) (m : Module) (types : List TypeDef)
    (funs : List FunDecl) (htypeNames : (m.types.map (·.name)).Nodup) (hfunNames : (m.funs.map (·.name)).Nodup)
    (htypes : m.types.Perm types) (hfuns : m.funs.Perm funs) (journal journal' : Log.Journal) :
    ∃ r s r' s', lowerModule cfg m { journal } = .ok r s ∧
      lowerModule cfg { m with types, funs } { journal := journal' } = .ok r' s' ∧
      ((∃ fns, r = .ok fns) ↔ ∃ fns, r' = .ok fns) ∧
      (s.diags.toList.map Diagnostic.withoutHelp).Perm (s'.diags.toList.map Diagnostic.withoutHelp) := by
  obtain ⟨t₀, t₁, s₀, declared, href⟩ := exists_reference m htypeNames hfunNames
  obtain ⟨r, s, hrun, hcomplete, hr⟩ := lowerModule_ends cfg m journal
  obtain ⟨r', s', hrun', hcomplete', hr'⟩ := lowerModule_ends cfg { m with types, funs } journal'
  have hdiags := lowerModule_reports href hmax (.refl _) (.refl _) htypeNames hfunNames journal _ _ hrun
  have hdiags' := lowerModule_reports href hmax htypes hfuns htypeNames hfunNames journal' _ _ hrun'
  have hperm : (s.diags.toList.map Diagnostic.withoutHelp).Perm (s'.diags.toList.map Diagnostic.withoutHelp) := by
    rw [hdiags, hdiags']
    exact verdicts_perm htypes hfuns
  have herrors : s.errors = s'.errors := by
    rw [hcomplete.counted.errors_eq_countP, hcomplete'.counted.errors_eq_countP, hperm.countP_eq]
  refine ⟨r, s, r', s', hrun, hrun', ?_, hperm⟩
  rcases hr with ⟨hok, herr⟩ | ⟨rfl, herr⟩ <;> rcases hr' with ⟨hok', herr'⟩ | ⟨rfl, herr'⟩
  · exact iff_of_true hok hok'
  · exact absurd (herrors.symm.trans herr) herr'
  · exact absurd (herrors.trans herr') herr
  · simp

/-- Types and functions that refer to each other, with an error in each body. What is suggested for
the unknown name depends on the order. -/
def sampleOrder : Module where
  name := "sample"
  file := 0
  types := [⟨"Tree", .struct [(.ptr (.named "Forest" .none) .none, "below")] .none, .none⟩,
    ⟨"Forest", .array (.named "Tree" .none) 2 .none, .none⟩]
  funs := [⟨"walk1", [⟨.named "Forest" .none, some "x"⟩], .bool .none, {},
      some [.ret (some (.call (.name "walk0" .none) [.name "x" .none] .none)) .none], .none⟩,
    ⟨"walk2", [⟨.named "Forest" .none, some "x"⟩], .unit .none, {},
      some [.ret (some (.call (.name "walk1" .none) [.name "x" .none] .none)) .none], .none⟩]

/-- The codes of what is reported on a module, if it is lowered to the end. -/
def reportedCodes? (m : Module) : Option (List String) :=
  match lowerModule {} m {} with
  | .ok _ s => some (s.diags.toList.map (·.code))
  | .error _ _ => none

theorem reportedCodes?_eq {r : Except (List Diagnostic) (List FunId)} (h : lowerModule {} m {} = .ok r s) :
    reportedCodes? m = some (s.diags.toList.map (·.code)) := by
  rw [reportedCodes?, h]

theorem sampleOrder_reversed : ∃ r s r' s', lowerModule {} sampleOrder {} = .ok r s ∧
    lowerModule {} { sampleOrder with types := sampleOrder.types.reverse, funs := sampleOrder.funs.reverse } {} = .ok r' s' ∧
    s.diags.toList.map (·.code) = ["T009", "T012", "T001"] ∧ s'.diags.toList.map (·.code) = ["T001", "T009", "T012"] ∧
    (s.diags.toList.map Diagnostic.withoutHelp).Perm (s'.diags.toList.map Diagnostic.withoutHelp) := by
  obtain ⟨r, s, r', s', hrun, hrun', -, hperm⟩ := declaration_order_irrelevant {} rfl sampleOrder sampleOrder.types.reverse
    sampleOrder.funs.reverse (by decide) (by decide) (List.reverse_perm _).symm (List.reverse_perm _).symm #[] #[]
  refine ⟨r, s, r', s', hrun, hrun', ?_, ?_, hperm⟩
  · exact Option.some.inj ((reportedCodes?_eq hrun).symm.trans (by decide +kernel))
  · exact Option.some.inj ((reportedCodes?_eq hrun').symm.trans (by decide +kernel))

end Lowering

end BlockCompiler
