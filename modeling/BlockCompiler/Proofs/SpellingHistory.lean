/-
  BlockCompiler.Proofs.SpellingHistory — spellings after other requests.

  A generator answers one request after the other. All that it remembers are the marks on aliases
  that a fault left.

  (1) `Restores t marks act`: a step that gives a result leaves the marks as they were, and one
      that stops adds marks on stuck aliases only. Every step that makes code has this property,
      so modules have it (`restores_moduleCode`).
  (2) So a generator that answered requests has marks on stuck aliases only (`stuck_of_serve`), and
      none if no request failed (`serve_eq_self`).
  (3) A type that a fresh generator can spell opens no stuck alias, so earlier requests do not
      change its spelling. An alias that was left marked is spelled `i8`, where a fresh generator
      stops at a fault (`typeText_history`, `sampleUndefined_remembered`).
-/
import BlockCompiler.Proofs.CallOrder
import BlockCompiler.Proofs.Contexts

namespace BlockCompiler.Target

open FunFrame

variable {t : TypeTable} {ty : TypeId} {e : Fault} {text : String} {marks : List TypeId} {α : Type}

/-! ## (1) Steps that restore the marks -/

section Restores

variable {σ α β : Type} {t : TypeTable} {marks : σ → List TypeId}

def Restores (t : TypeTable) (marks : σ → List TypeId) (act : EStateM Fault σ α) : Prop :=
  ∀ s, Whichever act s (fun _ s' => marks s' = marks s) fun e s' => Leaves t (marks s) e (marks s')

variable {act : EStateM Fault σ α} {k : α → EStateM Fault σ β}

theorem restores_pure (a : α) : Restores t marks (pure a) := fun _ => (whichever_pure a).mpr rfl

theorem Restores.bind (h : Restores t marks act) (hk : ∀ a, Restores t marks (k a)) : Restores t marks (act >>= k) := by
  intro s
  rw [whichever_bind]
  refine (h s).mono (fun a s' hs' => ?_) fun _ _ hr => hr
  have hrest := hk a s'
  rwa [hs'] at hrest

theorem Restores.map (h : Restores t marks act) (g : α → β) : Restores t marks (g <$> act) := by
  rw [map_eq_pure_bind]
  exact h.bind fun a => restores_pure (g a)

theorem restores_ofExcept (r : Except Fault α) : Restores t marks (ofExcept r) :=
  fun _ => (whichever_ofExcept r).mpr ⟨fun _ _ => rfl, fun _ _ _ _ ha => .inl ha⟩

theorem restores_throw (e : Fault) : Restores t marks (throw e : EStateM Fault σ α) := restores_ofExcept (.error e)

theorem restores_modifyGet {g : σ → α × σ} (hg : ∀ s, marks (g s).2 = marks s) : Restores t marks (modifyGet g) :=
  fun s => (whichever_modifyGet g).mpr (hg s)

theorem Restores.mapM {f : α → EStateM Fault σ β} {l : List α} (h : ∀ a ∈ l, Restores t marks (f a)) :
    Restores t marks (l.mapM f) := by
  induction l with
  | nil => exact restores_pure _
  | cons a l ih =>
    rw [List.mapM_cons]
    refine (h a (.head _)).bind fun _ => ?_
    exact (ih fun b hb => h b (.tail _ hb)).bind fun _ => restores_pure _

theorem Restores.forM {f : α → EStateM Fault σ PUnit} {l : List α} (h : ∀ a ∈ l, Restores t marks (f a)) :
    Restores t marks (l.forM f) := by
  induction l with
  | nil => exact restores_pure _
  | cons a l ih => exact (h a (.head _)).bind fun _ => ih fun b hb => h b (.tail _ hb)

end Restores

section Spelling

variable {t : TypeTable}

theorem restores_spellType (ty : TypeId) : Restores t id (spellType t ty) := fun marks =>
  (spellWithin_restores _ ty marks).mono (fun _ _ h => h) fun _ _ h he => (h he).2

theorem restores_spellAggregate (ty : TypeId) : Restores t id (spellAggregate t ty) := by
  refine (restores_ofExcept _).bind fun shape => ?_
  cases shape with
  | struct fields => exact (Restores.mapM fun f _ => restores_spellType f.ty).bind fun _ => restores_pure _
  | sum variants => exact (restores_ofExcept _).bind fun _ => restores_pure _
  | _ => exact restores_throw _

theorem restores_typeDefs : ∀ ids : List TypeId, Restores t id (typeDefs t ids)
  | [] => restores_pure _
  | ty :: rest => by
    refine (restores_ofExcept _).bind fun named => ?_
    cases named with
    | false => exact restores_typeDefs rest
    | true =>
      refine (restores_ofExcept _).bind fun shape => ?_
      cases shape with
      | named name u =>
        refine (restores_ofExcept _).bind fun v => (restores_spellAggregate v).bind fun _ => ?_
        exact (restores_typeDefs rest).bind fun _ => restores_pure _
      | _ => exact restores_throw _

end Spelling

section Code

variable {src : Source}

theorem Quiet.restores {act : EmitM α} (h : Quiet src act) : Restores src.types FunFrame.expanding act :=
  fun f => (h f.expanding f rfl).mono (fun _ _ h => h.1.1) fun _ _ h => h

theorem restores_emitValue (v : Value) : Restores src.types FunFrame.expanding (emitValue src v) :=
  fun f => (performs_emitValue src f.expanding v f rfl).mono (fun _ _ h => h.1.1) fun _ _ h => h

theorem restores_emitStmt (x : BlockStmt) : Restores src.types FunFrame.expanding (emitStmt src x) := by
  cases x with
  | live v => exact (quiet_slotOf.bind fun _ => quiet_ask.bind fun _ => quiet_comment).restores
  | store v value =>
    refine (restores_emitValue value).bind fun _ => Quiet.restores ?_
    exact quiet_slotOf.bind fun _ => quiet_ask.bind fun _ => quiet_spell.bind fun _ => quiet_emit rfl

theorem restores_emitExit (t : Terminator) : Restores src.types FunFrame.expanding (emitExit src t) := by
  cases t with
  | ret value => exact (restores_emitValue value).bind fun _ => (quiet_spell.bind fun _ => quiet_pure).restores
  | jump target => exact restores_pure _
  | branch condition ifTrue ifFalse =>
    exact (restores_emitValue condition).bind fun _ => (quiet_conditionBit.bind fun _ => quiet_pure).restores
  | switch scrutinee targets fallback =>
    refine (restores_emitValue scrutinee).bind fun _ => Quiet.restores ?_
    exact quiet_newTemp.bind fun _ => quiet_spell.bind fun _ => quiet_finish rfl

theorem restores_emitBlock (src : Source) (b : BlockId) : Restores src.types FunFrame.expanding (emitBlock src b) := by
  refine (restores_ofExcept _).bind fun block => ?_
  refine (Restores.forM fun x _ => restores_emitStmt x).bind fun _ => ?_
  cases block.terminator with
  | none => exact restores_throw _
  | some t =>
    refine (restores_emitExit t).bind fun _ => ?_
    exact (restores_modifyGet fun _ => rfl).bind fun _ => restores_pure _

theorem restores_bodyCode (body : Body) : Restores src.types id (bodyCode src body) := by
  intro marks
  have hblocks := Restores.mapM (l := src.context.reachableFrom body.entry) (fun b _ => restores_emitBlock src b)
    { expanding := marks }
  cases he : (src.context.reachableFrom body.entry).mapM (emitBlock src) { expanding := marks } with
  | ok blocks f =>
    rw [whichever_of_ok he] at hblocks
    have hrun : bodyCode src body marks = .ok (f.slots.toList, blocks) f.expanding := by rw [bodyCode, he]
    exact (whichever_of_ok hrun).mpr hblocks
  | error e f =>
    rw [whichever_of_error he] at hblocks
    have hrun : bodyCode src body marks = .error e f.expanding := by rw [bodyCode, he]
    exact (whichever_of_error hrun).mpr hblocks

theorem restores_funCode (fn : FunId) : Restores src.types id (funCode src fn) := by
  refine (restores_ofExcept _).bind fun f => ?_
  have params : Restores src.types id (f.signature.params.mapM fun p => spellType src.types p.ty) :=
    .mapM fun p _ => restores_spellType p.ty
  cases f.body with
  | none => exact (restores_spellType _).bind fun _ => params.bind fun _ => restores_pure _
  | some body =>
    refine (restores_bodyCode body).bind fun _ => ?_
    exact (restores_spellType _).bind fun _ => params.bind fun _ => restores_pure _

theorem restores_moduleCode (src : Source) (name triple : String) : Restores src.types id (moduleCode src name triple) :=
  (restores_typeDefs _).bind fun _ => (Restores.mapM fun fn _ => restores_funCode fn).bind fun _ => restores_pure _

end Code

/-! ## (2) Requests -/

namespace Generator

/-- What can be asked of a generator. -/
inductive Request where
  | typeText (ty : TypeId)
  | byteSize (ty : TypeId)
  | generate (name : String)

/-- The answer to a request, and the generator that is left. -/
def Request.answer (c : Context) (g : Generator) : Request → Except Fault String × Generator
  | typeText ty => g.typeText c ty
  | byteSize ty => (toString <$> c.types.byteSize ty, g)
  | generate name => g.generate c name

/-- The answers to requests, one after the other. -/
def serve (c : Context) (g : Generator) : List Request → List (Except Fault String) × Generator
  | [] => ([], g)
  | r :: rest =>
    let (first, g) := r.answer c g
    let (answers, g) := serve c g rest
    (first :: answers, g)

variable {c : Context} {g g' : Generator}

theorem serve_cons (r : Request) (rest : List Request) : g.serve c (r :: rest) =
    ((r.answer c g).1 :: ((r.answer c g).2.serve c rest).1, ((r.answer c g).2.serve c rest).2) := rfl

/-- What a request does to a generator. -/
def Served (t : TypeTable) (g : Generator) (r : Except Fault α × Generator) : Prop :=
  (∀ a, r.1 = .ok a → r.2 = g) ∧ ∀ e, r.1 = .error e → Leaves t g.expanding e r.2.expanding

theorem run_served {act : SpellM α} (h : Restores t id act) : Served t g (g.run act) := by
  have hact := h g.expanding
  unfold run
  cases he : act g.expanding with
  | ok a marks =>
    rw [whichever_of_ok he] at hact
    cases hact
    refine ⟨fun _ _ => rfl, fun _ hr => ?_⟩
    cases hr
  | error e marks =>
    rw [whichever_of_error he] at hact
    refine ⟨fun _ hr => ?_, fun _ hr => ?_⟩
    · cases hr
    · cases hr
      exact hact

theorem answer_served (r : Request) : Served c.types g (r.answer c g) := by
  cases r with
  | typeText ty => exact run_served ((restores_spellType ty).map _)
  | byteSize ty => exact ⟨fun _ _ => rfl, fun _ _ _ _ ha => .inl ha⟩
  | generate name => exact run_served ((restores_moduleCode ⟨c, g.comments⟩ name g.triple).map _)

theorem serve_eq_self : ∀ {requests : List Request} {answers : List (Except Fault String)} {g g' : Generator},
    g.serve c requests = (answers, g') → (∀ a ∈ answers, ∃ text, a = .ok text) → g' = g
  | [], answers, g, g', h, _ => (Prod.mk.inj h).2.symm
  | r :: rest, answers, g, g', h, hok => by
    rw [serve_cons] at h
    obtain ⟨rfl, rfl⟩ := Prod.mk.inj h
    obtain ⟨⟨text, htext⟩, hrest⟩ := List.forall_mem_cons.mp hok
    have hserved := @serve_eq_self rest _ _ _ rfl hrest
    exact hserved.trans ((answer_served r).1 text htext)

/-- If every request came to an end, then only stuck aliases are marked. -/
theorem stuck_of_serve : ∀ {requests : List Request} {answers : List (Except Fault String)} {g g' : Generator},
    g.serve c requests = (answers, g') → .error .endlessType ∉ answers → (∀ a ∈ g.expanding, Stuck c.types a) →
    ∀ a ∈ g'.expanding, Stuck c.types a
  | [], answers, g, g', h, _, hg => (Prod.mk.inj h).2 ▸ hg
  | r :: rest, answers, g, g', h, hend, hg => by
    rw [serve_cons] at h
    obtain ⟨rfl, rfl⟩ := Prod.mk.inj h
    obtain ⟨hfirst, hrest⟩ := not_or.mp (mt List.mem_cons.mpr hend)
    refine @stuck_of_serve rest _ _ _ rfl hrest fun a ha => ?_
    cases he : (r.answer c g).1 with
    | ok text => exact hg a ((answer_served r).1 text he ▸ ha)
    | error e =>
      have hne : e ≠ .endlessType := by
        rintro rfl
        exact hfirst he.symm
      exact ((answer_served r).2 e he hne a ha).elim (hg a) fun hstuck => hstuck

/-! ## (3) Spellings -/

theorem run_fst_congr (act : SpellM α) (h : g.expanding = g'.expanding) : (g.run act).1 = (g'.run act).1 := by
  unfold run
  rw [h]
  cases act g'.expanding <;> rfl

theorem typeText_eq_ok : (g.typeText c ty).1 = .ok text ↔
    ∃ T, spellType c.types ty g.expanding = .ok T g.expanding ∧ T.text = text := by
  unfold typeText run
  cases he : spellType c.types ty g.expanding with
  | ok T marks =>
    have hrun : (CodeType.text <$> spellType c.types ty) g.expanding = .ok T.text marks := by
      change EStateM.map _ _ _ = _
      rw [EStateM.map, he]
    cases marks_of_spelled he
    rw [hrun]
    simp
  | error e marks =>
    have hrun : (CodeType.text <$> spellType c.types ty) g.expanding = .error e marks := by
      change EStateM.map _ _ _ = _
      rw [EStateM.map, he]
    rw [hrun]
    simp

/-- A type that can be spelled under no marks has the same spelling under marks on stuck aliases. -/
theorem spellType_of_stuck {T : CodeType} (h : spellType t ty [] = .ok T []) (hmarks : ∀ a ∈ marks, Stuck t a) :
    spellType t ty marks = .ok T marks := by
  refine spellWithin_congr (fun x hx => ⟨fun hnone => absurd hnone List.not_mem_nil, fun hmem => ?_⟩) h
  obtain ⟨y, hy, hbad⟩ := (hmarks x hmem).doomed
  exact absurd ⟨y, hx.trans hy, hbad⟩ (not_doomed_of_spelled h)

theorem spellType_marked (h : Stuck t ty) (hmem : ty ∈ marks) : spellType t ty marks = .ok (.int 8) marks := by
  obtain ⟨name, u, hty⟩ := h.isAlias
  obtain ⟨depth, hdepth⟩ := Nat.exists_eq_succ_of_ne_zero (show (t.size + 2) * (t.size + 2) ≠ 0 by simp)
  have hrun := spellWithin_named (T := .int 8) hty h.spelledOut (n := depth) fun _ hnot => absurd hmem hnot
  rw [spellType, hdepth, hrun]
  simp [hmem]

/-- A generator that answered requests, each of which came to an end, spells what a fresh one can spell as that does.
If no request failed, it answers as a fresh one does throughout. But an alias that a fault left marked is then `i8`,
and a fresh generator has no spelling for it. So it answers like a fresh one exactly if no mark was left. -/
theorem typeText_history {fresh : Generator} (hfresh : fresh.expanding = []) {requests : List Request}
    {answers : List (Except Fault String)} (h : fresh.serve c requests = (answers, g))
    (hend : .error .endlessType ∉ answers) :
    (∀ ty text, (fresh.typeText c ty).1 = .ok text → (g.typeText c ty).1 = .ok text) ∧
    ((∀ a ∈ answers, ∃ text, a = .ok text) → ∀ ty, g.typeText c ty = fresh.typeText c ty) ∧
    (∀ ty ∈ g.expanding, (g.typeText c ty).1 = .ok "i8" ∧ ∀ text, (fresh.typeText c ty).1 ≠ .ok text) ∧
    ((∀ ty, (g.typeText c ty).1 = (fresh.typeText c ty).1) ↔ g.expanding = []) := by
  have hstuck : ∀ a ∈ g.expanding, Stuck c.types a := stuck_of_serve h hend (by simp [hfresh])
  have hmarked : ∀ ty ∈ g.expanding, (g.typeText c ty).1 = .ok "i8" ∧ ∀ text, (fresh.typeText c ty).1 ≠ .ok text := by
    intro ty hmem
    refine ⟨typeText_eq_ok.mpr ⟨_, spellType_marked (hstuck ty hmem) hmem, rfl⟩, fun text htext => ?_⟩
    obtain ⟨T, hT, -⟩ := typeText_eq_ok.mp htext
    rw [hfresh] at hT
    exact not_doomed_of_spelled hT (hstuck ty hmem).doomed
  refine ⟨fun ty text htext => ?_, fun hok ty => by rw [serve_eq_self h hok], hmarked, fun hsame => ?_, fun hnone ty => ?_⟩
  · obtain ⟨T, hT, rfl⟩ := typeText_eq_ok.mp htext
    rw [hfresh] at hT
    exact typeText_eq_ok.mpr ⟨T, spellType_of_stuck hT hstuck, rfl⟩
  · refine List.eq_nil_iff_forall_not_mem.mpr fun ty hmem => ?_
    obtain ⟨hnow, hfault⟩ := hmarked ty hmem
    exact hfault "i8" ((hsame ty).symm.trans hnow)
  · exact run_fst_congr _ (hnone.trans hfresh.symm)

/-- An alias that stands for nothing yet, a pointer to it, and a pointer to a flag. -/
def sampleUndefined : Context :=
  .after [.declareAlias "A", .addType (.ptr ⟨13⟩), .addType (.ptr TypeId.bool)]

/-- A generator that failed to spell the alias, its size, a pointer to it and the module. -/
theorem sampleUndefined_spelled : ∃ answers g,
    serve sampleUndefined {} [.typeText ⟨13⟩, .byteSize ⟨13⟩, .typeText ⟨14⟩, .generate "m"] = (answers, g) ∧
    .error .untypedSpelling ∈ answers ∧ .error .endlessType ∉ answers ∧ g.expanding = [⟨13⟩] ∧
    (g.typeText sampleUndefined ⟨15⟩).1 = .ok "i1*" ∧ (g.typeText sampleUndefined ⟨13⟩).1 = .ok "i8" ∧
    ¬ ∀ ty, (g.typeText sampleUndefined ty).1 = (typeText {} sampleUndefined ty).1 := by
  have hend : .error .endlessType ∉
      (serve sampleUndefined {} [.typeText ⟨13⟩, .byteSize ⟨13⟩, .typeText ⟨14⟩, .generate "m"]).1 := by decide +kernel
  have hmarks : (serve sampleUndefined {} [.typeText ⟨13⟩, .byteSize ⟨13⟩, .typeText ⟨14⟩, .generate "m"]).2.expanding =
      [⟨13⟩] := by decide +kernel
  have hflag : (typeText {} sampleUndefined ⟨15⟩).1 = .ok "i1*" := by decide +kernel
  obtain ⟨hkept, -, hmarked, hiff⟩ := typeText_history rfl (Prod.mk.eta).symm hend
  refine ⟨_, _, Prod.mk.eta.symm, by decide +kernel, hend, hmarks, hkept _ _ hflag, ?_, fun hsame => ?_⟩
  · exact (hmarked ⟨13⟩ (by rw [hmarks]; simp)).1
  · rw [hiff.mp hsame] at hmarks
    cases hmarks

/-- Asked a second time, a generator spells what it had no spelling for. -/
theorem sampleUndefined_remembered : (serve sampleUndefined {} [.typeText ⟨13⟩, .typeText ⟨13⟩]).1 =
    [.error .untypedSpelling, .ok "i8"] := by decide +kernel

end Generator

end BlockCompiler.Target
