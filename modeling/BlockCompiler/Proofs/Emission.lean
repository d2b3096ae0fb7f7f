/-
  BlockCompiler.Proofs.Emission — typed contexts have a module.

  (1) Blocks are made one after another in one frame: each is accepted with the slots that are
      there in the end, and no number is used in two of them (`ends_emitBlocks`).
  (2) The code of a function (`ends_funCode`).
  (3) The definitions of named types, and the signatures of all functions. Together they are what
      the code of each function is made in (`Source.setup`).
  (4) The module of a context (`Source.ends_moduleCode`), and its text (`generate_eq`).
-/
import BlockCompiler.Proofs.Breadth
import BlockCompiler.Proofs.EmittedCode

namespace BlockCompiler.Target

open List (forall_mem_nil mapM_nil map_cons mem_append mem_cons mem_filterMap mem_flatMap mem_map mem_range)
open TypeTable (StandsFor Usable)
open FunFrame Setup

variable {K : Setup} {prior : List Nat} {f : FunFrame} {c : Context} {slots : List Alloca} {name : String}

/-! ## (1) Blocks -/

/-- The numbers of the temporaries that a block defines. -/
def CodeBlock.numbers (b : CodeBlock) : List Nat := b.code.filterMap Instr.number?

structure Setup.AcceptsBlock (K : Setup) (result : CodeType) (slots : List Alloca) (b : CodeBlock) : Prop where
  closed : b.Closed K.scene slots
  typed : K.strict → b.Typed K.scene slots result
  notes : ∀ note ∈ b.notes, K.Notes note

theorem Setup.AcceptsBlock.mono {result : CodeType} {slots' : List Alloca} {b : CodeBlock} (hs : slots ⊆ slots')
    (h : K.AcceptsBlock result slots b) : K.AcceptsBlock result slots' b :=
  ⟨h.closed.mono hs, fun hstrict => (h.typed hstrict).mono hs, h.notes⟩

theorem CodeBlock.results_eq {S : Scene} {b : CodeBlock} (h : b.Closed S slots) :
    b.results = b.numbers.map .temp := by
  have htemps : ∀ l : List Instr, (∀ i ∈ l, ∀ o, i.result? = some o → ∃ n, o = .temp n) →
      l.filterMap Instr.result? = (l.filterMap Instr.number?).map .temp := by
    intro l hl
    induction l with
    | nil => rfl
    | cons i l ih =>
      have hrest := ih fun j hj => hl j (.tail _ hj)
      cases hi : i.result? with
      | none =>
        have hnumber : i.number? = none := by rw [Instr.number?, hi, Option.bind_none]
        rw [List.filterMap_cons_none hi, List.filterMap_cons_none hnumber, hrest]
      | some o =>
        obtain ⟨n, rfl⟩ := hl i (.head _) o hi
        have hnumber : i.number? = some n := by rw [Instr.number?, hi]; rfl
        rw [List.filterMap_cons_some hi, List.filterMap_cons_some hnumber, hrest, map_cons]
  exact htemps b.code h.results

/-- The code of a block is taken out of the frame, and its numbers stay used. -/
theorem Setup.Orderly.takeCode (h : K.Orderly prior f []) :
    K.Orderly (prior ++ f.code.toList.filterMap Instr.number?) { f with code := #[] } [] := by
  have hnumbers : prior ++ f.code.toList.filterMap Instr.number? ++ FunFrame.numbers { f with code := #[] } ++ [] =
      prior ++ f.numbers ++ [] := by simp [FunFrame.numbers]
  refine ⟨h.marks, fun hclosed => ?_⟩
  have htidy := h.tidy hclosed
  refine ⟨?_, ?_, htidy.placed, htidy.slots, htidy.owned, ?_, ?_, ?_⟩
  · rw [hnumbers]
    exact htidy.distinct
  · rw [hnumbers]
    exact htidy.below
  · simp
  · simp
  · simp

section Blocks

variable {result : TypeId}

variable (hK : K.Sound) (hclosed : K.closed)
include hK hclosed

theorem ends_emitBlock {b : BlockId}
    (hb : K.src.context.HasBlock (BlockStmt.Typed (K.src.context.site K.params))
      (fun t => t.Typed (K.src.context.site K.params) result) b) (hf : K.Orderly prior f []) :
    Ends (emitBlock K.src b) f fun block f' => f.slots.toList ⊆ f'.slots.toList ∧
      K.Orderly (prior ++ block.numbers) f' [] ∧ K.AcceptsBlock (K.code result) f'.slots.toList block ∧
      block.label = b ∧ block.exit.targets = K.src.successors b := by
  obtain ⟨block, t, hget, ht, hstmts, hterm⟩ := hb
  rw [Context.successors_eq hget ht]
  simp only [emitBlock, ask, ends_bind, ends_ofExcept]
  refine ⟨block, Arena.get_eq_ok.mpr hget, Ends.mono (emits_emitStmts hK hstmts hf) fun _ f1 h1 => ?_⟩
  obtain ⟨hle1, hf1, -⟩ := h1
  rw [ht]
  simp only [ends_bind, takeCode, ends_modifyGet, ends_pure]
  refine Ends.mono (emits_emitExit hK hterm hf1) fun exit f2 h2 => ?_
  obtain ⟨hle2, hf2, hexit, htargets⟩ := h2
  have htidy := hf2.tidy hclosed
  refine ⟨fun _ ha => hle2.slots (hle1.slots ha), hf2.takeCode,
    ⟨⟨?_, htidy.results, hexit.known hclosed, ?_⟩, fun hstrict => ?_, ?_⟩, trivial, htargets⟩
  · exact fun k i hi => (htidy.code k i hi).1 hclosed
  · exact fun T hT => (hexit.types T hT).1 hclosed
  · refine ⟨fun k i hi => (htidy.code k i hi).2 hstrict, hexit.fits hstrict, fun T hT => ?_⟩
    rw [(hexit.types T hT).2]
  · intro note hnote
    obtain ⟨i, hi, hin⟩ := mem_filterMap.mp hnote
    cases i with
    | comment text => exact Option.some.inj hin ▸ htidy.notes text hi
    | _ => cases hin

theorem ends_emitBlocks : ∀ {ids : List BlockId} {prior : List Nat} {f : FunFrame},
    (∀ b ∈ ids, K.src.context.HasBlock (BlockStmt.Typed (K.src.context.site K.params))
      (fun t => t.Typed (K.src.context.site K.params) result) b) → K.Orderly prior f [] →
    Ends (ids.mapM (emitBlock K.src)) f fun blocks f' => f.slots.toList ⊆ f'.slots.toList ∧
      K.Orderly (prior ++ blocks.flatMap CodeBlock.numbers) f' [] ∧ blocks.map (·.label) = ids ∧
      ∀ b ∈ blocks, K.AcceptsBlock (K.code result) f'.slots.toList b ∧
        b.exit.targets = K.src.successors b.label
  | [], prior, f, _, hf => by
    simp only [mapM_nil, ends_pure, List.flatMap_nil, List.append_nil]
    exact ⟨fun _ ha => ha, hf, rfl, fun _ hb => by cases hb⟩
  | b :: ids, prior, f, hb, hf => by
    simp only [List.mapM_cons, ends_bind, ends_pure]
    refine (ends_emitBlock hK hclosed (hb b (.head _)) hf).mono fun block f1 h1 => ?_
    obtain ⟨hslots1, hf1, hblock, hlabel, htargets⟩ := h1
    refine (ends_emitBlocks (fun c hc => hb c (.tail _ hc)) hf1).mono fun blocks f2 h2 => ?_
    obtain ⟨hslots2, hf2, hlabels, hblocks⟩ := h2
    refine ⟨fun _ ha => hslots2 (hslots1 ha), ?_, ?_, fun c hc => ?_⟩
    · rw [List.flatMap_cons, ← List.append_assoc]
      exact hf2
    · rw [map_cons, hlabel, hlabels]
    · rcases mem_cons.mp hc with rfl | hc
      · exact ⟨hblock.mono hslots2, hlabel ▸ htargets⟩
      · exact hblocks c hc

/-! ## (2) Functions -/

/-- The code of a function is closed and defines nothing twice, and it is typed if types are to
agree. -/
structure Setup.AcceptsFun (K : Setup) (code : FunCode) : Prop where
  closed : code.Closed K.scene
  locals : code.locals.Nodup
  labels : code.labels.Nodup
  typed : K.strict → ∀ b ∈ code.blocks, b.Typed K.scene code.slots code.result
  notes : ∀ note ∈ code.notes, K.Notes note

theorem ends_bodyCode {fn : Function} {body : Body} (hbody : K.src.context.BodyTyped fn body)
    (hparams : K.params = fn.signature.params) :
    Ends (bodyCode K.src body) K.marks fun r marks' => marks' = K.marks ∧
      (∀ a ∈ r.1, K.Owns a ∧ K.scene.Declares a.ty ∧ ∀ note ∈ a.comment, K.Notes note) ∧
      (r.1.map (·.slot) ++ r.2.flatMap CodeBlock.results).Nodup ∧
      r.2.map (·.label) = K.src.context.reachableFrom body.entry ∧
      ∀ b ∈ r.2, K.AcceptsBlock (K.code fn.signature.result) r.1 b ∧
        b.exit.targets = K.src.successors b.label := by
  have hblocks : ∀ b ∈ K.src.context.reachableFrom body.entry,
      K.src.context.HasBlock (BlockStmt.Typed (K.src.context.site K.params))
        (fun t => t.Typed (K.src.context.site K.params) fn.signature.result) b := by
    intro b hb
    rw [hparams]
    exact hbody b (Context.reaches_of_mem_reachableFrom hb)
  have hstart : K.Orderly [] { expanding := K.marks } [] :=
    ⟨rfl, fun _ => by constructor <;> simp [FunFrame.numbers]⟩
  obtain ⟨blocks, f, hrun, -, hf, hlabels, haccepts⟩ := ends_emitBlocks hK hclosed hblocks hstart
  have htidy := hf.tidy hclosed
  refine ⟨(f.slots.toList, blocks), f.expanding, by rw [bodyCode, hrun], hf.marks, htidy.owned, ?_, hlabels, haccepts⟩
  have hresults : blocks.flatMap CodeBlock.results = (blocks.flatMap CodeBlock.numbers).map .temp := by
    rw [List.map_flatMap]
    exact List.flatMap_congr fun b hb => CodeBlock.results_eq (haccepts b hb).1.closed
  have hnumbers : (blocks.flatMap CodeBlock.numbers).Nodup := by
    have hdistinct := htidy.distinct
    rw [List.nil_append, List.append_nil] at hdistinct
    exact hdistinct.sublist (List.sublist_append_left _ _)
  rw [hresults]
  refine List.nodup_append.mpr ⟨htidy.slots, hnumbers.map fun _ _ he => Operand.temp.inj he, ?_⟩
  intro o ho o' ho' hoo
  obtain ⟨a, ha, rfl⟩ := mem_map.mp ho
  obtain ⟨n, -, rfl⟩ := mem_map.mp ho'
  rcases (htidy.owned a ha).1 with ⟨v, var, hslot, -⟩ | ⟨m, hslot⟩
  · rw [hslot] at hoo
    cases hoo
  · rw [hslot] at hoo
    cases hoo

theorem declares_signatureCode {signature : Signature} (hsig : signature.Proper K.table) :
    K.scene.Declares (K.signatureCode signature) := by
  intro name hname
  simp only [signatureCode, CodeType.names, CodeType.namesOf_eq, mem_append, mem_flatMap, mem_map] at hname
  rcases hname with hname | ⟨_, ⟨p, hp, rfl⟩, hname⟩
  · exact declares_code hK (hsig _ (.head _)) hclosed name hname
  · exact declares_code hK (hsig p.ty (.tail _ (List.mem_map_of_mem hp))) hclosed name hname

/-- A function is declared with the spelling of its signature, and accepted with its body. -/
theorem ends_funCode {fn : FunId} {f : Function} (hf : K.src.funs.get? fn = some f)
    (hsig : f.signature.Proper K.table) (hbody : ∀ body, f.body = some body → K.src.context.BodyTyped f body)
    (hparams : K.params = f.signature.params) :
    Ends (funCode K.src fn) K.marks fun code marks' => marks' = K.marks ∧ code.name = f.name ∧
      code.type = K.signatureCode f.signature ∧ K.AcceptsFun code := by
  have hresult : spellType K.table f.signature.result K.marks = .ok (K.code f.signature.result) K.marks :=
    spellType_eq hK.usable (hsig _ (.head _)) K.marks
  have hspell : (f.signature.params.mapM fun p => spellType K.table p.ty) K.marks =
      .ok (f.signature.params.map fun p => K.code p.ty) K.marks :=
    spellTypes_eq hK.usable (fun p hp => hsig p.ty (.tail _ (List.mem_map_of_mem hp))) K.marks
  have hdeclares := declares_signatureCode hK hclosed hsig
  have hargs : ((List.range (f.signature.params.map fun p => K.code p.ty).length).map Operand.arg).Nodup :=
    List.nodup_range.map fun _ _ he => Operand.arg.inj he
  simp only [funCode, ends_bind, ends_ofExcept]
  refine ⟨f, Arena.get_eq_ok.mpr hf, ?_⟩
  cases hb : f.body with
  | none =>
    simp only [declareCode, ends_bind, ends_pure, ends_iff_of_eq hresult, ends_iff_of_eq hspell]
    have hlocals : (FunCode.declare (K.code f.signature.result) f.name
        (f.signature.params.map fun p => K.code p.ty)).locals.Nodup := by
      simpa [FunCode.locals, FunCode.slots, FunCode.blocks, FunCode.params] using hargs
    exact ⟨trivial, rfl, rfl, ⟨hdeclares, forall_mem_nil _, forall_mem_nil _, (fun _ hb => by cases hb),
      forall_mem_nil _⟩, hlocals, List.nodup_nil, fun _ => forall_mem_nil _, forall_mem_nil _⟩
  | some body =>
    simp only [ends_bind, ends_pure]
    refine (ends_bodyCode hK hclosed (hbody body hb) hparams).mono fun r marks1 h1 => ?_
    obtain ⟨rfl, howned, hlocals, hlabels, hblocks⟩ := h1
    simp only [ends_iff_of_eq hresult, ends_iff_of_eq hspell]
    have hlisted := K.src.context.explored_reachableFrom body.entry
    refine ⟨trivial, rfl, rfl, ⟨hdeclares, fun a ha => ?_, fun b hb => (hblocks b hb).1.closed, fun b hb => ?_,
      fun b hb target ht => ?_⟩, ?_, ?_, fun hstrict b hb => (hblocks b hb).1.typed hstrict, fun note hnote => ?_⟩
    · refine ⟨?_, (howned a ha).2.1⟩
      rcases (howned a ha).1 with ⟨v, var, hslot, -⟩ | hslot
      · exact .inl ⟨v, hslot⟩
      · exact .inr hslot
    · cases hb
      change body.entry ∈ r.2.map (·.label)
      rw [hlabels]
      exact hlisted.mem_iff.mpr (.inl rfl)
    · change target ∈ r.2.map (·.label)
      have hlabel : b.label ∈ r.2.map (·.label) := List.mem_map_of_mem hb
      rw [hlabels] at hlabel ⊢
      rw [(hblocks b hb).2] at ht
      exact hlisted.mem_iff.mpr (.inr ⟨_, hlabel, ht⟩)
    · -- parameters, slots and temporaries are named in different ways
      change ((List.range (f.signature.params.map fun p => K.code p.ty).length).map Operand.arg ++ r.1.map (·.slot) ++
        r.2.flatMap CodeBlock.results).Nodup
      rw [List.append_assoc]
      refine List.nodup_append.mpr ⟨hargs, hlocals, ?_⟩
      intro o ho o' ho' hoo
      obtain ⟨k, -, rfl⟩ := mem_map.mp ho
      rcases mem_append.mp ho' with ho' | ho'
      · obtain ⟨a, ha, rfl⟩ := mem_map.mp ho'
        rcases (howned a ha).1 with ⟨v, var, hslot, -⟩ | ⟨m, hslot⟩
        · rw [hslot] at hoo
          cases hoo
        · rw [hslot] at hoo
          cases hoo
      · obtain ⟨b, hb, ho'⟩ := mem_flatMap.mp ho'
        rw [CodeBlock.results_eq (hblocks b hb).1.closed] at ho'
        obtain ⟨n, -, rfl⟩ := mem_map.mp ho'
        cases hoo
    · change (r.2.map (·.label)).Nodup
      rw [hlabels]
      exact hlisted.nodup
    · rcases mem_append.mp hnote with hnote | hnote
      · obtain ⟨a, ha, hcomment⟩ := mem_filterMap.mp hnote
        exact (howned a ha).2.2 note hcomment
      · obtain ⟨b, hb, hnote⟩ := mem_flatMap.mp hnote
        exact (hblocks b hb).1.notes note hnote

end Blocks

/-! ## (3) Types and signatures -/

section Types

variable {t : TypeTable} {id : TypeId} {marks : List TypeId}

/-- The definition of an alias, if it is one of a struct or sum. -/
def definition? (t : TypeTable) (marks : List TypeId) (id : TypeId) : Option (String × CodeType) :=
  match t.get? id with
  | some (.named name _) =>
    match t.resolved id with
    | .ok ty => if ty.isAggregate then some (name, codeOf t (spelling t marks) ty) else none
    | .error _ => none
  | _ => none

theorem definition?_eq_some (h : t.Usable) {T : CodeType} (hd : definition? t marks id = some (name, T)) :
    ∃ u v ty, t.get? id = some (.named name u) ∧ StandsFor t id v ∧ t.get? v = some ty ∧ ty.isAggregate = true ∧
      T = codeOf t (spelling t marks) ty := by
  unfold definition? at hd
  split at hd
  · rename_i u hid
    split at hd
    · rename_i ty hres
      split at hd
      · rename_i hagg
        cases hd
        obtain ⟨v, hst, hv⟩ := TypeTable.standsFor_of_resolved h.sound hres (by rintro rfl; cases hagg)
        exact ⟨u, v, ty, hid, hst, hv, hagg, rfl⟩
      · cases hd
    · cases hd
  · cases hd

theorem definition?_eq {u v : TypeId} {ty : Ty} (hid : t.get? id = some (.named name u)) (hst : StandsFor t id v)
    (hv : t.get? v = some ty) (hagg : ty.isAggregate = true) :
    definition? t marks id = some (name, codeOf t (spelling t marks) ty) := by
  unfold definition?
  rw [hid, hst.resolved hv]
  exact if_pos hagg

theorem spellAggregate_eq (h : t.Usable) {ty : Ty} (hty : t.get? id = some ty) (hagg : ty.isAggregate = true) :
    spellAggregate t id marks = .ok (codeOf t (spelling t marks) ty) marks := by
  have hid : t.Proper id := h.sound.proper_of_get? hty (by rintro rfl; cases hagg)
  obtain ⟨T, hrun, hT⟩ := spellAggregate_spelled h.grounded (h.clean hid) hty hagg marks
  rw [hrun, hT.unique (spelled_spelling h hid marks), spelling_eq h hid hty (by cases ty <;> first | rfl | cases hagg)]

theorem typeDefs_eq_ok (h : t.Usable) (marks : List TypeId) : ∀ {ids : List TypeId}, (∀ id ∈ ids, id.index < t.size) →
    typeDefs t ids marks = .ok (ids.filterMap (definition? t marks)) marks
  | [], _ => rfl
  | id :: rest, hlt => by
    have ih := typeDefs_eq_ok h marks fun id hid => hlt id (.tail _ hid)
    obtain ⟨named, hnamed⟩ := isNamedAggregate_ok h.grounded (hlt id (.head _))
    have hends : Ends (typeDefs t (id :: rest)) marks fun defs marks' =>
        defs = (id :: rest).filterMap (definition? t marks) ∧ marks' = marks := by
      simp only [typeDefs, ends_bind, ends_ofExcept]
      refine ⟨named, hnamed, ?_⟩
      cases named with
      | true =>
        obtain ⟨⟨name, u, hid⟩, v, ty, hv, hty, hshape⟩ := isNamedAggregate_true hnamed
        have hagg : ty.isAggregate = true := by
          rcases hshape with ⟨fields, rfl⟩ | ⟨variants, rfl⟩ <;> rfl
        have hst := TypeTable.standsFor_of_unwrapAlias h.sound hv hty (by rintro rfl; cases hagg)
        simp only [if_true, ends_bind, ends_ofExcept]
        refine ⟨_, Interner.get_eq_ok.mpr hid, ?_⟩
        simp only [ends_bind, ends_ofExcept, ends_pure]
        refine ⟨v, hv, ?_⟩
        rw [ends_iff_of_eq (spellAggregate_eq h hty hagg), ends_iff_of_eq ih,
          List.filterMap_cons_some (definition?_eq hid hst hty hagg)]
        exact ⟨rfl, rfl⟩
      | false =>
        have hnone : definition? t marks id = none := by
          rw [Option.eq_none_iff_forall_not_mem]
          intro d hd
          obtain ⟨u, v, ty, hid, hst, hv, hagg, -⟩ := definition?_eq_some h hd
          rw [isNamedAggregate_eq hid hst hv, hagg] at hnamed
          cases hnamed
        rw [if_neg Bool.false_ne_true, ends_iff_of_eq ih, List.filterMap_cons_none hnone]
        exact ⟨rfl, rfl⟩
    obtain ⟨_, _, hrun, rfl, rfl⟩ := hends
    exact hrun

end Types

namespace Source

variable {src : Source} {marks : List TypeId}

/-- The functions with their types as pointers. -/
def signatures (src : Source) (marks : List TypeId) : List (String × CodeType) :=
  src.funs.handles.filterMap fun fn => (src.funs.get? fn).map fun f =>
    (f.name, .func (spelling src.types marks f.signature.result)
      (f.signature.params.map fun p => spelling src.types marks p.ty))

/-- Integers are wider than a bit, no alias is marked, and all of them can be expanded: then types
agree. -/
structure Agreeing (src : Source) (marks : List TypeId) : Prop where
  wide : ∀ id signed w, src.types.get? id = some (.int signed w) → 1 < w
  unmarked : marks = []
  expandable : Expandable src.types

/-- What the code of a function with these parameters is made in. -/
def setup (src : Source) (marks : List TypeId) (params : List Parameter) : Setup where
  closed := True
  strict := src.Agreeing marks
  closed_of_strict _ := trivial
  src := src
  marks := marks
  params := params
  types := ((List.range src.types.size).map Handle.mk).filterMap (definition? src.types marks)
  funs := src.signatures marks

theorem setup_sound (h : src.types.Usable) (marks : List TypeId) (params : List Parameter) :
    (src.setup marks params).Sound where
  usable := h
  named _ id name u v ty hid hst hv hagg := by
    have hmem : id ∈ (List.range src.types.size).map (Handle.mk : Nat → TypeId) :=
      mem_map.mpr ⟨id.index, mem_range.mpr (Interner.get?_lt hid), rfl⟩
    exact mem_filterMap.mpr ⟨id, hmem, definition?_eq hid hst hv hagg⟩
  funs _ fn f hf := by
    change src.funs.get? fn = some f at hf
    have hmem : fn ∈ src.funs.handles :=
      mem_map.mpr ⟨fn.index, mem_range.mpr (Arena.get?_lt hf), rfl⟩
    refine mem_filterMap.mpr ⟨fn, hmem, ?_⟩
    rw [hf]
    rfl
  transparent hstrict id v ty hst hv hagg := by
    change spelling src.types marks id = spelling src.types marks v
    rw [hstrict.unmarked]
    exact hstrict.expandable.spelled_as h hst hv hagg
  wide hstrict := hstrict.wide

/-! ## (4) Modules -/

/-- The code is that of a function of the context. -/
def Yields (src : Source) (marks : List TypeId) (code : FunCode) : Prop :=
  ∃ fn f, src.funs.get? fn = some f ∧ code.name = f.name ∧
    code.type = (src.setup marks f.signature.params).signatureCode f.signature ∧
    (src.setup marks f.signature.params).AcceptsFun code

section Modules

variable (h : src.types.Usable)
  (hsig : ∀ fn f, src.funs.get? fn = some f → f.signature.Proper src.types)
  (hwell : src.context.WellTyped)
include h hsig hwell

theorem ends_funCodes (marks : List TypeId) : ∀ fns : List FunId,
    (∀ fn ∈ fns, ∃ f, src.funs.get? fn = some f) →
    Ends (fns.mapM (funCode src)) marks fun codes marks' => marks' = marks ∧
      codes.map (fun code => (code.name, code.type)) = fns.filterMap (fun fn =>
        (src.funs.get? fn).map fun f => (f.name, (src.setup marks []).signatureCode f.signature)) ∧
      ∀ code ∈ codes, src.Yields marks code
  | [], _ => by
    simp only [mapM_nil, ends_pure]
    exact ⟨trivial, rfl, forall_mem_nil _⟩
  | fn :: rest, hfns => by
    obtain ⟨f, hf⟩ := hfns fn (.head _)
    have hsound := setup_sound h marks f.signature.params
    have hcode := ends_funCode hsound trivial hf (hsig fn f hf) (fun body hb => (hwell fn f body hf hb).2) rfl
    simp only [List.mapM_cons, ends_bind, ends_pure]
    refine Ends.mono hcode fun code marks1 h1 => ?_
    obtain ⟨rfl, hname, htype, haccepts⟩ := h1
    refine (ends_funCodes _ rest fun g hg => hfns g (.tail _ hg)).mono fun codes marks2 h2 => ?_
    obtain ⟨rfl, hcodes, hyields⟩ := h2
    refine ⟨rfl, ?_, fun c hc => ?_⟩
    · rw [map_cons, hcodes, hname, htype, List.filterMap_cons_some (by rw [hf]; rfl)]
      rfl
    · rcases mem_cons.mp hc with rfl | hc
      · exact ⟨fn, f, hf, hname, htype, haccepts⟩
      · exact hyields c hc

theorem ends_moduleCode (name triple : String) (marks : List TypeId) :
    Ends (moduleCode src name triple) marks fun m marks' => marks' = marks ∧ m.name = name ∧ m.triple = triple ∧
      m.types = (src.setup marks []).types ∧ m.signatures = src.signatures marks ∧
      ∀ code ∈ m.funs, src.Yields marks code := by
  simp only [moduleCode, ends_bind, ends_pure]
  rw [ends_iff_of_eq (typeDefs_eq_ok h marks fun id hid => ?_)]
  · refine (ends_funCodes h hsig hwell _ _ fun fn hfn => ?_).mono fun codes marks2 h2 => ?_
    · obtain ⟨i, hi, rfl⟩ := mem_map.mp hfn
      exact Arena.get?_of_lt (mem_range.mp hi)
    · exact ⟨h2.1, trivial, trivial, rfl, h2.2.1, h2.2.2⟩
  · obtain ⟨i, hi, rfl⟩ := mem_map.mp hid
    exact mem_range.mp hi

end Modules

end Source

theorem Generator.generate_of_code {g : Generator} {m : ModuleCode}
    (h : moduleCode { context := c, comments := g.comments } name g.triple g.expanding = .ok m g.expanding) :
    g.generate c name = (.ok m.text, g) := by
  obtain ⟨text, marks, hrun, rfl, rfl⟩ : Ends (ModuleCode.text <$>
      moduleCode { context := c, comments := g.comments } name g.triple) g.expanding
      fun text marks' => text = m.text ∧ marks' = g.expanding := by
    rw [ends_map]
    exact ⟨m, g.expanding, h, rfl, rfl⟩
  unfold Generator.generate Generator.run
  rw [hrun]

/-- A well-typed context has a module, and a generator that makes it is left as it was. -/
theorem generate_eq (h : c.types.Usable) (hsig : ∀ fn f, c.funs.get? fn = some f → f.signature.Proper c.types)
    (hwell : c.WellTyped) (g : Generator) (name : String) : ∃ text, g.generate c name = (.ok text, g) := by
  obtain ⟨m, marks, hrun, hmarks, -⟩ :=
    @Source.ends_moduleCode { context := c, comments := g.comments } h hsig hwell name g.triple g.expanding
  exact ⟨m.text, Generator.generate_of_code (hmarks ▸ hrun)⟩

end BlockCompiler.Target
