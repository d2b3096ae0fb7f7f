/-
  BlockCompiler.Proofs.Callees — how callees are spelled.

  A call is written with the type of its result and those of its arguments, and so implies a
  type for its callee. The callee has the type that it was defined with.

  (1) The two agree, unless an alias on the way from the type of the callee to its signature is
      met again within this signature (`lowerModule_callees`): it is then spelled `i8` there, but
      is expanded once more where an argument is spelled.
  (2) Two function types that take each other are an example (`mutual_callee_misspelled`).
-/
import BlockCompiler.Proofs.Expansion
import BlockCompiler.Proofs.Pieces

namespace BlockCompiler

open TypeTable (StandsFor)
open Relation (ReflTransGen)

namespace Target

theorem typeText_eq {c : Context} (h : c.types.Usable) {id : TypeId} (hid : c.types.Proper id) (g : Generator) :
    g.typeText c id = (.ok (spelling c.types g.expanding id).text, g) := by
  have hrun : (CodeType.text <$> spellType c.types id) g.expanding =
      .ok (spelling c.types g.expanding id).text g.expanding := by
    obtain ⟨text, marks, he, rfl, rfl⟩ : Ends (CodeType.text <$> spellType c.types id) g.expanding
        fun text marks => text = (spelling c.types g.expanding id).text ∧ marks = g.expanding := by
      rw [ends_map, ends_iff_of_eq (spellType_eq h hid _)]
      exact ⟨rfl, rfl⟩
    exact he
  unfold Generator.typeText Generator.run
  rw [hrun]

end Target

/-- The types that a call is written with: those of the callee, the arguments and the result. -/
def Value.callTypes? : Value → Option (TypeId × List TypeId × TypeId)
  | .call callee args ty _ => some (callee.ty, args.map (·.ty), ty)
  | _ => none

theorem Value.eq_call {v : Value} {f ty : TypeId} {args : List TypeId} (h : v.callTypes? = some (f, args, ty)) :
    ∃ callee values span, v = .call callee values ty span ∧ callee.ty = f ∧ values.map (·.ty) = args := by
  cases v with
  | call callee values ty' span =>
    cases h
    exact ⟨callee, values, span, rfl, rfl, rfl⟩
  | _ => cases h

theorem Value.Typed.call_proper {σ : Site} (hs : σ.types.Sound) {callee : Value} {args : List Value} {ty : TypeId}
    {span : Span} (h : Value.Typed σ (.call callee args ty span)) :
    ∀ id ∈ callee.ty :: ty :: args.map (·.ty), σ.types.Proper id := by
  intro id hid
  have hresult : σ.types.Proper ty := h.proper hs
  cases h with
  | call hcallee hargs _ _ _ =>
    rcases List.mem_cons.mp hid with rfl | hid
    · exact hcallee.proper hs
    · rcases List.mem_cons.mp hid with rfl | hid
      · exact hresult
      · obtain ⟨a, ha, rfl⟩ := List.mem_map.mp hid
        exact (hargs a ha).proper hs

namespace Lowering

open Target

variable {cfg : Settings} {m : Surface.Module} {journal : Log.Journal} {fns : List FunId} {s' : State}

theorem usable_of_lowerModule (h : lowerModule cfg m { journal } = .ok (.ok fns) s') : s'.types.Usable := by
  obtain ⟨hcomplete, herr⟩ := complete_of_lowerModule h
  obtain ⟨hdefined, hacyclic, -⟩ := hcomplete.typed herr
  exact ⟨hcomplete.sound.types, hacyclic, hdefined⟩

/-- The type of a callee is spelled as the type that the call implies, unless an alias that it
is reached through is met again in the signature. -/
theorem lowerModule_callees (h : lowerModule cfg m { journal } = .ok (.ok fns) s') {b : BlockId} {block : Block}
    (hget : s'.context.blocks.get? b = some block) {v : Value} (hv : v ∈ block.values) {callee : Value}
    {args : List Value} {ty : TypeId} {span : Span} (hn : .call callee args ty span ∈ v.nodes) (g : Generator)
    (hg : g.expanding = []) :
    ∃ (text : TypeId → String) (s : TypeId) (signature : Signature),
      (∀ id ∈ callee.ty :: ty :: args.map (·.ty), g.typeText s'.context id = (.ok (text id), g)) ∧
      StandsFor s'.context.types callee.ty s ∧ s'.context.types.get? s = some (.func signature) ∧
      ((∀ x, Passes s'.context.types callee.ty x → ¬ ReflTransGen (Opens s'.context.types) s x) →
        text callee.ty = text ty ++ " (" ++ ", ".intercalate (args.map fun a => text a.ty) ++ ")*") := by
  have husable := usable_of_lowerModule h
  obtain ⟨f, htyped⟩ := value_typed_of_lowerModule h hget hv
  have hcall := htyped.of_mem_nodes hn
  have hproper := hcall.call_proper husable.sound
  cases hcall with
  | @call _ _ s signature _ hcallee hargs hst hs htypes =>
    refine ⟨fun id => (spelling s'.types [] id).text, s, signature, fun id hid => ?_, hst, hs, fun hfree => ?_⟩
    · rw [typeText_eq husable (hproper id hid), hg]
    · have hproperSig := husable.sound.proper_of_get? hs (by simp)
      have hspell : spelling s'.types [] callee.ty =
          .func (spelling s'.types [] signature.result)
            (signature.params.map fun p => spelling s'.types [] p.ty) := by
        rw [spelling_standsFor husable hst hs hproperSig rfl [] fun x hx => ⟨List.not_mem_nil, hfree x hx⟩]
        exact spelling_eq husable hproperSig hs rfl []
      have hparams : (signature.params.map fun p => spelling s'.types [] p.ty) =
          args.map fun a => spelling s'.types [] a.ty := by
        have hmap := congrArg (List.map (spelling s'.types [])) htypes
        rw [List.map_map, List.map_map] at hmap
        exact hmap.symm
      simp only [hspell, CodeType.text, CodeType.texts_eq, hparams, List.map_map, Function.comp_def]

/-- A type of functions that take a node, which has such a function as its only field. -/
def visitorModule : Surface.Module where
  name := "visitor"
  file := 0
  types := [⟨"Node", .struct [⟨.named "Visitor" .none, "visit"⟩] .none, .none⟩,
    ⟨"Visitor", .func [⟨.ptr (.named "Node" .none) .none, none⟩] (.int ⟨true, .w32⟩ .none) .none, .none⟩]
  funs := [⟨"apply", [⟨.named "Visitor" .none, some "v"⟩, ⟨.ptr (.named "Node" .none) .none, some "n"⟩],
    .int ⟨true, .w32⟩ .none, {},
    some [.ret (some (.call (.name "v" .none) [.name "n" .none] .none)) .none], .none⟩]

/-- There is a call in the first block with these types of callee, arguments and result. -/
def callsWith (c : Context) (types : TypeId × List TypeId × TypeId) : Bool :=
  (c.blocks.get? ⟨0⟩).any fun block => block.values.any (·.callTypes? = some types)

theorem exists_call {c : Context} {f ty : TypeId} {args : List TypeId} (h : callsWith c (f, args, ty) = true) :
    ∃ block callee values span, c.blocks.get? ⟨0⟩ = some block ∧ .call callee values ty span ∈ block.values ∧
      callee.ty = f ∧ values.map (·.ty) = args := by
  obtain ⟨block, hget, htest⟩ := Option.any_eq_true _ _ |>.mp h
  obtain ⟨v, hv, htest⟩ := List.any_eq_true.mp htest
  obtain ⟨callee, values, span, rfl, hcallee, hargs⟩ := Value.eq_call (of_decide_eq_true htest)
  exact ⟨block, callee, values, span, hget, hv, hcallee, hargs⟩

theorem visitor_callee : ∃ fns s', lowerModule {} visitorModule {} = .ok (.ok fns) s' ∧
    ∃ callee args ty span, (∃ b block, s'.context.blocks.get? b = some block ∧
        .call callee args ty span ∈ block.values) ∧ ∃ text : TypeId → String,
      (∀ id ∈ callee.ty :: ty :: args.map (·.ty), Generator.typeText {} s'.context id = (.ok (text id), {})) ∧
      text callee.ty = text ty ++ " (" ++ ", ".intercalate (args.map fun a => text a.ty) ++ ")*" := by
  have hrun : lowersTo visitorModule fun s => decide (callsWith s.context (⟨14⟩, [⟨16⟩], ⟨2⟩) = true ∧
      s.types.get? ⟨14⟩ = some (.named "Visitor" ⟨17⟩) ∧
      s.types.get? ⟨17⟩ = some (.func ⟨[⟨⟨16⟩, none⟩], ⟨2⟩⟩) ∧
      ∀ a ∈ [(⟨17⟩ : TypeId), ⟨16⟩, ⟨13⟩, ⟨2⟩], ∀ b ∈ openedBy s.types a,
        b ∈ [(⟨17⟩ : TypeId), ⟨16⟩, ⟨13⟩, ⟨2⟩]) := by decide +kernel
  obtain ⟨fns, s', h, htest⟩ := exists_of_lowersTo hrun
  obtain ⟨hcall, hvisitor, hsignature, hclosed⟩ := of_decide_eq_true htest
  obtain ⟨block, callee, args, span, hget, hv, hcallee, hargs⟩ := exists_call hcall
  obtain ⟨text, s, signature, htext, hst, hs, hagree⟩ := lowerModule_callees h hget hv (Value.self_mem_nodes _) {} rfl
  refine ⟨fns, s', h, callee, args, _, span, ⟨_, block, hget, hv⟩, text, htext, hagree fun x hx => ?_⟩
  rw [hcallee] at hst hx
  obtain rfl : s = ⟨17⟩ := hst.unique (.through hvisitor (.itself hsignature rfl))
  have hx14 : x = ⟨14⟩ := by
    cases hx with
    | here => rfl
    | next he hx =>
      cases hvisitor.symm.trans he
      cases hx with
      | here he => cases hsignature.symm.trans he
      | next he _ => cases hsignature.symm.trans he
  exact not_opens_of_closed hclosed List.mem_cons_self (by simp [hx14])

/-- Two types of functions, each of which takes the other. -/
def mutualModule : Surface.Module where
  name := "mutual"
  file := 0
  types := [⟨"A", .func [⟨.named "B" .none, none⟩] (.int ⟨true, .w32⟩ .none) .none, .none⟩,
    ⟨"B", .func [⟨.named "A" .none, none⟩] (.int ⟨true, .w32⟩ .none) .none, .none⟩]
  funs := [⟨"apply", [⟨.named "A" .none, some "a"⟩, ⟨.named "B" .none, some "b"⟩], .int ⟨true, .w32⟩ .none, {},
    some [.ret (some (.call (.name "a" .none) [.name "b" .none] .none)) .none], .none⟩]

/-- The callee is spelled like the argument, which it takes. -/
theorem mutual_callee_misspelled : ∃ fns s', lowerModule {} mutualModule {} = .ok (.ok fns) s' ∧
    ∃ callee args ty span, (∃ b block, s'.context.blocks.get? b = some block ∧
        .call callee args ty span ∈ block.values) ∧ ∃ text : TypeId → String,
      (∀ id ∈ callee.ty :: ty :: args.map (·.ty), Generator.typeText {} s'.context id = (.ok (text id), {})) ∧
      text callee.ty ≠ text ty ++ " (" ++ ", ".intercalate (args.map fun a => text a.ty) ++ ")*" := by
  have hrun : lowersTo mutualModule fun s => callsWith s.context (⟨13⟩, [⟨14⟩], ⟨2⟩) ∧
      (spelling s.types [] ⟨2⟩).text = "i32" ∧
      ∀ id ∈ [(⟨13⟩ : TypeId), ⟨14⟩], (spelling s.types [] id).text = "i32 (i32 (i8)*)*" := by decide +kernel
  obtain ⟨fns, s', h, htest⟩ := exists_of_lowersTo hrun
  obtain ⟨hcall, hresult, hfuns⟩ := of_decide_eq_true htest
  obtain ⟨block, callee, args, span, hget, hv, hcallee, hargs⟩ := exists_call hcall
  obtain ⟨f, htyped⟩ := value_typed_of_lowerModule h hget hv
  refine ⟨fns, s', h, callee, args, _, span, ⟨_, block, hget, hv⟩, fun id => (spelling s'.types [] id).text,
    fun id hid => typeText_eq (usable_of_lowerModule h) ?_ {}, ?_⟩
  · exact (htyped.of_mem_nodes (Value.self_mem_nodes _)).call_proper (usable_of_lowerModule h).sound id hid
  · have hargTexts : (args.map fun a => (spelling s'.types [] a.ty).text) = ["i32 (i32 (i8)*)*"] := by
      have hmap := congrArg (List.map fun id => (spelling s'.types [] id).text) hargs
      rw [List.map_map] at hmap
      refine hmap.trans ?_
      simp only [List.map_cons, List.map_nil, hfuns ⟨14⟩ (by simp)]
    beta_reduce
    rw [hargTexts, hresult, hcallee, hfuns ⟨13⟩ (by simp)]
    decide

end Lowering

end BlockCompiler
