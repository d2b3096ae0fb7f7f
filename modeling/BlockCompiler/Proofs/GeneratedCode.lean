/-
  BlockCompiler.Proofs.GeneratedCode — the code of a lowered module.

  The module of a lowered context is closed and defines nothing twice
  (`exists_code_of_lowerModule`). If its aliases can be expanded, it is typed (`generate_typed`).
-/
import BlockCompiler.Proofs.Callees
import BlockCompiler.Proofs.LoweredNames

namespace BlockCompiler.Target

namespace Source

variable {src : Source} {marks : List TypeId} {m : ModuleCode} {d : String × CodeType}

theorem scene_eq (htypes : m.types = (src.setup marks []).types) (hfuns : m.signatures = src.signatures marks)
    {code : FunCode} {f : Function}
    (htype : code.type = (src.setup marks f.signature.params).signatureCode f.signature) :
    m.scene code = (src.setup marks f.signature.params).scene := by
  have hparams : code.params = f.signature.params.map fun p => spelling src.types marks p.ty :=
    (CodeType.func.inj htype).2
  unfold ModuleCode.scene
  rw [htypes, hfuns, hparams]
  rfl

theorem exists_of_mem_types (h : src.types.Usable) (hd : d ∈ (src.setup marks []).types)
    : ∃ id u v ty, src.types.get? id = some (.named d.1 u) ∧
      src.types.get? v = some ty ∧ d.2 = codeOf src.types (spelling src.types marks) ty := by
  obtain ⟨id, -, hid⟩ := List.mem_filterMap.mp hd
  obtain ⟨u, v, ty, hid, -, hv, -, hcode⟩ := definition?_eq_some h hid
  exact ⟨id, u, v, ty, hid, hv, hcode⟩

theorem declares_types (h : src.types.Usable) (hd : d ∈ (src.setup marks []).types) : (src.setup marks []).scene.Declares d.2 := by
  intro name hname
  obtain ⟨id, u, v, ty, -, hv, hcode⟩ := exists_of_mem_types h hd
  rw [hcode] at hname
  obtain ⟨part, hpart, hname⟩ := names_codeOf hname
  have hproper := h.sound.proper_mention hv (Ty.not_named_of_mem_opened hpart) (Ty.mem_mentions_of_mem_opened hpart)
  exact Setup.declares_code (setup_sound h marks []) hproper trivial name hname

/-- No two aliases have the same name, so no two definitions have. -/
theorem nodup_types (h : src.types.Usable) (hkeyed : src.types.Keyed) (marks : List TypeId) :
    ((src.setup marks []).types.map (·.1)).Nodup := by
  have hids : ((List.range src.types.size).map (Handle.mk : Nat → TypeId)).Nodup :=
    List.nodup_range.map fun _ _ he => Handle.mk.inj he
  change ((List.filterMap (definition? src.types marks) _).map (·.1)).Nodup
  rw [List.map_filterMap]
  refine hids.filterMap fun id id' name hid hid' => ?_
  obtain ⟨⟨_, T⟩, hd, rfl⟩ := Option.map_eq_some_iff.mp hid
  obtain ⟨⟨_, T'⟩, hd', hname⟩ := Option.map_eq_some_iff.mp hid'
  obtain ⟨u, -, -, hget, -⟩ := definition?_eq_some h hd
  obtain ⟨u', -, -, hget', -⟩ := definition?_eq_some h hd'
  refine hkeyed.single id id' _ _ hget hget' ?_
  cases hname
  rfl

theorem nodup_signatures (hfuns : src.context.DistinctFuns) (marks : List TypeId) :
    ((src.signatures marks).map (·.1)).Nodup := by
  have hids : src.funs.handles.Nodup := List.nodup_range.map fun _ _ he => Handle.mk.inj he
  unfold signatures
  rw [List.map_filterMap]
  refine hids.filterMap fun fn fn' name hfn hfn' => ?_
  simp only [Option.map_map, Option.mem_def, Option.map_eq_some_iff] at hfn hfn'
  obtain ⟨f, hf, rfl⟩ := hfn
  obtain ⟨f', hf', hname⟩ := hfn'
  exact hfuns fn fn' f f' hf hf' hname.symm

theorem mem_signatures {fn : FunId} {f : Function} (hf : src.funs.get? fn = some f) :
    f.name ∈ (src.signatures marks).map (·.1) := by
  refine List.mem_map.mpr ⟨_, List.mem_filterMap.mpr ⟨fn, ?_, by rw [hf]; rfl⟩, rfl⟩
  exact List.mem_map.mpr ⟨fn.index, List.mem_range.mpr (Arena.get?_lt hf), rfl⟩

end Source

/-- The names that a module was made from. -/
structure ModuleCode.Named (N : String → Prop) (m : ModuleCode) : Prop where
  types : ∀ d ∈ m.types, N d.1
  funs : ∀ f ∈ m.funs, N f.name
  notes : ∀ f ∈ m.funs, ∀ note ∈ f.notes, ∃ x, N x ∧ (note = x ∨ note = "live " ++ x)

end BlockCompiler.Target

namespace BlockCompiler.Lowering

open Surface (Module)
open Target

section

variable {cfg : Settings} {m : Module} {journal : Log.Journal} {fns : List FunId} {s' : State}

/-- A lowered module has code that is closed and defines nothing twice. Its names come from the
module, its functions are those of the module, and it is typed if all aliases can be expanded. -/
theorem exists_code_of_lowerModule (h : lowerModule cfg m { journal } = .ok (.ok fns) s') {N : String → Prop}
    (hreserved : ∀ n ∈ reservedNames, N n) (hN : ∀ n ∈ moduleBinders m, N n) (g : Generator) (name : String) :
    ∃ code : ModuleCode, moduleCode { context := s'.context, comments := g.comments } name g.triple g.expanding =
        .ok code g.expanding ∧ code.name = name ∧ code.triple = g.triple ∧ code.Closed ∧ code.Distinct ∧ code.Named N ∧
      (∀ fn f, s'.funs.get? fn = some f → f.name ∈ code.funs.map (·.name)) ∧
      (g.expanding = [] → Expandable s'.types → code.Typed) := by
  obtain ⟨hcomplete, herr⟩ := complete_of_lowerModule h
  obtain ⟨-, -, hwell⟩ := hcomplete.typed herr
  have husable := usable_of_lowerModule h
  have hnamed := named_of_lowerModule h hreserved hN
  let src : Source := { context := s'.context, comments := g.comments }
  have hwide : ∀ id signed w, src.types.get? id = some (.int signed w) → 1 < w := fun _ _ _ hid => by
    have hwidth := width_of_lowerModule h hid
    simp only [List.mem_cons, List.not_mem_nil, or_false] at hwidth
    omega
  obtain ⟨code, marks, hrun, hmarks, hname, htriple, htypes, hfuns, hyields⟩ :=
    @Source.ends_moduleCode src husable hcomplete.sound.signatures hwell name g.triple g.expanding
  subst hmarks
  have hscene : ∀ {f : Function} {code' : FunCode},
      code'.type = (src.setup g.expanding f.signature.params).signatureCode f.signature →
      code.scene code' = (src.setup g.expanding f.signature.params).scene := Source.scene_eq htypes hfuns
  refine ⟨code, hrun, hname, htriple, ⟨?_, ?_⟩, ⟨?_, ?_, ?_, ?_⟩, ⟨?_, ?_, ?_⟩, ?_, ?_⟩
  · rw [htypes]
    exact fun d hd => Source.declares_types husable hd
  · intro f hf
    obtain ⟨fn, f', hf', -, htype, haccepts⟩ := hyields f hf
    rw [hscene htype]
    exact haccepts.closed
  · rw [htypes]
    exact Source.nodup_types husable (keyed_of_lowerModule h) g.expanding
  · obtain ⟨pieces, hassembled⟩ := assembled_of_lowerModule h
    have hnodup := @Source.nodup_signatures src hassembled.names g.expanding
    rw [← hfuns, ModuleCode.signatures, List.map_map] at hnodup
    exact hnodup
  · intro f hf
    obtain ⟨_, _, _, _, _, haccepts⟩ := hyields f hf
    exact haccepts.locals
  · intro f hf
    obtain ⟨_, _, _, _, _, haccepts⟩ := hyields f hf
    exact haccepts.labels
  · intro d hd
    rw [htypes] at hd
    obtain ⟨id, u, -, -, hid, -⟩ := Source.exists_of_mem_types husable hd
    exact hnamed.aliases id d.1 u hid
  · intro f hf
    obtain ⟨fn, f', hf', hname', -⟩ := hyields f hf
    rw [hname']
    exact hnamed.funs fn f' hf' _ (.head _)
  · intro f hf note hnote
    obtain ⟨fn, f', hf', -, -, haccepts⟩ := hyields f hf
    obtain ⟨v, var, hvar, hnote⟩ := haccepts.notes note hnote
    exact ⟨var.name, hnamed.vars v var hvar, hnote⟩
  · intro fn f hf
    have hmem := @Source.mem_signatures src g.expanding fn f hf
    rw [← hfuns, ModuleCode.signatures, List.map_map] at hmem
    exact hmem
  · intro hmarks hexpandable f hf
    obtain ⟨fn, f', hf', -, htype, haccepts⟩ := hyields f hf
    rw [hscene htype]
    exact haccepts.typed ⟨hwide, hmarks, hexpandable⟩

end

/-- The aliases that are expanded lead into a list of types, which holds none of them. -/
theorem expandable_of_closed {t : TypeTable} {l : List TypeId} (hclosed : ∀ a ∈ l, ∀ b ∈ openedBy t a, b ∈ l)
    (hl : ∀ i < t.size, (t.get? ⟨i⟩).any Ty.isNamed = true → ∀ u ∈ openedBy t ⟨i⟩, u ∈ l ∧ (⟨i⟩ : TypeId) ∉ l) :
    Expandable t := by
  intro id name u hid hagg
  have hopened : u ∈ openedBy t id := Opens.mem_openedBy (.expand hid hagg)
  have hnamed : (t.get? id).any Ty.isNamed = true := by rw [hid]; rfl
  obtain ⟨hu, hnot⟩ := hl id.index (Interner.get?_lt hid) hnamed u hopened
  exact not_opens_of_closed hclosed hu hnot

end BlockCompiler.Lowering
