/-
  BlockCompiler.Proofs.TypeDefs — the types of a module.

  Types are declared, then defined, then searched for cycles.

  (1) An alias is defined at most once: those that are to be defined are different and stand
      for nothing yet, so that defining them never fails (`defineTypes_ends`).
  (2) Whatever was lowered before, a module's types change nothing but types and diagnostics
      (`lowerTypes_retypes`). Where they are the first types and there is no error, every alias
      stands for a type, and no type contains itself (`lowerTypes_ends`).
-/
import BlockCompiler.Proofs.Effects
import BlockCompiler.Lowering.Module

namespace BlockCompiler

open Surface (TypeDef)
open TypeTable (Grows Sound Acyclic)
open Relation (TransGen)

variable {name : String} {id u : TypeId} {t' : TypeTable} {st : Typing}

/-! ## Declaring and defining one alias -/

namespace TypeTable

/-- The same handles name aliases, under the same names. -/
def SameAliases (t t' : TypeTable) : Prop :=
  ∀ id name, (∃ u, t.get? id = some (.named name u)) ↔ ∃ u, t'.get? id = some (.named name u)

theorem SameAliases.trans {t t' t'' : TypeTable} (h : t.SameAliases t') (h' : t'.SameAliases t'') : t.SameAliases t'' :=
  fun id name => (h id name).trans (h' id name)

theorem sameAliases_of_adds {st' : Typing} (h : st.Adds st') : st.types.SameAliases st'.types := fun id name =>
  ⟨fun ⟨u, hu⟩ => ⟨u, h.grows _ _ hu⟩, fun ⟨u, hu⟩ => ⟨u, h.aliases id name u hu⟩⟩

variable {t : TypeTable}

theorem insert_alias (h : t.findAlias? name = none) :
    t.insert (.named name .invalid) = (⟨t.size⟩, ⟨t.items.push (.named name .invalid)⟩) := by
  rcases insert_cases t (.named name .invalid) with ⟨id, ty, -, hget, hkey⟩ | ⟨he, -⟩
  · exact absurd hkey (find?_eq_none h hget)
  · exact he

theorem Sound.push_alias (hs : Sound t) (h : t.findAlias? name = none) :
    Sound ⟨t.items.push (.named name .invalid)⟩ := by
  have hinsert : Sound (t.insert (.named name .invalid)).2 := by
    refine hs.insert (by simp) (fun m hm => ?_) (by simp [Ty.isNamed])
    rw [List.mem_singleton.mp hm]
    exact hs.invalid_lt
  rwa [insert_alias h] at hinsert

theorem defineAlias_ok (h : t.get? id = some (.named name .invalid)) (u : TypeId) :
    ∃ t', t.defineAlias id u = .ok t' ∧ t'.size = t.size ∧
      ∀ id', t'.get? id' = if id' = id then some (.named name u) else t.get? id' := by
  refine ⟨⟨t.items.setIfInBounds id.index (.named name u)⟩, ?_, by simp [Interner.size], fun id' => ?_⟩
  · have hrefine : t.refine id (.named name u) = .ok ⟨t.items.setIfInBounds id.index (.named name u)⟩ :=
      bind_ok (Interner.get_eq_ok.mpr h) (if_pos rfl)
    exact bind_ok (Interner.get_eq_ok.mpr h) ((if_pos rfl).trans hrefine)
  · have hlt : id.index < t.items.size := Interner.get?_lt h
    have heq : id' = id ↔ id.index = id'.index := by
      obtain ⟨i⟩ := id
      obtain ⟨j⟩ := id'
      simp [eq_comm]
    simp only [Interner.get?, Array.getElem?_setIfInBounds, heq, hlt, if_true]

theorem SameAliases.define {v : TypeId} (h : t.get? id = some (.named name v))
    (hget : ∀ id', t'.get? id' = if id' = id then some (.named name u) else t.get? id') : t.SameAliases t' := by
  intro id' name'
  rw [hget]
  split
  · rename_i heq
    subst heq
    rw [h]
    simp
  · exact Iff.rfl

/-- Defining an alias keeps a table sound. -/
theorem Sound.define (hs : Sound t) {v : TypeId} (h : t.get? id = some (.named name v)) (hu : u.index < t.size)
    (hsize : t'.size = t.size) (hget : ∀ id', t'.get? id' = if id' = id then some (.named name u) else t.get? id') :
    Sound t' := by
  have hother : ∀ {id' : TypeId} {ty : Ty}, ty.isNamed = false → (t'.get? id' = some ty ↔ t.get? id' = some ty) := by
    intro id' ty hn
    rw [hget]
    split
    · rename_i heq
      subst heq
      rw [h]
      constructor <;> (intro he; cases he; simp [Ty.isNamed] at hn)
    · exact Iff.rfl
  refine ⟨fun i ty hi => ?_, fun id' ty hty hn => ?_, fun id' name' u' hty => ?_, fun id' hty => ?_⟩
  · have hplain : ∀ ty ∈ Ty.primitives, ty.isNamed = false := by decide
    exact (hother (hplain ty (List.mem_of_getElem? hi))).mpr (hs.primitive i ty hi)
  · exact hs.earlier id' ty ((hother hn).mp hty) hn
  · rw [hsize]
    rw [hget] at hty
    split at hty
    · cases hty
      exact hu
    · exact hs.issued id' name' u' hty
  · exact hs.onlyInvalid id' ((hother rfl).mp hty)

end TypeTable

namespace Lowering

open State

/-! ## States with nothing but types -/

structure State.Bare (s : State) : Prop where
  types : s.types.Sound
  funs : s.funs = .empty
  blocks : s.blocks = .empty
  vars : s.vars = .empty
  scopes : s.scopes = []
  functions : s.functions = []
  counted : s.Counted

variable {cfg : Settings} {file : FileId} {s s' s'' : State}

theorem State.errors_reported {d : Diagnostic} (h : d.isError = true) : (s.reported cfg d).errors = s.errors + 1 := by
  simp [State.reported, h]

/-- Nothing but types, journal and diagnostics changed. -/
structure State.Retypes (s s' : State) : Prop where
  types : s'.types.Sound
  size : s.types.size ≤ s'.types.size
  rest : s' = { s.withTyping s'.typing with diags := s'.diags, errors := s'.errors }
  counted : s.Counted → s'.Counted
  errors : s.errors ≤ s'.errors

namespace State.Retypes

theorem refl (h : s.types.Sound) : s.Retypes s := ⟨h, Nat.le_refl _, rfl, id, Nat.le_refl _⟩

theorem trans (h : s.Retypes s') (h' : s'.Retypes s'') : s.Retypes s'' := by
  refine ⟨h'.types, Nat.le_trans h.size h'.size, ?_, h'.counted ∘ h.counted, Nat.le_trans h.errors h'.errors⟩
  rw [h'.rest, h.rest]
  rfl

theorem typing (hs : st.types.Sound) (hsize : s.types.size ≤ st.types.size) : s.Retypes (s.withTyping st) :=
  ⟨hs, hsize, rfl, id, Nat.le_refl _⟩

theorem reported (h : s.Retypes s') {d : Diagnostic} (hd : d.isError = true) : s.Retypes (s'.reported cfg d) := by
  refine h.trans ⟨h.types, Nat.le_refl _, rfl, fun hc => hc.reported d, ?_⟩
  rw [errors_reported hd]
  exact Nat.le_succ _

theorem bare (h : s.Retypes s') (hb : s.Bare) : s'.Bare := by
  have hc := h.counted hb.counted
  rw [h.rest] at hc ⊢
  exact { hb with types := h.types, counted := hc }

theorem sound (h : s.Retypes s') (hs : s.Sound) : s'.Sound := by
  rw [h.rest]
  refine ⟨h.types, fun v var hv => Nat.lt_of_lt_of_le (hs.vars v var hv) h.size, fun fn f hf m hm => ?_,
    hs.functions, hs.scopes⟩
  obtain ⟨hlt, hne⟩ := hs.signatures fn f hf m hm
  exact ⟨Nat.lt_of_lt_of_le hlt h.size, hne⟩

theorem scopes_eq (h : s.Retypes s') : s'.scopes = s.scopes := by rw [h.rest]; rfl

end State.Retypes

/-! ## (1) Declaring and defining -/

/-- What declaring types does to the table. -/
structure Announced (t t' : TypeTable) (declared : List (TypeId × TypeDef)) : Prop where
  grows : Grows t t'
  fresh : ∀ p ∈ declared, t.size ≤ p.1.index
  nodup : (declared.map (·.1)).Nodup
  undefined : ∀ p ∈ declared, ∃ name, t'.get? p.1 = some (.named name TypeId.invalid)
  aliases : ∀ id name u, t'.get? id = some (.named name u) →
    t.get? id = some (.named name u) ∨ id ∈ declared.map (·.1)

theorem ends_declareAlias (hfree : s.types.findAlias? name = none) {Q : TypeId → State → Prop}
    (hQ : ∀ journal, Q ⟨s.types.size⟩
      (s.withTyping ⟨⟨s.types.items.push (.named name .invalid)⟩, journal⟩)) :
    Ends (onTyping (Typing.declareAlias cfg.gate name)) s Q := by
  have hinsert : s.typing.types.insert (.named name .invalid) = _ := TypeTable.insert_alias hfree
  simp only [ends_onTyping, Typing.declareAlias, Typing.intern, Typing.note, ends_bind, ends_modifyGet, ends_modify,
    ends_pure, hinsert]
  exact hQ _

/-- Declaring one more alias. -/
theorem Announced.cons {t : TypeTable} {d : TypeDef} {declared : List (TypeId × TypeDef)}
    (h : Announced ⟨t.items.push (.named d.name .invalid)⟩ t' declared) :
    Announced t t' ((⟨t.size⟩, d) :: declared) := by
  have hsize : Interner.size (⟨t.items.push (.named d.name .invalid)⟩ : TypeTable) = t.size + 1 := by
    simp [Interner.size]
  have hfresh : ∀ p ∈ declared, t.size < p.1.index := fun p hp => by
    have := h.fresh p hp
    omega
  refine ⟨(TypeTable.grows_push t _).trans h.grows, ?_, ?_, ?_, fun id name u hid => ?_⟩
  · exact List.forall_mem_cons.mpr ⟨Nat.le_refl _, fun p hp => Nat.le_of_lt (hfresh p hp)⟩
  · rw [List.map_cons, List.nodup_cons]
    refine ⟨fun hmem => ?_, h.nodup⟩
    obtain ⟨p, hp, heq⟩ := List.mem_map.mp hmem
    have hlt := hfresh p hp
    rw [heq] at hlt
    exact Nat.lt_irrefl _ hlt
  · exact List.forall_mem_cons.mpr ⟨⟨d.name, h.grows _ _ (by rw [TypeTable.get?_push, if_pos rfl])⟩, h.undefined⟩
  · rcases h.aliases id name u hid with hid | hid
    · rw [TypeTable.get?_push] at hid
      split at hid
      · rename_i heq
        exact Or.inr (List.mem_cons.mpr (Or.inl (congrArg Handle.mk heq)))
      · exact Or.inl hid
    · exact Or.inr (.tail _ hid)

theorem declareTypes_ends : ∀ (defs : List TypeDef) {s : State}, s.types.Sound →
    Ends (declareTypes cfg file defs) s fun declared s' =>
      s.Retypes s' ∧ Announced s.types s'.types declared
  | [], s, h => by
    simp only [declareTypes, ends_pure]
    exact ⟨.refl h, Grows.refl _, by simp, by simp, by simp, fun _ _ _ hid => Or.inl hid⟩
  | d :: rest, s, h => by
    simp only [declareTypes, ends_bind, ends_get]
    split
    · simp only [ends_bind, ends_report]
      have hretypes : s.Retypes (s.reported cfg (duplicateType file d)) := (Retypes.refl h).reported rfl
      exact (declareTypes_ends rest hretypes.types).mono fun declared s' h' => ⟨hretypes.trans h'.1, h'.2⟩
    · rename_i hfree
      simp only [ends_bind]
      refine ends_declareAlias hfree fun journal => ?_
      have hpush := h.push_alias hfree
      refine (declareTypes_ends rest hpush).mono fun declared s' h' => ?_
      rw [ends_pure]
      exact ⟨(Retypes.typing hpush (TypeTable.grows_push _ _).size_le).trans h'.1, h'.2.cons⟩

/-- What is to be defined is different and stands for nothing yet. -/
structure Pending (t : TypeTable) (ids : List TypeId) : Prop where
  nodup : ids.Nodup
  undefined : ∀ id ∈ ids, ∃ name, t.get? id = some (.named name TypeId.invalid)

/-- All aliases but those that were not to be defined stand for a type. -/
def Settled (t t' : TypeTable) (ids : List TypeId) : Prop :=
  ∀ id name, t'.get? id = some (.named name TypeId.invalid) → id ∉ ids ∧ t.get? id = some (.named name TypeId.invalid)

theorem Settled.cons {st1 : Typing} {t'' : TypeTable} {ids : List TypeId} (hadds : st.Adds st1)
    (hu : u ≠ .invalid)
    (hget : ∀ id', t'.get? id' = if id' = id then some (.named name u) else st1.types.get? id')
    (h : Settled t' t'' ids) : Settled st.types t'' (id :: ids) := by
  intro id' name' hid'
  obtain ⟨hnot, hleft⟩ := h id' name' hid'
  rw [hget] at hleft
  split at hleft
  · cases hleft
    exact absurd rfl hu
  · rename_i hne
    exact ⟨fun hmem => (List.mem_cons.mp hmem).elim hne hnot, hadds.aliases _ _ _ hleft⟩

theorem defineTypes_ends : ∀ (declared : List (TypeId × TypeDef)) {s : State}, s.types.Sound →
    Pending s.types (declared.map (·.1)) → Ends (defineTypes cfg file declared) s fun _ s' =>
      s.Retypes s' ∧ s.types.SameAliases s'.types ∧
        (s'.errors = s.errors → Settled s.types s'.types (declared.map (·.1)))
  | [], s, h, _ => by
    simp only [defineTypes, ends_pure]
    exact ⟨.refl h, fun _ _ => Iff.rfl, fun _ id name hid => ⟨by simp, hid⟩⟩
  | (id, d) :: rest, s, h, hp => by
    obtain ⟨hnot, hnodup⟩ := List.nodup_cons.mp hp.nodup
    obtain ⟨name, hname⟩ := hp.undefined id (.head _)
    have hresolve := Annotation.resolve_judges file d.ty (show TypeTable.Sound s.typing.types from h)
    simp only [defineTypes, resolveType, ends_bind, ends_checking]
    refine hresolve.mono (fun u st hu => ?_) fun e st he => ?_
    · obtain ⟨hadds, hproper⟩ := hu
      have hname1 := hadds.grows _ _ hname
      obtain ⟨t', hdefine, hsize, hget⟩ := TypeTable.defineAlias_ok hname1 u
      have hsound : TypeTable.Sound t' := hadds.sound.define hname1 hproper.1 hsize hget
      have hle : s.types.size ≤ t'.size := hsize ▸ hadds.grows.size_le
      have hpending : Pending t' (rest.map (·.1)) := by
        refine ⟨hnodup, fun id' hid' => ?_⟩
        obtain ⟨name', hname'⟩ := hp.undefined id' (.tail _ hid')
        refine ⟨name', ?_⟩
        rw [hget, if_neg (fun heq : id' = id => hnot (heq ▸ hid'))]
        exact hadds.grows _ _ hname'
      simp only [ends_onTyping, Typing.defineAlias, ends_bind, Typing.ask_ends, ends_modify]
      have hretypes : s.Retypes (s.withTyping ⟨t', st.journal⟩) := .typing hsound hle
      refine ⟨t', hdefine, (defineTypes_ends rest hretypes.types hpending).mono fun _ s' h' => ?_⟩
      obtain ⟨hretypes', haliases, hsettled⟩ := h'
      have hstep := (TypeTable.sameAliases_of_adds hadds).trans (TypeTable.SameAliases.define hname1 hget)
      exact ⟨hretypes.trans hretypes', hstep.trans haliases, fun herr => (hsettled herr).cons hadds hproper.2 hget⟩
    · obtain ⟨hadds, herror⟩ := he
      have hretypes : s.Retypes ((s.withTyping st).reported cfg e) :=
        (Retypes.typing hadds.sound hadds.grows.size_le).reported herror
      have hpending : Pending st.types (rest.map (·.1)) := ⟨hnodup, fun id' hid' => by
        obtain ⟨name', hname'⟩ := hp.undefined id' (.tail _ hid')
        exact ⟨name', hadds.grows _ _ hname'⟩⟩
      simp only [ends_report]
      refine (defineTypes_ends rest hretypes.types hpending).mono fun _ s' h' => ?_
      obtain ⟨hretypes', haliases, -⟩ := h'
      have hle := hretypes'.errors
      rw [errors_reported herror] at hle
      have hlt : s.errors + 1 ≤ s'.errors := hle
      exact ⟨hretypes.trans hretypes', (TypeTable.sameAliases_of_adds hadds).trans haliases, by omega⟩

/-! ## (2) Types without an error -/

theorem rejectCycles_ends : ∀ (declared : List (TypeId × TypeDef)) {s : State}, s.types.Sound →
    (∀ p ∈ declared, ∃ name u, s.types.get? p.1 = some (.named name u)) →
    Ends (rejectCycles cfg file declared) s fun _ s' => s.Retypes s' ∧ s'.context = s.context ∧
      (s'.errors = s.errors → ∀ p ∈ declared, ¬ TransGen (TypeTable.Contains s.types) p.1 p.1)
  | [], s, h, _ => by
    simp only [rejectCycles, ends_pure]
    exact ⟨.refl h, trivial, by simp⟩
  | (id, d) :: rest, s, h, hp => by
    obtain ⟨⟨name, u, hid⟩, hrest⟩ := List.forall_mem_cons.mp hp
    obtain ⟨found, hfound⟩ := h.isCyclic hid
    simp only [rejectCycles, ends_bind, ends_ask]
    refine ⟨found, hfound, ?_⟩
    cases found with
    | true =>
      simp only [if_true, ends_report, ends_bind]
      have hretypes : s.Retypes (s.reported cfg (cyclicType file d)) := (Retypes.refl h).reported rfl
      refine (rejectCycles_ends rest hretypes.types hrest).mono fun _ s' h' => ?_
      obtain ⟨hretypes', hcontext, -⟩ := h'
      have hle := hretypes'.errors
      rw [errors_reported rfl] at hle
      exact ⟨hretypes.trans hretypes', hcontext, by omega⟩
    | false =>
      simp only [Bool.false_eq_true, if_false]
      refine (rejectCycles_ends rest h hrest).mono fun _ s' h' => ?_
      obtain ⟨hretypes, hcontext, hcycles⟩ := h'
      have hself := TypeTable.not_contains_of_isCyclic_false hid hfound
      exact ⟨hretypes, hcontext, fun herr => List.forall_mem_cons.mpr ⟨hself, hcycles herr⟩⟩

/-- The types of a module, whatever was there before. If they are the first and there is no
error, every alias stands for a type, and no type contains itself. -/
theorem lowerTypes_retypes (h : s.types.Sound) (defs : List TypeDef) :
    Ends (lowerTypes cfg file defs) s fun _ s' => s.Retypes s' ∧
      ((∀ id name u, s.types.get? id ≠ some (.named name u)) → s'.errors = s.errors →
        s'.types.Defined ∧ Acyclic s'.types) := by
  simp only [lowerTypes, ends_bind]
  refine (declareTypes_ends defs h).mono fun declared s1 h1 => ?_
  obtain ⟨hretypes1, hannounced⟩ := h1
  have hpending : Pending s1.types (declared.map (·.1)) := by
    refine ⟨hannounced.nodup, fun id hid => ?_⟩
    obtain ⟨p, hp, rfl⟩ := List.mem_map.mp hid
    exact hannounced.undefined p hp
  refine (defineTypes_ends declared hretypes1.types hpending).mono fun _ s2 h2 => ?_
  obtain ⟨hretypes2, haliases, hsettled⟩ := h2
  have hnamed : ∀ p ∈ declared, ∃ name u, s2.types.get? p.1 = some (.named name u) := fun p hp => by
    obtain ⟨name, hname⟩ := hannounced.undefined p hp
    exact ⟨name, (haliases p.1 name).mp ⟨_, hname⟩⟩
  refine (rejectCycles_ends declared hretypes2.types hnamed).mono fun _ s3 h3 => ?_
  obtain ⟨hretypes3, hcontext, hcycles⟩ := h3
  refine ⟨(hretypes1.trans hretypes2).trans hretypes3, fun hnone herr => ?_⟩
  have hin : ∀ id name u, s2.types.get? id = some (.named name u) → id ∈ declared.map (·.1) := by
    intro id name u hid
    obtain ⟨u1, hu1⟩ := (haliases id name).mpr ⟨u, hid⟩
    exact (hannounced.aliases id name u1 hu1).resolve_left (hnone id name u1)
  have hle1 := hretypes1.errors
  have hle2 := hretypes2.errors
  have hle3 := hretypes3.errors
  rw [hcontext]
  refine ⟨fun id name u hid hu => ?_, TypeTable.acyclic_of_named hretypes2.types fun id name u hid => ?_⟩
  · subst hu
    exact (hsettled (by omega) id name hid).1 (hin id name _ hid)
  · obtain ⟨p, hp, rfl⟩ := List.mem_map.mp (hin id name u hid)
    exact hcycles (by omega) p hp

/-- Types without an error: every alias stands for a type, and no type contains itself. -/
theorem lowerTypes_ends (h : s.Bare) (hnone : ∀ id name u, s.types.get? id ≠ some (.named name u))
    (defs : List TypeDef) : Ends (lowerTypes cfg file defs) s fun _ s' => s'.Bare ∧ s.errors ≤ s'.errors ∧
      (s'.errors = s.errors → s'.types.Defined ∧ Acyclic s'.types) :=
  (lowerTypes_retypes h.types defs).mono fun _ _ h' => ⟨h'.1.bare h, h'.1.errors, h'.2 hnone⟩

end Lowering

end BlockCompiler
