/-
  BlockCompiler.Proofs.Annotation — resolving annotations only adds types.

  A step of type checking in a sound table leaves a sound table with every entry kept and no
  alias added or changed (`Adds`). Resolving an annotation ends: it gives an issued type other
  than `invalid`, or it rejects with an error (`resolve_judges`).
-/
import BlockCompiler.Proofs.TypeTable

namespace BlockCompiler

open TypeTable (Grows Sound)

variable {t : TypeTable} {id : TypeId} {ty : Ty} {st : Typing}

/-- An issued type other than `invalid`. -/
def TypeTable.Proper (t : TypeTable) (id : TypeId) : Prop := id.index < t.size ∧ id ≠ TypeId.invalid

theorem TypeTable.Proper.grows {t' : TypeTable} (hg : Grows t t') (h : t.Proper id) : t'.Proper id :=
  ⟨Nat.lt_of_lt_of_le h.1 hg.size_le, h.2⟩

theorem TypeTable.Sound.proper_mention (hs : Sound t) (h : t.get? id = some ty) (hn : ty.isNamed = false) {m : TypeId}
    (hm : m ∈ ty.mentions) : t.Proper m :=
  ⟨hs.mention_lt h hm, (hs.earlier id ty h hn m hm).2⟩

theorem TypeTable.Sound.proper_of_get? (hs : Sound t) {ty : Ty} (h : t.get? id = some ty) (hi : ty ≠ .invalid) :
    t.Proper id :=
  ⟨Interner.get?_lt h, hs.ne_invalid h hi⟩

theorem TypeTable.Sound.proper_int (hs : Sound t) (signed : Bool) (w : Nat) : t.Proper (TypeId.int signed w) := by
  refine ⟨hs.int_lt signed w, ?_⟩
  simp only [TypeId.int, TypeId.invalid, ne_eq, Handle.mk.injEq]
  split <;> (try split) <;> (try split) <;> cases signed <;> simp

theorem TypeTable.Sound.proper_prim (hs : Sound t) {i : Nat} (h : i < 12) : t.Proper ⟨i⟩ := by
  refine ⟨hs.prim_lt (i := i) (by omega), ?_⟩
  simp only [TypeId.invalid, ne_eq, Handle.mk.injEq]
  omega

theorem TypeTable.Sound.proper_float (hs : Sound t) (double : Bool) : t.Proper (TypeId.float double) := by
  cases double
  · exact hs.proper_prim (i := 10) (by omega)
  · exact hs.proper_prim (i := 11) (by omega)

/-! ## Steps that add types -/

structure Typing.Adds (st st' : Typing) : Prop where
  sound : Sound st'.types
  grows : Grows st.types st'.types
  /-- What is an alias afterwards was the same alias before. -/
  aliases : ∀ id name u, st'.types.get? id = some (.named name u) → st.types.get? id = some (.named name u)

namespace Typing

theorem Adds.refl (hs : Sound st.types) : Adds st st := ⟨hs, Grows.refl _, fun _ _ _ h => h⟩

theorem Adds.trans {st' st'' : Typing} (h : Adds st st') (h' : Adds st' st'') : Adds st st'' :=
  ⟨h'.sound, h.grows.trans h'.grows, fun id name u hg => h.aliases id name u (h'.aliases id name u hg)⟩

variable {st : Typing}

@[simp] theorem ask_ends {α : Type} (f : TypeTable → Except Fault α) (Q : α → Typing → Prop) :
    Ends (ask f) st Q ↔ ∃ a, f st.types = .ok a ∧ Q a st := by
  simp [ask, settle]

@[simp] theorem settle_ends {α : Type} (r : Except Fault α) (Q : α → Typing → Prop) :
    Ends (settle r) st Q ↔ ∃ a, r = .ok a ∧ Q a st := by
  simp [settle]

theorem note_adds (hs : Sound st.types) (gate : Log.Gate) (level : Log.Level) (area text : String) :
    Ends (note gate level area text) st fun _ st' => Adds st st' := by
  simp only [note, ends_modify]
  exact ⟨hs, Grows.refl _, fun _ _ _ h => h⟩

theorem nameOf_ends (hs : Sound st.types) (h : id.index < st.types.size) :
    Ends (nameOf id) st fun _ st' => st' = st := by
  obtain ⟨name, hname⟩ := hs.name h
  exact (ask_ends _ _).mpr ⟨name, hname, rfl⟩

/-- Interning a type made of proper types. -/
theorem intern_ends (hs : Sound st.types) (hn : ty.isNamed = false) (hi : ty ≠ .invalid)
    (hm : ∀ m ∈ ty.mentions, st.types.Proper m) :
    Ends (intern ty) st fun id st' => Adds st st' ∧ st'.types.get? id = some ty ∧ st'.types.Proper id := by
  simp only [intern, ends_modifyGet]
  have hsound := hs.insert hi (fun m h => (hm m h).1) fun _ h => (hm _ h).2 rfl
  have hget := TypeTable.get?_insert st.types hn
  refine ⟨⟨hsound, TypeTable.insert_grows _ _, ?_⟩, hget, hsound.proper_of_get? hget hi⟩
  intro id name u h
  rcases TypeTable.get?_insert_cases h with h | ⟨-, rfl⟩
  · exact h
  · simp [Ty.isNamed] at hn

end Typing

theorem TypeTable.findAlias?_eq_some {name : String} (h : t.findAlias? name = some id) :
    ∃ u, t.get? id = some (.named name u) := by
  obtain ⟨ty, hg, hk⟩ := TypeTable.find?_eq_some h
  cases ty with
  | named name' u => simp only [Ty.key, Ty.named.injEq, and_true] at hk; exact ⟨u, hk ▸ hg⟩
  | _ => simp [Ty.key] at hk

/-! ## Annotations -/

namespace Annotation

open Surface
open Typing (Adds)

/-- What resolving gives: an issued type, types being added. -/
def Resolved (st : Typing) (id : TypeId) (st' : Typing) : Prop := Adds st st' ∧ st'.types.Proper id

/-- What rejecting leaves: an error, types being added. -/
def Refused (st : Typing) (d : Diagnostic) (st' : Typing) : Prop := Adds st st' ∧ d.isError = true

theorem judges_after {α : Type} {act : CheckM α} {st1 : Typing} {Q : α → Typing → Prop} (ha : Adds st st1)
    (h : Judges act st1 Q (Refused st1)) : Judges act st1 Q (Refused st) :=
  h.mono (fun _ _ h => h) fun _ _ hd => ⟨ha.trans hd.1, hd.2⟩

/-- Interning a type once its parts are resolved. -/
theorem intern_judges {st1 : Typing} (h : Adds st st1) (hn : ty.isNamed = false) (hi : ty ≠ .invalid)
    (hm : ∀ m ∈ ty.mentions, st1.types.Proper m) :
    Judges (liftM (Typing.intern ty) : CheckM TypeId) st1 (Resolved st) (Refused st) := by
  rw [judges_lift]
  exact (Typing.intern_ends h.sound hn hi hm).mono fun id st' h' => ⟨h.trans h'.1, h'.2.2⟩

mutual

theorem resolve_judges (file : FileId) : ∀ (ty : TypeExpr) {st : Typing}, Sound st.types →
    Judges (resolve file ty) st (Resolved st) (Refused st)
  | .int ty _, st, hs => by
    simp only [resolve, judges_pure]
    exact ⟨Adds.refl hs, hs.proper_int _ _⟩
  | .float double _, st, hs => by
    simp only [resolve, judges_pure]
    exact ⟨Adds.refl hs, hs.proper_float double⟩
  | .bool _, st, hs => by
    simp only [resolve, judges_pure]
    exact ⟨Adds.refl hs, hs.proper_prim (i := 8) (by omega)⟩
  | .unit _, st, hs => by
    simp only [resolve, judges_pure]
    exact ⟨Adds.refl hs, hs.proper_prim (i := 9) (by omega)⟩
  | .ptr part _, st, hs | .array part _ _, st, hs => by
    simp only [resolve]
    refine (resolve_judges file part hs).then fun id st1 h1 => ?_
    exact intern_judges h1.1 rfl (by simp) (by simpa [Ty.mentions] using h1.2)
  | .struct fields _, st, hs => by
    simp only [resolve]
    refine (resolveFields_judges file [] fields hs (by simp)).then fun fs st1 h1 => ?_
    exact intern_judges h1.1 rfl (by simp) (by simpa [Ty.mentions] using h1.2)
  | .sum variants _, st, hs => by
    simp only [resolve]
    refine (resolveVariants_judges file [] variants hs (by simp)).then fun vs st1 h1 => ?_
    exact intern_judges h1.1 rfl (by simp) (by simpa [Ty.mentions] using h1.2)
  | .func params result _, st, hs => by
    simp only [resolve]
    refine (resolve_judges file result hs).then fun r st1 h1 => ?_
    refine (judges_after h1.1 (resolveParams_judges file params h1.1.sound)).then fun ps st2 h2 => ?_
    refine intern_judges (h1.1.trans h2.1) rfl (by simp) ?_
    simp only [Ty.mentions, List.mem_cons, List.mem_map]
    rintro m (rfl | ⟨p, hp, rfl⟩)
    · exact h1.2.grows h2.1.grows
    · exact h2.2 p hp
  | .named name span, st, hs => by
    simp only [resolve, judges_bind, judges_get]
    split
    · rename_i id hid
      obtain ⟨u, hu⟩ := TypeTable.findAlias?_eq_some hid
      exact (judges_pure _).mpr ⟨Adds.refl hs, hs.proper_of_get? hu (by simp)⟩
    · exact (judges_throw _).mpr ⟨Adds.refl hs, rfl⟩

theorem resolveFields_judges (file : FileId) (earlier : List Field) :
    ∀ (fields : List (TypeExpr × String)) {st : Typing}, Sound st.types →
      (∀ f ∈ earlier, st.types.Proper f.ty) →
      Judges (resolveFields file earlier fields) st
        (fun fs st' => Adds st st' ∧ ∀ f ∈ fs, st'.types.Proper f.ty) (Refused st)
  | [], st, hs, he => by
    simp only [resolveFields, judges_pure]
    exact ⟨Adds.refl hs, he⟩
  | (ty, name) :: rest, st, hs, he => by
    simp only [resolveFields]
    refine (resolve_judges file ty hs).then fun id st1 h1 => ?_
    split
    · exact (judges_throw _).mpr ⟨h1.1, rfl⟩
    · refine (resolveFields_judges file _ rest h1.1.sound ?_).mono (fun fs st2 h2 => ⟨h1.1.trans h2.1, h2.2⟩)
        fun _ _ h2 => ⟨h1.1.trans h2.1, h2.2⟩
      simp only [List.mem_append, List.mem_singleton]
      rintro f (hf | rfl)
      · exact (he f hf).grows h1.1.grows
      · exact h1.2

theorem resolveVariants_judges (file : FileId) (earlier : List TypeId) :
    ∀ (variants : List TypeExpr) {st : Typing}, Sound st.types → (∀ v ∈ earlier, st.types.Proper v) →
      Judges (resolveVariants file earlier variants) st
        (fun vs st' => Adds st st' ∧ ∀ v ∈ vs, st'.types.Proper v) (Refused st)
  | [], st, hs, he => by
    simp only [resolveVariants, judges_pure]
    exact ⟨Adds.refl hs, he⟩
  | ty :: rest, st, hs, he => by
    simp only [resolveVariants]
    refine (resolve_judges file ty hs).then fun id st1 h1 => ?_
    split
    · simp only [judges_bind, judges_lift]
      refine (Typing.nameOf_ends h1.1.sound h1.2.1).mono fun name st2 h2 => ?_
      subst h2
      exact (judges_throw _).mpr ⟨h1.1, rfl⟩
    · refine (resolveVariants_judges file _ rest h1.1.sound ?_).mono (fun vs st2 h2 => ⟨h1.1.trans h2.1, h2.2⟩)
        fun _ _ h2 => ⟨h1.1.trans h2.1, h2.2⟩
      simp only [List.mem_append, List.mem_singleton]
      rintro v (hv | rfl)
      · exact (he v hv).grows h1.1.grows
      · exact h1.2

theorem resolveParams_judges (file : FileId) :
    ∀ (params : List (TypeExpr × Option String)) {st : Typing}, Sound st.types →
      Judges (resolveParams file params) st
        (fun ps st' => Adds st st' ∧ ∀ p ∈ ps, st'.types.Proper p.ty) (Refused st)
  | [], st, hs => by
    simp only [resolveParams, judges_pure]
    exact ⟨Adds.refl hs, by simp⟩
  | (ty, name) :: rest, st, hs => by
    simp only [resolveParams]
    refine (resolve_judges file ty hs).then fun id st1 h1 => ?_
    refine (judges_after h1.1 (resolveParams_judges file rest h1.1.sound)).then fun ps st2 h2 => ?_
    refine (judges_pure _).mpr ⟨h1.1.trans h2.1, ?_⟩
    simp only [List.mem_cons]
    rintro p (rfl | hp)
    · exact h1.2.grows h2.1.grows
    · exact h2.2 p hp

end

end Annotation

end BlockCompiler
