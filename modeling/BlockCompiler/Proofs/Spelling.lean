/-
  BlockCompiler.Proofs.Spelling — types that the target can spell.

  A table is usable when it is sound, no type contains itself and every alias stands for a
  type (`TypeTable.Usable`). Each of its types has a spelling, and to spell it leaves no
  alias marked that was not marked before. For one type less is needed: that `invalid` is not
  reached from it (`TypeTable.Clean`).

  (1) `Spelled t marks id T`: the rules of spelling, while the marked aliases are being expanded.
      A type has one spelling at most (`Spelled.unique`).
  (2) The depth of a spelling is bounded: between two aliases a path into a type goes to
      earlier types, and an alias is expanded only while it is not marked. So a clean type is
      spelled, and by the rules (`exists_spelled`, `spellType_spelled`).
  (3) What stands for an integer is spelled as one (`Spelled.spells`).
  (4) So is a struct or sum where it is defined (`spellAggregate_spelled`).
-/
import BlockCompiler.Proofs.ByValue
import BlockCompiler.Target.Generate

namespace BlockCompiler

open TypeTable Interner
open Relation (ReflTransGen)

variable {id m : TypeId} {t : TypeTable} {ty : Ty} {n : Nat}

namespace TypeTable

structure Usable (t : TypeTable) : Prop where
  sound : Sound t
  acyclic : Acyclic t
  defined : Defined t

/-- Types are made of issued ones, aliases apart of earlier ones, and no type contains itself. -/
structure Grounded (t : TypeTable) : Prop where
  whole : t.Whole
  earlier : ∀ id ty, t.get? id = some ty → ty.isNamed = false → ∀ m ∈ ty.mentions, m.index < id.index
  acyclic : Acyclic t

theorem Usable.grounded (h : t.Usable) : t.Grounded :=
  ⟨h.sound.whole, fun id ty hty hnn m hm => (h.sound.earlier id ty hty hnn m hm).1, h.acyclic⟩

def Mentions (t : TypeTable) (a b : TypeId) : Prop := ∃ ty, t.get? a = some ty ∧ b ∈ ty.mentions

/-- The type and all that it is made of, in any number of steps, are issued and not `invalid`. -/
def Clean (t : TypeTable) (id : TypeId) : Prop :=
  ∀ x, ReflTransGen t.Mentions id x → ∃ ty, t.get? x = some ty ∧ ty ≠ .invalid

theorem Clean.mention (h : t.Clean id) (hty : t.get? id = some ty) (hm : m ∈ ty.mentions) : t.Clean m :=
  fun x hx => h x (.head ⟨ty, hty, hm⟩ hx)

theorem Clean.standsFor {v : TypeId} (h : t.Clean id) (hv : StandsFor t id v) : t.Clean v := by
  induction hv with
  | itself => exact h
  | through he _ ih => exact ih (h.mention he (List.mem_singleton_self _))

theorem Usable.clean (h : t.Usable) (hid : t.Proper id) : t.Clean id := by
  intro x hx
  have hproper : t.Proper x := by
    induction hx with
    | refl => exact hid
    | @tail a b _ hab ih =>
      obtain ⟨ty, hty, hb⟩ := hab
      cases hnn : ty.isNamed with
      | false => exact h.sound.proper_mention hty hnn hb
      | true =>
        cases ty with
        | named name u =>
          rw [List.mem_singleton.mp hb]
          exact ⟨h.sound.issued a name u hty, h.defined a name u hty⟩
        | _ => cases hnn
  obtain ⟨ty, hty⟩ := get?_of_lt hproper.1
  refine ⟨ty, hty, ?_⟩
  rintro rfl
  exact hproper.2 (h.sound.onlyInvalid x hty)

end TypeTable

/-- The types whose spellings the spelling of this one contains. -/
def Ty.opened : Ty → List TypeId
  | .ptr p => [p]
  | .array e _ => [e]
  | .struct fields => fields.map (·.ty)
  | .func signature => signature.result :: signature.params.map (·.ty)
  | .int _ _ | .float _ | .bool | .unit | .sum _ | .named _ _ | .invalid => []

def Ty.isAggregate : Ty → Bool
  | .struct _ | .sum _ => true
  | _ => false

theorem Ty.mem_mentions_of_mem_opened (h : m ∈ ty.opened) : m ∈ ty.mentions := by
  cases ty <;> simp_all [Ty.opened, Ty.mentions]

theorem Ty.not_named_of_mem_opened (h : m ∈ ty.opened) : ty.isNamed = false := by
  cases ty <;> simp_all [Ty.opened, Ty.isNamed]

section MapM

variable {ε σ α β : Type}

/-- Steps over a list that leave the state as it is. -/
theorem mapM_eq_ok {f : α → EStateM ε σ β} {g : α → β} {s : σ} {l : List α} (h : ∀ a ∈ l, f a s = .ok (g a) s) :
    l.mapM f s = .ok (l.map g) s := by
  have hends : Ends (l.mapM f) s fun bs s' => bs = l.map g ∧ s' = s := by
    induction l with
    | nil => simp
    | cons a l ih =>
      have hrest := ih fun b hb => h b (.tail _ hb)
      simp only [List.mapM_cons, ends_bind, ends_pure, List.map_cons]
      rw [ends_iff_of_eq (h a (.head _))]
      exact hrest.mono fun bs s' hr => ⟨by rw [hr.1], hr.2⟩
  obtain ⟨bs, s', he, rfl, rfl⟩ := hends
  exact he

end MapM

namespace Target

variable {t : TypeTable} {id : TypeId} {ty : Ty} {marks : List TypeId}

/-! ## (1) Rules -/

/-- The payload words of a sum with these variants. -/
def words (t : TypeTable) (variants : List TypeId) : UInt64 := (t.payloadWords variants).toOption.getD 0

/-- The spelling of a type that is no alias, from the spellings of its parts. -/
def codeOf (t : TypeTable) (spell : TypeId → CodeType) : Ty → CodeType
  | .int _ width => .int width
  | .float double => if double then .double else .float
  | .bool => .int 1
  | .unit => .struct []
  | .ptr p => .ptr (spell p)
  | .array e length => .array length (spell e)
  | .struct fields => .struct (fields.map fun f => spell f.ty)
  | .sum variants => .sum (words t variants)
  | .func signature => .func (spell signature.result) (signature.params.map fun p => spell p.ty)
  | .named _ _ | .invalid => .int 8

theorem codeOf_congr {f g : TypeId → CodeType} (h : ∀ m ∈ ty.opened, f m = g m) : codeOf t f ty = codeOf t g ty := by
  cases ty with
  | ptr p => exact congrArg CodeType.ptr (h p (List.mem_singleton_self p))
  | array e length => exact congrArg (CodeType.array length) (h e (List.mem_singleton_self e))
  | struct fields => exact congrArg CodeType.struct (List.map_congr_left fun f hf => h f.ty (List.mem_map_of_mem hf))
  | func signature =>
    exact congrArg₂ CodeType.func (h _ (.head _))
      (List.map_congr_left fun p hp => h p.ty (.tail _ (List.mem_map_of_mem hp)))
  | _ => rfl

/-- The rules of spelling. A type that is no alias is spelled from its parts; an alias by its name, as `i8`,
or as what it stands for under one mark more. -/
inductive Spelled (t : TypeTable) : List TypeId → TypeId → CodeType → Prop
  | parts {marks : List TypeId} {id : TypeId} {ty : Ty} {spell : TypeId → CodeType} : t.get? id = some ty →
      ty.isNamed = false → ty ≠ .invalid → (∀ m ∈ ty.opened, Spelled t marks m (spell m)) →
      Spelled t marks id (codeOf t spell ty)
  | aggregate {marks : List TypeId} {id u : TypeId} {name : String} : t.get? id = some (.named name u) →
      isNamedAggregate t id = .ok true → Spelled t marks id (.named name)
  | marked {marks : List TypeId} {id u : TypeId} {name : String} : t.get? id = some (.named name u) →
      isNamedAggregate t id = .ok false → id ∈ marks → Spelled t marks id (.int 8)
  | expand {marks : List TypeId} {id u : TypeId} {name : String} {T : CodeType} : t.get? id = some (.named name u) →
      isNamedAggregate t id = .ok false → id ∉ marks → Spelled t (id :: marks) u T → Spelled t marks id T

namespace Spelled

variable {T T' : CodeType} {name : String} {u : TypeId}

theorem of_parts (h : Spelled t marks id T) (hty : t.get? id = some ty) (hnn : ty.isNamed = false) :
    ∃ spell, T = codeOf t spell ty ∧ ∀ m ∈ ty.opened, Spelled t marks m (spell m) := by
  cases h with
  | parts he _ _ hparts => cases hty.symm.trans he; exact ⟨_, rfl, hparts⟩
  | aggregate he _ | marked he _ _ | expand he _ _ _ => cases hty.symm.trans he; cases hnn

section

variable (h : Spelled t marks id T) (hty : t.get? id = some (.named name u))
include h hty

theorem of_aggregate (hagg : isNamedAggregate t id = .ok true) : T = .named name := by
  cases h with
  | parts he hnn _ _ => cases hty.symm.trans he; cases hnn
  | aggregate he _ => cases hty.symm.trans he; rfl
  | marked _ hnot _ | expand _ hnot _ _ => cases hagg.symm.trans hnot

theorem of_marked (hagg : isNamedAggregate t id = .ok false) (hm : id ∈ marks) : T = .int 8 := by
  cases h with
  | parts he hnn _ _ => cases hty.symm.trans he; cases hnn
  | aggregate _ hnot => cases hagg.symm.trans hnot
  | marked => rfl
  | expand _ _ hn _ => exact absurd hm hn

theorem of_expand (hagg : isNamedAggregate t id = .ok false) (hm : id ∉ marks) : Spelled t (id :: marks) u T := by
  cases h with
  | parts he hnn _ _ => cases hty.symm.trans he; cases hnn
  | aggregate _ hnot => cases hagg.symm.trans hnot
  | marked _ _ hn => exact absurd hn hm
  | expand he _ _ hu => cases hty.symm.trans he; exact hu

end

theorem unique (h : Spelled t marks id T) (h' : Spelled t marks id T') : T = T' := by
  induction h generalizing T' with
  | parts hty hnn _ _ ih =>
    obtain ⟨spell', rfl, hparts'⟩ := h'.of_parts hty hnn
    exact codeOf_congr fun m hm => ih m hm (hparts' m hm)
  | aggregate hty hagg => exact (h'.of_aggregate hty hagg).symm
  | marked hty hagg hm => exact (h'.of_marked hty hagg hm).symm
  | expand hty hagg hm _ ih => exact ih (h'.of_expand hty hagg hm)

end Spelled

/-! ## (2) Spellings -/

/-- The number of types that are not marked as expanding. -/
def unmarked (t : TypeTable) (marks : List TypeId) : Nat :=
  ((Finset.range t.size).filter fun i => (⟨i⟩ : TypeId) ∉ marks).card

theorem unmarked_le (t : TypeTable) (marks : List TypeId) : unmarked t marks ≤ t.size :=
  (Finset.card_filter_le _ _).trans (by simp)

theorem unmarked_cons (hlt : id.index < t.size) (hn : id ∉ marks) : unmarked t (id :: marks) < unmarked t marks := by
  unfold unmarked
  refine Finset.card_lt_card (Finset.ssubset_iff_subset_ne.mpr ⟨fun i hi => ?_, fun e => ?_⟩)
  · simp only [Finset.mem_filter, List.mem_cons, not_or] at hi ⊢
    exact ⟨hi.1, hi.2.2⟩
  · have hmem : id.index ∈ (Finset.range t.size).filter fun i => (⟨i⟩ : TypeId) ∉ marks := by
      simpa using ⟨hlt, hn⟩
    rw [← e] at hmem
    simp at hmem

/-- What a spelling needs: an alias is expanded once, and between two aliases a path into a type
goes to earlier types. -/
def spellDepth (t : TypeTable) (marks : List TypeId) (id : TypeId) : Nat :=
  unmarked t marks * (t.size + 1) + id.index

theorem spellDepth_cons (hlt : id.index < t.size) (hn : id ∉ marks) {u : TypeId} (hu : u.index < t.size) :
    spellDepth t (id :: marks) u < spellDepth t marks id := by
  have hfewer := Nat.mul_le_mul_right (t.size + 1) (unmarked_cons hlt hn)
  rw [Nat.succ_mul] at hfewer
  unfold spellDepth
  omega

theorem payloadWords_words (h : t.Grounded) {variants : List TypeId} (hty : t.get? id = some (.sum variants)) :
    t.payloadWords variants = .ok (words t variants) := by
  obtain ⟨n, hn⟩ := h.whole.payloadWords_ok h.acyclic fun v (hv : v ∈ variants) => h.whole id _ hty v hv
  rw [words, hn]
  rfl

theorem isNamedAggregate_ok (h : t.Grounded) (hlt : id.index < t.size) :
    ∃ named, isNamedAggregate t id = .ok named := by
  obtain ⟨ty, hty⟩ := get?_of_lt hlt
  obtain ⟨v, -, hv⟩ := h.whole.unwrapAlias_standsFor h.acyclic hlt
  obtain ⟨r, hr, -⟩ := hv.get?
  refine exists_bind_ok (get_eq_ok.mpr hty) ?_
  split
  · refine exists_bind_ok (hv.resolved hr) ?_
    split <;> exact ⟨_, rfl⟩
  · exact ⟨_, rfl⟩

/-- A type that is no alias is spelled from the spellings of its parts. -/
theorem spellWithin_parts (hty : t.get? id = some ty) (hnn : ty.isNamed = false) (hne : ty ≠ .invalid)
    (hwords : ∀ variants, ty = .sum variants → t.payloadWords variants = .ok (words t variants))
    {spell : TypeId → CodeType} (part : ∀ m ∈ ty.opened, spellWithin t n m marks = .ok (spell m) marks) :
    spellWithin t (n + 1) id marks = .ok (codeOf t spell ty) marks := by
  have hends : Ends (spellWithin t (n + 1) id) marks fun T marks' => T = codeOf t spell ty ∧ marks' = marks := by
    rw [spellWithin]
    simp only [ends_bind, ends_ofExcept]
    refine ⟨ty, get_eq_ok.mpr hty, ?_⟩
    cases ty with
    | int | float | bool | unit => exact (ends_pure _).mpr ⟨rfl, rfl⟩
    | invalid => exact absurd rfl hne
    | named _ _ => cases hnn
    | ptr p | array p =>
      rw [ends_bind, ends_iff_of_eq (part p (by simp [Ty.opened]))]
      exact (ends_pure _).mpr ⟨rfl, rfl⟩
    | struct fields =>
      have each : ∀ f ∈ fields, spellWithin t n f.ty marks = .ok (spell f.ty) marks :=
        fun f hf => part f.ty (List.mem_map_of_mem hf)
      rw [ends_bind, ends_iff_of_eq (mapM_eq_ok each)]
      exact (ends_pure _).mpr ⟨rfl, rfl⟩
    | sum variants =>
      simp only [ends_bind, ends_ofExcept, ends_pure]
      exact ⟨_, hwords variants rfl, rfl, trivial⟩
    | func signature =>
      have each : ∀ p ∈ signature.params, spellWithin t n p.ty marks = .ok (spell p.ty) marks :=
        fun p hp => part p.ty (.tail _ (List.mem_map_of_mem hp))
      rw [ends_bind, ends_iff_of_eq (part signature.result (.head _))]
      rw [ends_bind, ends_iff_of_eq (mapM_eq_ok each)]
      exact (ends_pure _).mpr ⟨rfl, rfl⟩
  obtain ⟨T, marks', he, rfl, rfl⟩ := hends
  exact he

/-- One step of spelling an alias. -/
theorem spellWithin_named {name : String} {u : TypeId} (hty : t.get? id = some (.named name u)) {named : Bool}
    (hagg : isNamedAggregate t id = .ok named) {T : CodeType}
    (hu : named = false → id ∉ marks → spellWithin t n u (id :: marks) = .ok T (id :: marks)) :
    spellWithin t (n + 1) id marks = .ok (if named then .named name else if id ∈ marks then .int 8 else T) marks := by
  have hends : Ends (spellWithin t (n + 1) id) marks fun T' marks' =>
      T' = (if named then .named name else if id ∈ marks then .int 8 else T) ∧ marks' = marks := by
    rw [spellWithin]
    simp only [ends_bind, ends_ofExcept]
    refine ⟨_, get_eq_ok.mpr hty, ?_⟩
    cases named with
    | true => simp [hagg]
    | false =>
      by_cases hm : id ∈ marks
      · simp [hagg, hm]
      · simp [hagg, hm, ends_iff_of_eq (hu rfl hm)]
  obtain ⟨T', marks', he, rfl, rfl⟩ := hends
  exact he

theorem exists_spelled (h : t.Grounded) (hid : t.Clean id) (hn : spellDepth t marks id < n) :
    ∃ T, spellWithin t n id marks = .ok T marks ∧ Spelled t marks id T := by
  induction n generalizing id marks with
  | zero => omega
  | succ n ih =>
    obtain ⟨ty, hty, hne⟩ := hid id .refl
    cases hnn : ty.isNamed with
    | false =>
      have part : ∀ m ∈ ty.opened, ∃ T, spellWithin t n m marks = .ok T marks ∧ Spelled t marks m T := by
        intro m hm
        have hmention := Ty.mem_mentions_of_mem_opened hm
        have hlt := h.earlier id ty hty hnn m hmention
        refine ih (hid.mention hty hmention) ?_
        unfold spellDepth at hn ⊢
        omega
      have : Nonempty CodeType := ⟨.float⟩
      choose! spell hrun hspelled using part
      have hwords : ∀ variants, ty = .sum variants → t.payloadWords variants = .ok (words t variants) :=
        fun variants hsum => payloadWords_words h (hsum ▸ hty)
      exact ⟨_, spellWithin_parts hty hnn hne hwords hrun, .parts hty hnn hne hspelled⟩
    | true =>
      cases ty with
      | named name u =>
        obtain ⟨named, hagg⟩ := isNamedAggregate_ok h (get?_lt hty)
        have hu := hid.mention hty (List.mem_singleton_self u)
        have hlt : u.index < t.size := h.whole id _ hty u (List.mem_singleton_self u)
        have below : id ∉ marks → ∃ T, spellWithin t n u (id :: marks) = .ok T (id :: marks) ∧
            Spelled t (id :: marks) u T := by
          intro hm
          have hfewer := spellDepth_cons (get?_lt hty) hm hlt
          exact ih hu (by omega)
        have : Nonempty CodeType := ⟨.float⟩
        choose! T hrun hspelled using below
        refine ⟨_, spellWithin_named hty hagg fun _ => hrun, ?_⟩
        cases named with
        | true => exact .aggregate hty hagg
        | false =>
          by_cases hm : id ∈ marks
          · simpa [hm] using Spelled.marked hty hagg hm
          · simpa [hm] using Spelled.expand hty hagg hm (hspelled hm)
      | _ => cases hnn

/-- A clean type has a spelling, whatever is expanding. -/
theorem spellType_spelled (h : t.Grounded) (hid : t.Clean id) (marks : List TypeId) :
    ∃ T, spellType t id marks = .ok T marks ∧ Spelled t marks id T := by
  refine exists_spelled h hid ?_
  obtain ⟨ty, hty, -⟩ := hid id .refl
  have hlt := get?_lt hty
  calc spellDepth t marks id
      < t.size * (t.size + 1) + t.size := by
        have := Nat.mul_le_mul_right (t.size + 1) (unmarked_le t marks)
        unfold spellDepth
        omega
    _ ≤ (t.size + 2) * (t.size + 2) := by
        rw [Nat.mul_succ, Nat.add_mul, Nat.mul_add]
        omega

/-! ## (3) Widths -/

/-- An integer type is spelled as an integer. -/
def Spells (t : TypeTable) (id : TypeId) (spelling : CodeType) : Prop :=
  ∀ v signed w, StandsFor t id v → t.get? v = some (.int signed w) → ∃ width, spelling = .int width

theorem isNamedAggregate_int {v : TypeId} {signed : Bool} {w : Nat} (hv : StandsFor t id v)
    (hint : t.get? v = some (.int signed w)) : isNamedAggregate t id = .ok false := by
  obtain ⟨ty, hty⟩ := get?_of_lt hv.lt
  unfold isNamedAggregate
  simp only [bind, Except.bind, get_eq_ok.mpr hty, hv.resolved hint]
  cases ty <;> rfl

theorem Spelled.spells {T : CodeType} (h : Spelled t marks id T) : Spells t id T := by
  induction h with
  | parts hty hnn _ _ _ =>
    intro v signed w hv hint
    obtain rfl := hv.unique (.itself hty hnn)
    cases hty.symm.trans hint
    exact ⟨w, rfl⟩
  | aggregate hty hagg =>
    intro v signed w hv hint
    cases hagg.symm.trans (isNamedAggregate_int hv hint)
  | marked => exact fun _ _ _ _ _ => ⟨8, rfl⟩
  | expand hty _ _ _ ih =>
    intro v signed w hv hint
    cases hv with
    | itself he hnn => cases hty.symm.trans he; cases hnn
    | through he hv => cases hty.symm.trans he; exact ih v signed w hv hint

/-! ## (4) Named types -/

/-- The literal spelling of a struct or sum is its spelling. -/
theorem spellAggregate_spelled (h : t.Grounded) (hid : t.Clean id) (hty : t.get? id = some ty)
    (hagg : ty.isAggregate = true) (marks : List TypeId) :
    ∃ T, spellAggregate t id marks = .ok T marks ∧ Spelled t marks id T := by
  have part : ∀ m ∈ ty.opened, ∃ T, spellType t m marks = .ok T marks ∧ Spelled t marks m T := fun m hm =>
    spellType_spelled h (hid.mention hty (Ty.mem_mentions_of_mem_opened hm)) marks
  have : Nonempty CodeType := ⟨.float⟩
  choose! spell hrun hspelled using part
  have hends : Ends (spellAggregate t id) marks fun T marks' => T = codeOf t spell ty ∧ marks' = marks := by
    rw [spellAggregate]
    simp only [ends_bind, ends_ofExcept]
    refine ⟨ty, get_eq_ok.mpr hty, ?_⟩
    cases ty with
    | struct fields =>
      have each : ∀ f ∈ fields, spellType t f.ty marks = .ok (spell f.ty) marks :=
        fun f hf => hrun f.ty (List.mem_map_of_mem hf)
      rw [ends_bind, ends_iff_of_eq (mapM_eq_ok each)]
      exact (ends_pure _).mpr ⟨rfl, rfl⟩
    | sum variants =>
      simp only [ends_bind, ends_ofExcept, ends_pure]
      exact ⟨_, payloadWords_words h hty, rfl, trivial⟩
    | _ => cases hagg
  obtain ⟨T, marks', he, rfl, rfl⟩ := hends
  refine ⟨_, he, .parts hty ?_ ?_ hspelled⟩
  · cases ty <;> first | rfl | cases hagg
  · rintro rfl
    cases hagg

theorem isNamedAggregate_true (h : isNamedAggregate t id = .ok true) :
    (∃ name u, t.get? id = some (.named name u)) ∧
      ∃ v ty, t.unwrapAlias id = .ok v ∧ t.get? v = some ty ∧
        ((∃ fields, ty = .struct fields) ∨ ∃ variants, ty = .sum variants) := by
  unfold isNamedAggregate at h
  cases hid : t.get id with
  | error f => simp [hid, bind, Except.bind] at h
  | ok entry =>
    simp only [hid, bind, Except.bind] at h
    split at h
    · cases hr : t.resolved id with
      | error f => simp [hr] at h
      | ok ty =>
        obtain ⟨v, hv, hty⟩ := resolved_eq_ok.mp hr
        refine ⟨⟨_, _, get_eq_ok.mp hid⟩, v, ty, hv, hty, ?_⟩
        simp only [hr] at h
        split at h
        · exact .inl ⟨_, rfl⟩
        · exact .inr ⟨_, rfl⟩
        · cases h
    · cases h

end Target

end BlockCompiler
