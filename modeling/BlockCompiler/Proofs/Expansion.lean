/-
  BlockCompiler.Proofs.Expansion — what a spelling is made of.

  In a usable table every type has a spelling, which depends on the aliases that are being
  expanded around it: the marks (`spelling`).

  (1) It is the one spelling that the rules give. So a type that is no alias is spelled
      from its parts (`spelling_eq`), and an alias by its name, as `i8`, or as what it stands for
      under one mark more (`spelling_aggregate`, `spelling_marked`, `spelling_expand`).
  (2) `Opens t a b`: to spell `a` is to spell `b`. Only marks on what is reached in this way
      matter (`spelling_congr`). So an alias that is not reached from what it stands for is
      spelled like it (`spelling_expand_eq`, `spelling_standsFor`).
  (3) The names in a spelling are those of aliases of structs and sums (`named_of_mem_names`).
-/
import BlockCompiler.Proofs.Partial
import BlockCompiler.Proofs.Spelling

namespace BlockCompiler

open TypeTable Interner
open Relation (ReflTransGen)

variable {name : String} {u v x : TypeId}

namespace Target

variable {t : TypeTable} {id : TypeId} {ty : Ty} {marks : List TypeId}

/-! ## (1) Spellings and their parts -/

theorem payloadWords_eq (h : t.Usable) {variants : List TypeId} (hty : t.get? id = some (.sum variants)) :
    t.payloadWords variants = .ok (words t variants) := payloadWords_words h.grounded hty

/-- The spelling of a type while the marked aliases are being expanded. -/
def spelling (t : TypeTable) (marks : List TypeId) (id : TypeId) : CodeType :=
  match spellType t id marks with
  | .ok spelling _ => spelling
  | .error _ _ => .int 8

theorem spelled_spelling (h : t.Usable) (hid : t.Proper id) (marks : List TypeId) :
    Spelled t marks id (spelling t marks id) := by
  obtain ⟨T, hrun, hT⟩ := spellType_spelled h.grounded (h.clean hid) marks
  rwa [spelling, hrun]

theorem spellType_eq (h : t.Usable) (hid : t.Proper id) (marks : List TypeId) :
    spellType t id marks = .ok (spelling t marks id) marks := by
  obtain ⟨T, hrun, -⟩ := spellType_spelled h.grounded (h.clean hid) marks
  rw [spelling, hrun]

theorem spellTypes_eq {α : Type} (h : t.Usable) {f : α → TypeId} {l : List α} (hl : ∀ a ∈ l, t.Proper (f a))
    (marks : List TypeId) :
    (l.mapM fun a => spellType t (f a)) marks = .ok (l.map fun a => spelling t marks (f a)) marks :=
  mapM_eq_ok fun a ha => spellType_eq h (hl a ha) marks

theorem spelling_eq (h : t.Usable) (hid : t.Proper id) (hty : t.get? id = some ty) (hnn : ty.isNamed = false)
    (marks : List TypeId) : spelling t marks id = codeOf t (spelling t marks) ty := by
  obtain ⟨spell, heq, hparts⟩ := (spelled_spelling h hid marks).of_parts hty hnn
  rw [heq]
  refine codeOf_congr fun m hm => (hparts m hm).unique (spelled_spelling h ?_ marks)
  exact h.sound.proper_mention hty hnn (Ty.mem_mentions_of_mem_opened hm)

section Alias

variable (h : t.Usable) {name : String} {u : TypeId} (hty : t.get? id = some (.named name u))
include h hty

theorem proper_alias : t.Proper id := h.sound.proper_of_get? hty (by simp)

theorem proper_underlying : t.Proper u := ⟨h.sound.issued id name u hty, h.defined id name u hty⟩

theorem spelling_aggregate (hagg : isNamedAggregate t id = .ok true) (marks : List TypeId) :
    spelling t marks id = .named name :=
  (spelled_spelling h (proper_alias h hty) marks).of_aggregate hty hagg

theorem spelling_marked (hagg : isNamedAggregate t id = .ok false) (hm : id ∈ marks) :
    spelling t marks id = .int 8 :=
  (spelled_spelling h (proper_alias h hty) marks).of_marked hty hagg hm

theorem spelling_expand (hagg : isNamedAggregate t id = .ok false) (hm : id ∉ marks) :
    spelling t marks id = spelling t (id :: marks) u := by
  have hu := (spelled_spelling h (proper_alias h hty) marks).of_expand hty hagg hm
  exact hu.unique (spelled_spelling h (proper_underlying h hty) (id :: marks))

end Alias

/-- Induction along a spelling. -/
theorem spelling_induction (h : t.Usable) {P : List TypeId → TypeId → Prop}
    (parts : ∀ marks id ty, t.Proper id → t.get? id = some ty → ty.isNamed = false →
      (∀ m ∈ ty.opened, P marks m) → P marks id)
    (aggregate : ∀ marks id name u, t.get? id = some (.named name u) → isNamedAggregate t id = .ok true → P marks id)
    (marked : ∀ marks id name u, t.get? id = some (.named name u) → isNamedAggregate t id = .ok false →
      id ∈ marks → P marks id)
    (expand : ∀ marks id name u, t.get? id = some (.named name u) → isNamedAggregate t id = .ok false →
      id ∉ marks → P (id :: marks) u → P marks id)
    (hid : t.Proper id) (marks : List TypeId) : P marks id := by
  induction hn : spellDepth t marks id using Nat.strong_induction_on generalizing id marks with
  | _ n ih =>
    subst hn
    obtain ⟨ty, hty⟩ := get?_of_lt hid.1
    cases hnn : ty.isNamed with
    | false =>
      refine parts marks id ty hid hty hnn fun m hm => ?_
      have hmention := Ty.mem_mentions_of_mem_opened hm
      refine ih _ ?_ (h.sound.proper_mention hty hnn hmention) marks rfl
      have := (h.sound.earlier id ty hty hnn m hmention).1
      unfold spellDepth
      omega
    | true =>
      obtain ⟨name, u, rfl⟩ : ∃ name u, ty = .named name u := by
        cases ty with
        | named name u => exact ⟨name, u, rfl⟩
        | _ => cases hnn
      obtain ⟨named, hagg⟩ := isNamedAggregate_ok h.grounded hid.1
      cases named with
      | true => exact aggregate marks id name u hty hagg
      | false =>
        by_cases hm : id ∈ marks
        · exact marked marks id name u hty hagg hm
        · have hu := proper_underlying h hty
          exact expand marks id name u hty hagg hm
            (ih _ (spellDepth_cons (get?_lt hty) hm hu.1) hu _ rfl)

/-! ## (2) Marks that matter -/

/-- The spelling of one type contains that of the other, or is it. -/
inductive Opens (t : TypeTable) : TypeId → TypeId → Prop
  | part {id m : TypeId} {ty : Ty} : t.get? id = some ty → m ∈ ty.opened → Opens t id m
  | expand {id u : TypeId} {name : String} : t.get? id = some (.named name u) →
      isNamedAggregate t id = .ok false → Opens t id u

/-- The types that a type opens, in order. -/
def openedBy (t : TypeTable) (id : TypeId) : List TypeId :=
  match t.get? id with
  | none => []
  | some (.named _ u) =>
    match isNamedAggregate t id with
    | .ok false => [u]
    | .ok true => []
    | .error _ => []
  | some ty => ty.opened

theorem Opens.mem_openedBy {m : TypeId} (h : Opens t id m) : m ∈ openedBy t id := by
  unfold openedBy
  cases h with
  | part hty hm =>
    have hnn := Ty.not_named_of_mem_opened hm
    rw [hty]
    split
    · contradiction
    · rename_i he; cases he; simp [Ty.isNamed] at hnn
    · rename_i he; cases he; exact hm
  | expand hty hagg => simp [hty, hagg]

theorem not_opens_of_closed {l : List TypeId} (hclosed : ∀ a ∈ l, ∀ b ∈ openedBy t a, b ∈ l) (hid : id ∈ l)
    (hx : x ∉ l) : ¬ ReflTransGen (Opens t) id x := by
  intro hopens
  refine hx (hopens.rec hid fun _ hstep ih => ?_)
  exact hclosed _ ih _ hstep.mem_openedBy

theorem spelling_congr (h : t.Usable) (hid : t.Proper id) {marks marks' : List TypeId}
    (hm : ∀ x, ReflTransGen (Opens t) id x → (x ∈ marks ↔ x ∈ marks')) :
    spelling t marks id = spelling t marks' id := by
  revert hm marks'
  refine spelling_induction h (P := fun marks id => ∀ {marks' : List TypeId},
    (∀ x, ReflTransGen (Opens t) id x → (x ∈ marks ↔ x ∈ marks')) → spelling t marks id = spelling t marks' id)
    ?_ ?_ ?_ ?_ hid marks
  · intro marks id ty hid hty hnn ih marks' hm
    rw [spelling_eq h hid hty hnn, spelling_eq h hid hty hnn]
    exact codeOf_congr fun m hmem => ih m hmem fun x hx => hm x (.head (.part hty hmem) hx)
  · intro marks id name u hty hagg marks' _
    rw [spelling_aggregate h hty hagg, spelling_aggregate h hty hagg]
  · intro marks id name u hty hagg hmark marks' hm
    rw [spelling_marked h hty hagg hmark, spelling_marked h hty hagg ((hm id .refl).mp hmark)]
  · intro marks id name u hty hagg hmark ih marks' hm
    rw [spelling_expand h hty hagg hmark, spelling_expand h hty hagg (mt (hm id .refl).mpr hmark)]
    refine ih fun x hx => ?_
    rw [List.mem_cons, List.mem_cons, hm x (.head (.expand hty hagg) hx)]

/-- An alias that is not met again in what it stands for is spelled like it. -/
theorem spelling_expand_eq (h : t.Usable) (hty : t.get? id = some (.named name u))
    (hagg : isNamedAggregate t id = .ok false) (hm : id ∉ marks) (hopens : ¬ ReflTransGen (Opens t) u id) :
    spelling t marks id = spelling t marks u := by
  rw [spelling_expand h hty hagg hm]
  refine spelling_congr h (proper_underlying h hty) fun x hx => ?_
  have hne : x ≠ id := by
    rintro rfl
    exact hopens hx
  simp [hne]

/-- The aliases on the way from a type to what it stands for. -/
inductive Passes (t : TypeTable) : TypeId → TypeId → Prop
  | here {id u : TypeId} {name : String} : t.get? id = some (.named name u) → Passes t id id
  | next {id u x : TypeId} {name : String} : t.get? id = some (.named name u) → Passes t u x → Passes t id x

theorem Passes.depth_le (hw : t.Whole) (ha : Acyclic t) (h : Passes t id x) : t.depth x ≤ t.depth id := by
  induction h with
  | here => exact Nat.le_refl _
  | next he _ ih => exact ih.trans (hw.depth_lt ha ⟨_, he, List.mem_singleton_self _⟩).le

theorem isNamedAggregate_eq (hty : t.get? id = some (.named name u)) (hv : StandsFor t id v)
    (hvty : t.get? v = some ty) : isNamedAggregate t id = .ok ty.isAggregate := by
  unfold isNamedAggregate
  simp only [bind, Except.bind, get_eq_ok.mpr hty, hv.resolved hvty]
  cases ty <;> rfl

/-- A type is spelled as what it stands for, if that is no struct or sum and no alias on the way
is met again in it. -/
theorem spelling_standsFor (h : t.Usable) (hv : StandsFor t id v) (hvty : t.get? v = some ty) (hvp : t.Proper v)
    (hagg : ty.isAggregate = false) (marks : List TypeId)
    (hfree : ∀ x, Passes t id x → x ∉ marks ∧ ¬ ReflTransGen (Opens t) v x) :
    spelling t marks id = spelling t marks v := by
  induction hv generalizing marks with
  | itself => rfl
  | @through id u v name he hv ih =>
    obtain ⟨hmark, hopens⟩ := hfree id (.here he)
    have hnot := isNamedAggregate_eq he (.through he hv) hvty
    rw [hagg] at hnot
    -- the aliases further on are not this one, since no alias stands for itself
    have hrest : ∀ x, Passes t u x → x ∉ id :: marks ∧ ¬ ReflTransGen (Opens t) v x := by
      intro x hx
      obtain ⟨hxm, hxo⟩ := hfree x (.next he hx)
      have hlt := h.sound.whole.depth_lt h.acyclic ⟨_, he, List.mem_singleton_self u⟩
      have hle := hx.depth_le h.sound.whole h.acyclic
      have hne : x ≠ id := by
        intro e
        rw [e] at hle
        omega
      exact ⟨by simp [hne, hxm], hxo⟩
    rw [spelling_expand h he hnot hmark, ih hvty hvp (id :: marks) hrest]
    refine spelling_congr h hvp fun x hx => ?_
    have hne : x ≠ id := by
      intro e
      exact hopens (e ▸ hx)
    simp [hne]

/-- No alias is met again in what it stands for, other than within an alias of a struct or sum. -/
def Expandable (t : TypeTable) : Prop := ∀ id name u, t.get? id = some (.named name u) →
  isNamedAggregate t id = .ok false → ¬ ReflTransGen (Opens t) u id

theorem Expandable.spelled_as (he : Expandable t) (h : t.Usable) (hv : StandsFor t id v) (hvty : t.get? v = some ty)
    (hagg : ty.isAggregate = false) : spelling t [] id = spelling t [] v := by
  induction hv with
  | itself => rfl
  | through hid hv ih =>
    have hnot := isNamedAggregate_eq hid (.through hid hv) hvty
    rw [hagg] at hnot
    rw [spelling_expand_eq h hid hnot List.not_mem_nil (he _ _ _ hid hnot), ih hvty]

/-! ## (3) Names and texts -/

namespace CodeType

mutual

/-- The named types that a type mentions. -/
def names : CodeType → List String
  | ptr pointee => pointee.names
  | array _ element => element.names
  | struct fields => namesOf fields
  | named name => [name]
  | func result params => result.names ++ namesOf params
  | int _ | float | double => []

def namesOf : List CodeType → List String
  | [] => []
  | t :: rest => t.names ++ namesOf rest

end

theorem namesOf_eq (l : List CodeType) : namesOf l = l.flatMap names := by
  induction l with
  | nil => rfl
  | cons t l ih => rw [namesOf, ih, List.flatMap_cons]

theorem texts_eq (l : List CodeType) : texts l = l.map text := by
  induction l with
  | nil => rfl
  | cons t l ih => rw [texts, ih, List.map_cons]

end CodeType

theorem names_codeOf {f : TypeId → CodeType} (h : name ∈ (codeOf t f ty).names) :
    ∃ m ∈ ty.opened, name ∈ (f m).names := by
  cases ty with
  | float double => cases double <;> simp [codeOf, CodeType.names] at h
  | ptr p | array p => exact ⟨p, by simp [Ty.opened], h⟩
  | struct fields =>
    simp only [codeOf, CodeType.names, CodeType.namesOf_eq, List.mem_flatMap, List.mem_map] at h
    obtain ⟨_, ⟨f, hf, rfl⟩, hname⟩ := h
    exact ⟨f.ty, List.mem_map_of_mem hf, hname⟩
  | func signature =>
    simp only [codeOf, CodeType.names, CodeType.namesOf_eq, List.mem_append, List.mem_flatMap, List.mem_map] at h
    rcases h with hname | ⟨_, ⟨p, hp, rfl⟩, hname⟩
    · exact ⟨_, .head _, hname⟩
    · exact ⟨p.ty, .tail _ (List.mem_map_of_mem hp), hname⟩
  | _ => simp [codeOf, CodeType.names, CodeType.sum, CodeType.namesOf] at h

theorem named_of_mem_names (h : t.Usable) (hid : t.Proper id) (marks : List TypeId)
    (hname : name ∈ (spelling t marks id).names) :
    ∃ a u, t.get? a = some (.named name u) ∧ isNamedAggregate t a = .ok true := by
  revert hname
  refine spelling_induction h (P := fun marks id => name ∈ (spelling t marks id).names →
    ∃ a u, t.get? a = some (.named name u) ∧ isNamedAggregate t a = .ok true) ?_ ?_ ?_ ?_ hid marks
  · intro marks id ty hid hty hnn ih hname
    rw [spelling_eq h hid hty hnn] at hname
    obtain ⟨m, hm, hname⟩ := names_codeOf hname
    exact ih m hm hname
  · intro marks id other u hty hagg hname
    rw [spelling_aggregate h hty hagg, CodeType.names, List.mem_singleton] at hname
    exact ⟨id, u, hname ▸ hty, hagg⟩
  · intro marks id other u hty hagg hmark hname
    rw [spelling_marked h hty hagg hmark] at hname
    simp [CodeType.names] at hname
  · intro marks id other u hty hagg hmark ih hname
    rw [spelling_expand h hty hagg hmark] at hname
    exact ih hname

end Target

end BlockCompiler
