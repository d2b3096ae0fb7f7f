/-
  BlockCompiler.Proofs.ByValue — types without by-value cycles have a layout.

  `Contains t a b`: the type `a` contains `b` by value. A table is acyclic when no type
  contains itself through one or more such steps.

  (1) The search answers `true` only if the alias contains itself (`contains_of_isCyclic_true`),
      and `false` only if it does not (`not_contains_of_isCyclic_false`): what was seen and what is
      pending covers everything reachable, and the steps allowed suffice because a type is expanded
      once.
  (2) Types that are no aliases contain earlier ones, so a cycle passes through an alias
      (`contains_earlier_or_named`): a table whose aliases do not contain themselves is acyclic,
      and it stays so when types are added (`Acyclic.adds`).
  (3) In an acyclic table that holds all that its types are made of (`Whole`) the depth of a type
      is at most the size of the table (`depth_le`), so following aliases reaches an end and sizes
      and alignments are found (`Whole.unwrapAlias_standsFor`, `Whole.align_ok`,
      `Whole.byteSize_ok`). Aliases that reach an end are followed to it in any table
      (`StandsFor.unwrapAlias`).
-/
import BlockCompiler.Proofs.Annotation
import BlockCompiler.Types.ByValue
import BlockCompiler.Types.Layout
import Mathlib.Algebra.BigOperators.Group.Finset.Basic
import Mathlib.Data.Fintype.EquivFin
import Mathlib.Logic.Relation

namespace BlockCompiler

open List (length_cons mem_cons mem_reverse)

variable {a b goal id u v : TypeId} {t : TypeTable} {n : Nat} {name : String} {pending seen variants : List TypeId}
  {ty : Ty}

namespace TypeTable

open Relation (TransGen ReflTransGen)
open Interner (get_eq_ok get?_lt get?_of_lt)

def Contains (t : TypeTable) (a b : TypeId) : Prop := ∃ ty, t.get? a = some ty ∧ b ∈ ty.parts

def Acyclic (t : TypeTable) : Prop := ∀ id, ¬ TransGen (Contains t) id id

theorem mem_mentions_of_mem_parts {m : TypeId} (h : m ∈ ty.parts) : m ∈ ty.mentions := by
  cases ty <;> simp_all [Ty.parts, Ty.mentions]

/-- Everything that types are made of is in the table. -/
def Whole (t : TypeTable) : Prop := ∀ id ty, t.get? id = some ty → ∀ m ∈ ty.mentions, m.index < t.size

theorem Sound.whole (hs : Sound t) : t.Whole := fun _ _ h _ hm => hs.mention_lt h hm

theorem Contains.lt (hw : t.Whole) (h : Contains t a b) : b.index < t.size := by
  obtain ⟨ty, hty, hb⟩ := h
  exact hw a ty hty b (mem_mentions_of_mem_parts hb)

/-! ## (1) The search -/

/-- The number of parts of the types that are not yet seen. -/
def unseenParts (t : TypeTable) (seen : List TypeId) : Nat :=
  ∑ i ∈ (Finset.range t.size).filter fun i => (⟨i⟩ : TypeId) ∉ seen,
    (((t.get? ⟨i⟩).map (·.parts.length)).getD 0)

theorem unseenParts_cons (h : t.get? id = some ty) (hn : id ∉ seen) :
    ty.parts.length + unseenParts t (id :: seen) = unseenParts t seen := by
  have hmem : id.index ∈ (Finset.range t.size).filter fun i => (⟨i⟩ : TypeId) ∉ seen := by
    simpa [get?_lt h] using hn
  have herase : ((Finset.range t.size).filter fun i => (⟨i⟩ : TypeId) ∉ id :: seen) =
      ((Finset.range t.size).filter fun i => (⟨i⟩ : TypeId) ∉ seen).erase id.index := by
    ext i
    obtain ⟨j⟩ := id
    simp only [Finset.mem_filter, Finset.mem_range, mem_cons, Handle.mk.injEq, not_or, Finset.mem_erase]
    tauto
  unfold unseenParts
  rw [herase, ← Finset.add_sum_erase _ _ hmem]
  simp [h]

theorem partCount_eq (t : TypeTable) : t.partCount = unseenParts t [] := by
  have hfold : ∀ (l : List Ty) (n : Nat),
      l.foldl (fun n ty => n + ty.parts.length) n = n + (l.map (·.parts.length)).sum := by
    intro l
    induction l with
    | nil => simp
    | cons ty l ih => intro n; simp only [List.foldl_cons, ih, List.map_cons, List.sum_cons]; omega
  have hsum : ∀ (l : List Ty),
      (l.map (·.parts.length)).sum = ∑ i ∈ Finset.range l.length, ((l[i]?.map (·.parts.length)).getD 0) := by
    intro l
    induction l with
    | nil => rfl
    | cons ty l ih => rw [length_cons, Finset.sum_range_succ']; simp [ih, Nat.add_comm]
  unfold partCount unseenParts
  rw [hfold, hsum]
  simp [Interner.get?, Interner.size]

theorem searchParts_succ_cons (t : TypeTable) (goal : TypeId) (n : Nat) (seen pending : List TypeId) (id : TypeId) :
    t.searchParts goal (n + 1) seen (id :: pending) =
      if id = goal then .ok true
      else if id ∈ seen then t.searchParts goal n seen pending
      else match t.get? id with
        | some ty => t.searchParts goal n (id :: seen) (ty.parts.reverse ++ pending)
        | none => .error (.staleInterned id.index t.size) := by
  rw [searchParts]
  split
  · rfl
  · split
    · rfl
    · cases h : t.get? id <;> simp [Interner.get, h, bind, Except.bind]

/-- A search among issued types ends without a fault. -/
theorem searchParts_ok (h : ∀ id ∈ pending, ∀ x, ReflTransGen (Contains t) id x → x.index < t.size) :
    ∃ found, t.searchParts goal n seen pending = .ok found := by
  induction n generalizing seen pending with
  | zero => exact ⟨false, rfl⟩
  | succ n ih =>
    cases pending with
    | nil => exact ⟨false, rfl⟩
    | cons id pending =>
      have hrest : ∀ p ∈ pending, ∀ x, ReflTransGen (Contains t) p x → x.index < t.size := fun p hp =>
        h p (.tail _ hp)
      rw [searchParts_succ_cons]
      split
      · exact ⟨true, rfl⟩
      · split
        · exact ih hrest
        · obtain ⟨ty, hty⟩ := get?_of_lt (h id (.head _) id .refl)
          rw [hty]
          refine ih fun p hp x hx => ?_
          rcases List.mem_append.mp hp with hp | hp
          · exact h id (.head _) x (.head ⟨ty, hty, mem_reverse.mp hp⟩ hx)
          · exact hrest p hp x hx

/-- What is found is contained in something that was pending. -/
theorem searchParts_true (h : t.searchParts goal n seen pending = .ok true) :
    ∃ id ∈ pending, ReflTransGen (Contains t) id goal := by
  induction n generalizing seen pending with
  | zero => cases h
  | succ n ih =>
    cases pending with
    | nil => cases h
    | cons id pending =>
      have hlater : (∃ p ∈ pending, ReflTransGen (Contains t) p goal) →
          ∃ p ∈ id :: pending, ReflTransGen (Contains t) p goal := fun ⟨p, hp, hgoal⟩ =>
        ⟨p, .tail _ hp, hgoal⟩
      rw [searchParts_succ_cons] at h
      split at h
      · rename_i heq
        exact ⟨id, .head _, heq ▸ .refl⟩
      · split at h
        · exact hlater (ih h)
        · split at h
          · rename_i ty hty
            obtain ⟨p, hp, hgoal⟩ := ih h
            rcases List.mem_append.mp hp with hp | hp
            · exact ⟨id, .head _, .head ⟨ty, hty, mem_reverse.mp hp⟩ hgoal⟩
            · exact hlater ⟨p, hp, hgoal⟩
          · cases h

/-- A search that finds nothing ends with a set of types that holds what was pending and all
that its members contain, and not the goal. -/
theorem searchParts_false (h : t.searchParts goal n seen pending = .ok false)
    (hsteps : pending.length + unseenParts t seen < n) (hgoal : goal ∉ seen)
    (hseen : ∀ x ∈ seen, ∀ y, Contains t x y → y ∈ seen ∨ y ∈ pending) :
    ∃ all : List TypeId, (∀ x ∈ seen, x ∈ all) ∧ (∀ x ∈ pending, x ∈ all) ∧ goal ∉ all ∧
      ∀ x ∈ all, ∀ y, Contains t x y → y ∈ all := by
  induction n generalizing seen pending with
  | zero => omega
  | succ n ih =>
    cases pending with
    | nil =>
      refine ⟨seen, fun _ hx => hx, by simp, hgoal, fun x hx y hy => ?_⟩
      simpa using hseen x hx y hy
    | cons id pending =>
      rw [searchParts_succ_cons] at h
      split at h
      · cases h
      · rename_i hne
        split at h
        · -- a type met again: what it contains is covered already
          rename_i hin
          simp only [length_cons] at hsteps
          obtain ⟨all, h1, h2, h3, h4⟩ := ih h (by omega) hgoal fun x hx y hy => by
            rcases hseen x hx y hy with hy | hy
            · exact Or.inl hy
            · rcases mem_cons.mp hy with rfl | hy
              · exact Or.inl hin
              · exact Or.inr hy
          refine ⟨all, h1, ?_, h3, h4⟩
          intro x hx
          rcases mem_cons.mp hx with rfl | hx
          · exact h1 x hin
          · exact h2 x hx
        · rename_i hnot
          split at h
          · -- a new type: its parts are added to what is pending
            rename_i ty hty
            have hcount := unseenParts_cons hty hnot
            simp only [length_cons] at hsteps
            obtain ⟨all, h1, h2, h3, h4⟩ := ih h
              (by simp only [List.length_append, List.length_reverse]; omega)
              (by simp only [mem_cons, not_or]; exact ⟨fun e => hne e.symm, hgoal⟩)
              fun x hx y hy => by
                rcases mem_cons.mp hx with rfl | hx
                · obtain ⟨ty', hty', hy⟩ := hy
                  rw [hty] at hty'
                  cases hty'
                  exact Or.inr (List.mem_append_left _ (mem_reverse.mpr hy))
                · rcases hseen x hx y hy with hy | hy
                  · exact Or.inl (.tail _ hy)
                  · rcases mem_cons.mp hy with rfl | hy
                    · exact Or.inl (.head _)
                    · exact Or.inr (List.mem_append_right _ hy)
            refine ⟨all, fun x hx => h1 x (.tail _ hx), ?_, h3, h4⟩
            intro x hx
            rcases mem_cons.mp hx with rfl | hx
            · exact h1 x (.head _)
            · exact h2 x (List.mem_append_right _ hx)
          · cases h

theorem isCyclic_named (h : t.get? id = some (.named name u)) :
    t.isCyclic id = t.searchParts id (t.partCount + 2) [] [u] := by
  unfold isCyclic
  rw [Interner.get, h]
  rfl

theorem isCyclic_ok (h : t.get? id = some (.named name u))
    (hin : ∀ x, ReflTransGen (Contains t) id x → x.index < t.size) : ∃ found, t.isCyclic id = .ok found := by
  rw [isCyclic_named h]
  refine searchParts_ok fun p hp x hx => hin x (.head ⟨_, h, ?_⟩ hx)
  rwa [Ty.parts]

theorem Sound.isCyclic (hs : Sound t) (h : t.get? id = some (.named name u)) : ∃ found, t.isCyclic id = .ok found := by
  refine isCyclic_ok h fun x hx => ?_
  rcases hx.cases_tail with rfl | ⟨y, -, hyx⟩
  · exact get?_lt h
  · exact hyx.lt hs.whole

theorem contains_of_isCyclic_true (h : t.get? id = some (.named name u)) (hc : t.isCyclic id = .ok true) :
    TransGen (Contains t) id id := by
  rw [isCyclic_named h] at hc
  obtain ⟨p, hp, hgoal⟩ := searchParts_true hc
  exact .head' ⟨_, h, hp⟩ hgoal

theorem not_contains_of_isCyclic_false (h : t.get? id = some (.named name u)) (hc : t.isCyclic id = .ok false) :
    ¬ TransGen (Contains t) id id := by
  rw [isCyclic_named h] at hc
  obtain ⟨all, -, hu, hgoal, hclosed⟩ := searchParts_false hc
    (by rw [partCount_eq]; simp only [List.length_singleton]; omega) (by simp) (by simp)
  have hall : ∀ {y : TypeId}, ReflTransGen (Contains t) u y → y ∈ all := by
    intro y hy
    induction hy with
    | refl => exact hu u (by simp)
    | tail _ hyz ih => exact hclosed _ ih _ hyz
  intro hcycle
  obtain ⟨v, ⟨ty, hty, hv⟩, hrest⟩ := Relation.TransGen.head'_iff.mp hcycle
  rw [h] at hty
  cases hty
  simp only [Ty.parts, List.mem_singleton] at hv
  subst hv
  exact hgoal (hall hrest)

/-! ## (2) Cycles pass through aliases -/

/-- Containing leads to an earlier type or passes through an alias. -/
theorem contains_earlier_or_named (hs : Sound t) (h : TransGen (Contains t) a b) :
    b.index < a.index ∨ ∃ c name u, t.get? c = some (.named name u) ∧ ReflTransGen (Contains t) a c ∧
      TransGen (Contains t) c b := by
  have hstep : ∀ {a b : TypeId}, Contains t a b → b.index < a.index ∨ ∃ name u, t.get? a = some (.named name u) := by
    rintro a b ⟨ty, hty, hb⟩
    cases hn : ty.isNamed with
    | false => exact Or.inl (hs.earlier a ty hty hn b (mem_mentions_of_mem_parts hb)).1
    | true =>
      cases ty with
      | named name u => exact Or.inr ⟨name, u, hty⟩
      | _ => simp [Ty.isNamed] at hn
  induction h with
  | single hab =>
    rcases hstep hab with hlt | ⟨name, u, ha⟩
    · exact Or.inl hlt
    · exact Or.inr ⟨_, name, u, ha, .refl, .single hab⟩
  | tail hab hbc ih =>
    rcases ih with hlt | ⟨c, name, u, hc, hac, hcb⟩
    · rcases hstep hbc with hlt' | ⟨name, u, hb⟩
      · exact Or.inl (Nat.lt_trans hlt' hlt)
      · exact Or.inr ⟨_, name, u, hb, hab.to_reflTransGen, .single hbc⟩
    · exact Or.inr ⟨c, name, u, hc, hac, hcb.tail hbc⟩

theorem acyclic_of_named (hs : Sound t)
    (h : ∀ id name u, t.get? id = some (.named name u) → ¬ TransGen (Contains t) id id) : Acyclic t := by
  intro id hid
  rcases contains_earlier_or_named hs hid with hlt | ⟨c, name, u, hc, hac, hcb⟩
  · omega
  · exact h c name u hc (hcb.trans_left hac)

/-- What a type contains does not change when types are added. -/
theorem contains_of_adds {st st' : Typing} (hs : Sound st.types) (ha : st.Adds st')
    (h : TransGen (Contains st'.types) a b) (hlt : a.index < st.types.size) : TransGen (Contains st.types) a b := by
  have hback : ∀ {a b : TypeId}, Contains st'.types a b → a.index < st.types.size → Contains st.types a b := by
    rintro a b ⟨ty, hty, hb⟩ hlt
    obtain ⟨ty', hty'⟩ := get?_of_lt hlt
    have := ha.grows _ _ hty'
    rw [hty] at this
    cases this
    exact ⟨ty, hty', hb⟩
  have hboth : TransGen (Contains st.types) a b ∧ b.index < st.types.size := by
    induction h with
    | single hab =>
      have := hback hab hlt
      exact ⟨.single this, this.lt hs.whole⟩
    | tail _ hbc ih =>
      have := hback hbc ih.2
      exact ⟨ih.1.tail this, this.lt hs.whole⟩
  exact hboth.1

theorem Acyclic.adds {st st' : Typing} (h : Acyclic st.types) (hs : Sound st.types) (ha : st.Adds st') :
    Acyclic st'.types := by
  refine acyclic_of_named ha.sound fun id name u hid hcycle => ?_
  exact h id (contains_of_adds hs ha hcycle (get?_lt (ha.aliases id name u hid)))

/-! ## (3) Depth -/

open Classical in
/-- The number of types that a type contains, directly or not. -/
noncomputable def depth (t : TypeTable) (id : TypeId) : Nat :=
  ((Finset.range t.size).filter fun i => TransGen (Contains t) id ⟨i⟩).card

open Classical in
theorem depth_le (t : TypeTable) (id : TypeId) : t.depth id ≤ t.size := by
  unfold depth
  exact (Finset.card_filter_le _ _).trans (by simp)

namespace Whole

variable {t : TypeTable} (hw : t.Whole)
include hw

open Classical in
theorem depth_lt (ha : Acyclic t) (h : Contains t a b) : t.depth b < t.depth a := by
  unfold depth
  refine Finset.card_lt_card (Finset.ssubset_iff_subset_ne.mpr ⟨fun i hi => ?_, fun e => ?_⟩)
  · simp only [Finset.mem_filter] at hi ⊢
    exact ⟨hi.1, .head h hi.2⟩
  · have hb : b.index ∈ (Finset.range t.size).filter fun i => TransGen (Contains t) a ⟨i⟩ := by
      simp only [Finset.mem_filter, Finset.mem_range]
      exact ⟨h.lt hw, .single h⟩
    rw [← e] at hb
    exact ha b (Finset.mem_filter.mp hb).2

theorem depth_standsFor_le (ha : Acyclic t) (h : StandsFor t id v) : t.depth v ≤ t.depth id := by
  induction h with
  | itself => exact Nat.le_refl _
  | through he _ ih => exact ih.trans (hw.depth_lt ha ⟨_, he, List.mem_singleton_self _⟩).le

theorem follow_standsFor (ha : Acyclic t) (hlt : id.index < t.size) (hn : t.depth id < n) :
    ∃ v, t.follow n id = .ok v ∧ StandsFor t id v := by
  induction n generalizing id with
  | zero => omega
  | succ n ih =>
    obtain ⟨ty, hty⟩ := get?_of_lt hlt
    rw [follow_succ, hty]
    cases ty with
    | named name u =>
      have hc : Contains t id u := ⟨_, hty, List.mem_singleton_self u⟩
      have hd := hw.depth_lt ha hc
      obtain ⟨v, hv, hsv⟩ := ih (hc.lt hw) (by omega)
      exact ⟨v, hv, .through hty hsv⟩
    | _ => exact ⟨id, rfl, .itself hty rfl⟩

theorem unwrapAlias_standsFor (ha : Acyclic t) (hlt : id.index < t.size) :
    ∃ v, t.unwrapAlias id = .ok v ∧ StandsFor t id v :=
  hw.follow_standsFor ha hlt (Nat.lt_succ_of_le (t.depth_le id))

end Whole

/-! ### Chains of aliases -/

theorem StandsFor.lt (h : StandsFor t id v) : id.index < t.size := by
  cases h with
  | itself he _ => exact get?_lt he
  | through he _ => exact get?_lt he

/-- `Hops t n id v`: there are `n` aliases on the way from `id` to what it stands for. -/
inductive Hops (t : TypeTable) : Nat → TypeId → TypeId → Prop
  | itself {id : TypeId} {ty : Ty} : t.get? id = some ty → ty.isNamed = false → Hops t 0 id id
  | through {n : Nat} {id u v : TypeId} {name : String} :
      t.get? id = some (.named name u) → Hops t n u v → Hops t (n + 1) id v

theorem StandsFor.hops (h : StandsFor t id v) : ∃ n, Hops t n id v := by
  induction h with
  | itself he hn => exact ⟨0, .itself he hn⟩
  | through he _ ih =>
    obtain ⟨n, hn⟩ := ih
    exact ⟨n + 1, .through he hn⟩

theorem Hops.standsFor (h : Hops t n id v) : StandsFor t id v := by
  induction h with
  | itself he hn => exact .itself he hn
  | through he _ ih => exact .through he ih

theorem Hops.unique {m : Nat} {v w : TypeId} (h : Hops t n id v) (h' : Hops t m id w) : n = m := by
  induction h generalizing m with
  | itself he hn =>
    cases h' with
    | itself => rfl
    | through he' _ => rw [he] at he'; cases he'; simp [Ty.isNamed] at hn
  | through he _ ih =>
    cases h' with
    | itself he' hn' => rw [he] at he'; cases he'; simp [Ty.isNamed] at hn'
    | through he' h' => rw [he] at he'; cases he'; rw [ih h']

/-- Every shorter way to the end starts at a type on the way. -/
theorem Hops.exists_of_le (h : Hops t n id v) {k : Nat} (hk : k ≤ n) : ∃ id', Hops t k id' v ∧ id'.index < t.size := by
  induction h with
  | itself he hn =>
    obtain rfl : k = 0 := by omega
    exact ⟨_, .itself he hn, get?_lt he⟩
  | @through n id u v name he hu ih =>
    rcases Nat.lt_or_ge n k with hlt | hle
    · obtain rfl : k = n + 1 := by omega
      exact ⟨id, .through he hu, get?_lt he⟩
    · exact ih hle

/-- The types on the way differ, since each has its own distance from the end. -/
theorem Hops.lt_size (h : Hops t n id v) : n < t.size := by
  choose way hway hlt using fun k : Fin (n + 1) => h.exists_of_le (Nat.le_of_lt_succ k.isLt)
  have hinj : Function.Injective fun k => (⟨(way k).index, hlt k⟩ : Fin t.size) := by
    intro i j hij
    have hindex : (way i).index = (way j).index := congrArg Fin.val hij
    have hsame : way i = way j := congrArg Handle.mk hindex
    exact Fin.ext ((hway i).unique (hsame ▸ hway j))
  have := Fintype.card_le_of_injective _ hinj
  simp only [Fintype.card_fin] at this
  omega

theorem Hops.follow {m : Nat} (h : Hops t n id v) (hn : n < m) : t.follow m id = .ok v := by
  induction h generalizing m with
  | @itself id ty he hnamed =>
    obtain ⟨m, rfl⟩ : ∃ k, m = k + 1 := ⟨m - 1, by omega⟩
    rw [follow_succ, he]
    cases ty with
    | named name u => simp [Ty.isNamed] at hnamed
    | _ => rfl
  | through he _ ih =>
    obtain ⟨m, rfl⟩ : ∃ k, m = k + 1 := ⟨m - 1, by omega⟩
    rw [follow_succ, he]
    exact ih (by omega)

theorem StandsFor.unwrapAlias (h : StandsFor t id v) : t.unwrapAlias id = .ok v := by
  obtain ⟨n, hn⟩ := h.hops
  exact hn.follow (Nat.lt_succ_of_lt hn.lt_size)

theorem StandsFor.resolved (h : StandsFor t id v) (hty : t.get? v = some ty) : t.resolved id = .ok ty :=
  resolved_eq_ok.mpr ⟨v, h.unwrapAlias, hty⟩

theorem variantType_of_standsFor {sum : TypeId} {d : VariantId} (hst : StandsFor t sum id)
    (hsum : t.get? id = some (.sum variants)) (hd : d.index < variants.length) :
    t.variantType sum d = .ok variants[d.index] :=
  variantType_of_resolved (hst.resolved hsum) (List.getElem?_eq_getElem hd)

/-! ### Layout -/

theorem payloadWordsBy_ok (size : TypeId → Except Fault UInt64) (variants : List TypeId)
    (h : ∀ v ∈ variants, ∃ n, size v = .ok n) : ∃ n, payloadWordsBy size variants = .ok n := by
  refine bind_ok_of (exists_foldlM_ok variants (fun m v hv => ?_) 0) fun _ => ⟨_, rfl⟩
  exact bind_ok_of (h v hv) fun _ => ⟨_, rfl⟩

namespace Whole

variable {t : TypeTable} (hw : t.Whole)
include hw

/-- A measure of types that needs that of their parts is known where the depth allows. -/
theorem measure_ok (ha : Acyclic t) {f : Nat → TypeId → Except Fault UInt64}
    (hf : ∀ n id v ty, StandsFor t id v → t.get? v = some ty →
      (∀ p ∈ ty.parts, p.index < t.size ∧ ∃ a, f n p = .ok a) → ∃ a, f (n + 1) id = .ok a)
    (hlt : id.index < t.size) (hn : t.depth id < n) : ∃ a, f n id = .ok a := by
  induction n generalizing id with
  | zero => omega
  | succ n ih =>
    obtain ⟨v, -, hsv⟩ := hw.unwrapAlias_standsFor ha hlt
    obtain ⟨ty, hty, -⟩ := hsv.get?
    refine hf n id v ty hsv hty fun p hp => ?_
    have hc : Contains t v p := ⟨ty, hty, hp⟩
    have hd := hw.depth_lt ha hc
    have hle := hw.depth_standsFor_le ha hsv
    exact ⟨hc.lt hw, ih (hc.lt hw) (by omega)⟩

theorem align_ok (ha : Acyclic t) (hlt : id.index < t.size) : ∃ a, t.align id = .ok a := by
  refine hw.measure_ok ha (fun n id v ty hsv hty hpart => ?_) hlt (Nat.lt_succ_of_le (t.depth_le id))
  refine exists_bind_ok (hsv.resolved hty) ?_
  cases ty with
  | array e len => exact (hpart e (.head _)).2
  | struct fields =>
    refine exists_foldlM_ok fields (fun a f hf => ?_) 1
    exact bind_ok_of (hpart f.ty (List.mem_map_of_mem hf)).2 fun _ => ⟨_, rfl⟩
  | _ => exact ⟨_, rfl⟩

theorem byteSize_ok (ha : Acyclic t) (hlt : id.index < t.size) : ∃ n, t.byteSize id = .ok n := by
  refine hw.measure_ok ha (fun n id v ty hsv hty hpart => ?_) hlt (Nat.lt_succ_of_le (t.depth_le id))
  refine exists_bind_ok hsv.unwrapAlias (exists_bind_ok (get_eq_ok.mpr hty) ?_)
  cases ty with
  | array e len => exact bind_ok_of (hpart e (.head _)).2 fun _ => ⟨_, rfl⟩
  | struct fields =>
    refine bind_ok_of (exists_foldlM_ok fields (fun offset f hf => ?_) 0) fun _ => ?_
    · obtain ⟨hlt, hsize⟩ := hpart f.ty (List.mem_map_of_mem hf)
      exact bind_ok_of (hw.align_ok ha hlt) fun _ => bind_ok_of hsize fun _ => ⟨_, rfl⟩
    · exact bind_ok_of (hw.align_ok ha (get?_lt hty)) fun _ => ⟨_, rfl⟩
  | sum variants => exact bind_ok_of (payloadWordsBy_ok _ variants fun v hv => (hpart v hv).2) fun _ => ⟨_, rfl⟩
  | _ => exact ⟨_, rfl⟩

theorem payloadWords_ok (ha : Acyclic t) (h : ∀ v ∈ variants, v.index < t.size) :
    ∃ n, t.payloadWords variants = .ok n :=
  payloadWordsBy_ok _ _ fun v hv => hw.byteSize_ok ha (h v hv)

end Whole

end TypeTable

end BlockCompiler
