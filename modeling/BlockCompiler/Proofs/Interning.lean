/-
  BlockCompiler.Proofs.Interning — what a handle denotes stays what it denotes.

  Types are compared by handle everywhere, although defining an alias changes an entry that other
  types may already refer to. An alias is recognised by its name alone, so the entry is still found
  where it was.

  (1) In a keyed table looking up and interning give the one handle of an equal entry, or append
      (`Keyed.find?_of_same`, `Keyed.insert_of_same`, `find?_of_new`, `insert_of_new`).
  (2) An entry changes at most once, from an alias that stands for nothing to one that is defined
      (`Ty.Completes`), over all that a compilation can be asked to do (`interning_invariant`).
  (3) Links of aliases end or come back to where they were (`exists_cycle`), and the number of types is
      steps enough to tell (`unwrapAlias_exact`).
-/
import BlockCompiler.Proofs.Canonical
import Mathlib.Data.Fintype.Pigeonhole

namespace BlockCompiler

open Lowering
open TypeTable (StandsFor)
open Interner (get?_lt get?_of_lt)

variable {ty ty' : Ty} {id : TypeId}

/-! ## (1) Looking up and interning -/

namespace TypeTable

variable {t : TypeTable}

theorem Keyed.find?_of_same (hk : t.Keyed) (h : t.get? id = some ty') (hkey : ty'.key = ty.key)
    : t.find? ty = some id := by
  cases hfind : t.find? ty with
  | none => exact absurd hkey (find?_eq_none hfind h)
  | some id' =>
    obtain ⟨ty'', h', hkey'⟩ := find?_eq_some hfind
    rw [hk.single id' id ty'' ty' h' h (hkey'.trans hkey.symm)]

theorem Keyed.insert_of_same (hk : t.Keyed) (h : t.get? id = some ty') (hkey : ty'.key = ty.key)
    : t.insert ty = (id, t) := by
  simp only [Interner.insert, hk.find?_of_same h hkey]

theorem find?_of_new (h : ∀ id ty', t.get? id = some ty' → ty'.key ≠ ty.key) : t.find? ty = none := by
  cases hfind : t.find? ty with
  | none => rfl
  | some id =>
    obtain ⟨ty', hget, hkey⟩ := find?_eq_some hfind
    exact absurd hkey (h id ty' hget)

theorem insert_of_new (h : ∀ id ty', t.get? id = some ty' → ty'.key ≠ ty.key) :
    t.insert ty = (⟨t.size⟩, ⟨t.items.push ty⟩) := by
  simp only [Interner.insert, find?_of_new h]
  rfl

end TypeTable

/-! ## (2) Over whole compilations -/

/-- The entry is the same, or it was an alias that stood for nothing and that may have been defined. -/
def Ty.Completes (ty ty' : Ty) : Prop := ty' = ty ∨ ∃ name u, ty = .named name TypeId.invalid ∧ ty' = .named name u

theorem Ty.Completes.trans {ty'' : Ty} (h : ty.Completes ty') (h' : ty'.Completes ty'') : ty.Completes ty'' := by
  rcases h with rfl | ⟨name, u, rfl, rfl⟩
  · exact h'
  · rcases h' with rfl | ⟨name', u', heq, rfl⟩
    · exact .inr ⟨name, u, rfl, rfl⟩
    · cases heq
      exact .inr ⟨name, u', rfl, rfl⟩

namespace TypeTable

/-- Every entry of the one table is in the other, defined there at most. -/
def Retains (t t' : TypeTable) : Prop := ∀ id ty, t.get? id = some ty → ∃ ty', t'.get? id = some ty' ∧ ty.Completes ty'

theorem Retains.kept (t : TypeTable) : Kept t.Retains := by
  refine ⟨fun {t'} new h id ty hty => ?_, fun {t' t''} {id u} h hdefine id' ty hty => ?_⟩
  · obtain ⟨ty', hty', hc⟩ := h id ty hty
    exact ⟨ty', insert_grows t' new id ty' hty', hc⟩
  · obtain ⟨ty', hty', hc⟩ := h id' ty hty
    obtain ⟨name, hid, -, hget⟩ := get?_of_defineAlias hdefine
    by_cases heq : id' = id
    · rw [heq, hid] at hty'
      cases hty'
      exact ⟨.named name u, by rw [hget, if_pos heq], hc.trans (.inr ⟨name, u, rfl, rfl⟩)⟩
    · exact ⟨ty', by rw [hget, if_neg heq, hty'], hc⟩

end TypeTable

namespace Lowering

/-- Does what is asked, one after the other. -/
def Request.performAll (rs : List Request) (s : State) : State := rs.foldl (fun s r => r.perform {} s) s

theorem Request.becomes_performAll {c : Context} : ∀ (rs : List Request) {s : State}, c.Becomes s.context →
    c.Becomes (performAll rs s).context
  | [], _, h => h
  | r :: rs, _, h => becomes_performAll rs (.step {} r h)

/-- An alias `A` and a pointer to it. -/
def sampleUndefined : State := Request.performAll [.change (.declareAlias "A"), .change (.addType (.ptr ⟨13⟩))] {}

/-- `A` is defined as that pointer. Defining it as an integer then fails, and it is not added again. -/
def sampleDefined : State :=
  Request.performAll [.change (.defineAlias ⟨13⟩ ⟨14⟩), .change (.defineAlias ⟨13⟩ TypeId.i32),
    .change (.addType (.named "A" TypeId.bool))] sampleUndefined

end Lowering

/-! ## (3) What aliases stand for -/

namespace TypeTable

open Relation (ReflTransGen TransGen)

/-- The one type is an alias of the other. -/
def Link (t : TypeTable) (id u : TypeId) : Prop := ∃ name, t.get? id = some (.named name u)

theorem StandsFor.of_links {t : TypeTable} {v u : TypeId} (h : ReflTransGen t.Link id v) (hv : StandsFor t v u) :
    StandsFor t id u := by
  induction h using ReflTransGen.head_induction_on with
  | refl => exact hv
  | head hlink _ ih =>
    obtain ⟨name, hget⟩ := hlink
    exact .through hget ih

/-- Links that do not end come back to a type on the way: there are only so many. -/
theorem exists_cycle {t : TypeTable} (hissued : ∀ id name u, t.get? id = some (.named name u) → u.index < t.size)
    (hlt : id.index < t.size) (hno : ∀ u, ¬ StandsFor t id u) :
    ∃ v, ReflTransGen t.Link id v ∧ TransGen t.Link v v := by
  by_contra hcycle
  let Way := { v : TypeId // ReflTransGen t.Link id v ∧ v.index < t.size }
  have hnext : ∀ v : Way, ∃ w : Way, t.Link v.1 w.1 := by
    rintro ⟨v, hv, hvlt⟩
    obtain ⟨ty, hty⟩ := get?_of_lt hvlt
    cases hn : ty.isNamed with
    | false => exact absurd (.of_links hv (.itself hty hn)) (hno v)
    | true =>
      cases ty with
      | named name u => exact ⟨⟨u, hv.tail ⟨name, hty⟩, hissued v name u hty⟩, name, hty⟩
      | _ => cases hn
  have hfinite : Finite Way := Finite.of_injective (fun v => (⟨v.1.index, v.2.2⟩ : Fin t.size)) fun v w h =>
    Subtype.ext (Handle.eq_of_index (congrArg Fin.val h))
  -- without a cycle, some type on the way would be the last one
  let Later (w v : Way) : Prop := TransGen t.Link v.1 w.1
  have htrans : IsTrans Way Later := ⟨fun _ _ _ h h' => h'.trans h⟩
  have hirrefl : Std.Irrefl Later := ⟨fun v h => hcycle ⟨v.1, v.2.1, h⟩⟩
  obtain ⟨v, -, hlast⟩ :=
    (Finite.wellFounded_of_trans_of_irrefl Later).has_min Set.univ ⟨⟨id, .refl, hlt⟩, trivial⟩
  obtain ⟨w, hlink⟩ := hnext v
  exact hlast w trivial (.single hlink)

end TypeTable

namespace Lowering

/-- In every context that requests make of a fresh one, if its aliases stand for issued types: where the
links from a type end, `unwrapAlias` gives the type at their end, however many they are. Where they do
not end, they come back to a type on the way, and it gives `invalid`. A handle that was never issued is a
fault. So a result is no alias, and its own result. -/
theorem unwrapAlias_exact {c : Context} (h : Context.Becomes {} c)
    (hissued : ∀ id name u, c.types.get? id = some (.named name u) → u.index < c.types.size) (id : TypeId) :
    (∀ u, StandsFor c.types id u → c.types.unwrapAlias id = .ok u) ∧
    (id.index < c.types.size → (∀ u, ¬ StandsFor c.types id u) → c.types.unwrapAlias id = .ok TypeId.invalid ∧
      ∃ v, Relation.ReflTransGen c.types.Link id v ∧ Relation.TransGen c.types.Link v v) ∧
    (c.types.size ≤ id.index → c.types.unwrapAlias id = .error (.staleInterned id.index c.types.size)) ∧
    ∀ v, c.types.unwrapAlias id = .ok v →
      (∃ ty, c.types.get? v = some ty ∧ ty.isNamed = false) ∧ c.types.unwrapAlias v = .ok v := by
  have hinvalid : c.types.get? TypeId.invalid = some .invalid :=
    (h.types TypeTable.Keyed.kept TypeTable.fresh_keyed).primitive 12 .invalid rfl
  refine ⟨fun u hu => hu.unwrapAlias, fun hlt hno => ⟨?_, TypeTable.exists_cycle hissued hlt hno⟩, fun hstale => ?_, ?_⟩
  · obtain ⟨v, hv, -⟩ := TypeTable.follow_of_issued hissued (get?_lt hinvalid) hlt (c.types.size + 1)
    rcases TypeTable.follow_ok hv with rfl | hst
    · exact hv
    · exact absurd hst (hno v)
  · rw [TypeTable.unwrapAlias, TypeTable.follow_succ]
    cases hget : c.types.get? id with
    | none => rfl
    | some ty => exact absurd (get?_lt hget) (by omega)
  · intro v hv
    have hitself : StandsFor c.types v v := by
      rcases TypeTable.follow_ok hv with rfl | hst
      · exact .itself hinvalid rfl
      · obtain ⟨ty, hty, hn⟩ := hst.get?
        exact .itself hty hn
    exact ⟨hitself.get?, hitself.unwrapAlias⟩

/-- Aliases `A` and `B` of each other, `C` of `A`, and `D` of an integer through `E`. -/
def sampleChains : State :=
  Request.performAll [.change (.declareAlias "A"), .change (.declareAlias "B"), .change (.declareAlias "C"),
    .change (.declareAlias "D"), .change (.declareAlias "E"), .change (.defineAlias ⟨13⟩ ⟨14⟩),
    .change (.defineAlias ⟨14⟩ ⟨13⟩), .change (.defineAlias ⟨15⟩ ⟨13⟩), .change (.defineAlias ⟨16⟩ ⟨17⟩),
    .change (.defineAlias ⟨17⟩ TypeId.i32)] {}

theorem sampleChains_unwrapped : Context.Becomes {} sampleChains.context ∧
    (∀ id name u, sampleChains.context.types.get? id = some (.named name u) → u.index < sampleChains.context.types.size) ∧
    sampleChains.context.types.unwrapAlias ⟨16⟩ = .ok TypeId.i32 ∧
    sampleChains.context.types.unwrapAlias ⟨15⟩ = .ok TypeId.invalid ∧
    sampleChains.context.types.unwrapAlias TypeId.invalid = .ok TypeId.invalid := by
  have hbecomes : Context.Becomes {} sampleChains.context := Request.becomes_performAll _ .refl
  have hissued : ∀ id name u, sampleChains.types.get? id = some (.named name u) →
      u.index < sampleChains.types.size := fun id name u hget => by
    have hall : ∀ ty ∈ sampleChains.types.items, ∀ m ∈ ty.mentions,
        m.index < sampleChains.types.size := by decide +kernel
    exact hall _ (Array.mem_of_getElem? hget) u List.mem_cons_self
  have houter : sampleChains.types.get? ⟨16⟩ = some (.named "D" ⟨17⟩) := by decide +kernel
  have hinner : sampleChains.types.get? ⟨17⟩ = some (.named "E" TypeId.i32) := by decide +kernel
  have hint : sampleChains.types.get? TypeId.i32 = some (.int true 32) := by decide +kernel
  have hchain : StandsFor sampleChains.types ⟨16⟩ TypeId.i32 :=
    .through houter (.through hinner (.itself hint rfl))
  have hcycle : sampleChains.types.unwrapAlias ⟨15⟩ = .ok TypeId.invalid := by decide +kernel
  exact ⟨hbecomes, hissued, (unwrapAlias_exact hbecomes hissued ⟨16⟩).1 _ hchain, hcycle,
    ((unwrapAlias_exact hbecomes hissued ⟨15⟩).2.2.2 _ hcycle).2⟩

end Lowering

end BlockCompiler
