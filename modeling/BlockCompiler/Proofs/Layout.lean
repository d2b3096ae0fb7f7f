/-
  BlockCompiler.Proofs.Layout — sizes and alignments without a bound on depth.

  Sizes and alignments are worked out up to a depth, and deeper types are a fault. The fault never
  shows for the bound's sake: at a depth of as many levels as there are types, what has no answer
  gets none at any depth.

  (1) `Approx x y`: the one answer is `endlessType`, or it is the other. A recursion that only ever
      replaces this fault by answers is settled after as many rounds as there are types
      (`settled_of_approx`).
  (2) So sizes and alignments are the same at every greater depth (`alignWithin_eq`,
      `sizeWithin_eq`).
  (3) An alias is found to contain itself exactly if it does. After a module was lowered no type
      contains itself, and all types have a layout (`byValue_recursion_rejected`).
-/
import BlockCompiler.Proofs.Module

namespace BlockCompiler

open Interner (get_eq_ok get?_lt get?_of_lt)
open Relation (TransGen ReflTransGen)

variable {n : Nat} {id : TypeId} {r r' : TypeId → Except Fault UInt64}

/-! ## (1) Rounds -/

section Approx

variable {α β : Type}

/-- The first answer is that the type is too deep, or both are the same. -/
def Approx (x y : Except Fault α) : Prop := x ≠ .error .endlessType → y = x

theorem Approx.refl (x : Except Fault α) : Approx x x := fun _ => rfl

theorem Approx.antisymm {x y : Except Fault α} (h : Approx x y) (h' : Approx y x) : x = y := by
  by_cases hx : x = .error .endlessType
  · by_cases hy : y = .error .endlessType
    · rw [hx, hy]
    · exact h' hy
  · exact (h hx).symm

theorem Approx.bind {x y : Except Fault α} {f g : α → Except Fault β} (h : Approx x y)
    (hfg : ∀ a, Approx (f a) (g a)) : Approx (x >>= f) (y >>= g) := by
  intro hne
  cases x with
  | error e =>
    rw [h fun he => hne (by rw [he]; rfl)]
    rfl
  | ok a =>
    rw [h (by simp)]
    exact hfg a hne

theorem Approx.foldlM {f g : β → α → Except Fault β} : ∀ {l : List α}, (∀ b, ∀ x ∈ l, Approx (f b x) (g b x)) → ∀ b,
    Approx (l.foldlM f b) (l.foldlM g b)
  | [], _, _ => .refl _
  | x :: l, h, b => by
    rw [List.foldlM_cons, List.foldlM_cons]
    exact (h b x (.head _)).bind fun b' => foldlM (fun b y hy => h b y (.tail _ hy)) b'

variable {size : Nat} {F : (TypeId → Except Fault α) → TypeId → Except Fault α} {f : Nat → TypeId → Except Fault α}

/-- As long as answers change from round to round, each round answers for one more type. -/
theorem exists_settled_round (happrox : ∀ n id, id.index < size → Approx (f n id) (f (n + 1) id)) :
    ∃ k ≤ size, ∀ id : TypeId, id.index < size → f (k + 1) id = f k id := by
  classical
  let answered : Nat → Finset Nat := fun n => (Finset.range size).filter fun i => f n ⟨i⟩ ≠ .error .endlessType
  have hsettled : ∀ n, answered (n + 1) ⊆ answered n → ∀ id : TypeId, id.index < size → f (n + 1) id = f n id := by
    intro n hsub id hlt
    by_cases hid : f n id = .error .endlessType
    · have hnot : id.index ∉ answered (n + 1) := fun hmem => (Finset.mem_filter.mp (hsub hmem)).2 hid
      have hnext : f (n + 1) id = .error .endlessType := by
        simpa [answered, hlt] using hnot
      rw [hid, hnext]
    · exact happrox n id hlt hid
  have hgrows : ∀ n, answered n ⊆ answered (n + 1) := by
    intro n i hi
    obtain ⟨hlt, hne⟩ := Finset.mem_filter.mp hi
    refine Finset.mem_filter.mpr ⟨hlt, ?_⟩
    rwa [happrox n ⟨i⟩ (Finset.mem_range.mp hlt) hne]
  by_contra hnone
  push Not at hnone
  -- each round up to the last would answer for a new type, which makes one type too many
  have hcount : ∀ n ≤ size + 1, n ≤ (answered n).card := by
    intro n
    induction n with
    | zero => exact fun _ => Nat.zero_le _
    | succ n ih =>
      intro hn
      obtain ⟨id, hlt, hne⟩ := hnone n (by omega)
      have hssub : answered n ⊂ answered (n + 1) :=
        Finset.ssubset_iff_subset_ne.mpr ⟨hgrows n, fun heq => hne (hsettled n heq.ge id hlt)⟩
      have := Finset.card_lt_card hssub
      have := ih (by omega)
      omega
  have hcard : (answered (size + 1)).card ≤ size :=
    (Finset.card_filter_le _ _).trans (Finset.card_range size).le
  have := hcount (size + 1) (Nat.le_refl _)
  omega

/-- A recursion whose rounds only replace "too deep" by answers is settled after as many rounds as
there are types. -/
theorem settled_of_approx (hzero : ∀ id, f 0 id = .error .endlessType) (hsucc : ∀ n id, f (n + 1) id = F (f n) id)
    (hF : ∀ r r', (∀ p, p.index < size → Approx (r p) (r' p)) → ∀ id, id.index < size → Approx (F r id) (F r' id))
    (hn : size ≤ n) (hlt : id.index < size) : f n id = f size id := by
  have happrox : ∀ n id, id.index < size → Approx (f n id) (f (n + 1) id) := by
    intro n
    induction n with
    | zero => exact fun id _ hne => absurd (hzero id) hne
    | succ n ih =>
      intro id hid
      rw [hsucc, hsucc]
      exact hF _ _ ih id hid
  obtain ⟨k, hk, hsettled⟩ := exists_settled_round happrox
  have hlater : ∀ j, ∀ id : TypeId, id.index < size → f (k + j) id = f k id := by
    intro j
    induction j with
    | zero => exact fun _ _ => rfl
    | succ j ih =>
      intro id hid
      have hround : f (k + j + 1) id = f (k + 1) id := by
        rw [hsucc, hsucc]
        exact (hF _ _ (fun p hp => ih p hp ▸ .refl _) id hid).antisymm (hF _ _ (fun p hp => ih p hp ▸ .refl _) id hid)
      rw [← Nat.add_assoc, hround, hsettled id hid]
  obtain ⟨i, rfl⟩ := Nat.exists_eq_add_of_le (hk.trans hn)
  obtain ⟨j, hj⟩ := Nat.exists_eq_add_of_le hk
  rw [hlater i id hlt, hj, hlater j id hlt]

end Approx

/-! ## (2) Layout -/

namespace TypeTable

section

variable (t : TypeTable)

/-- The alignment of a type, given those of its parts. -/
def alignBy (align : TypeId → Except Fault UInt64) (id : TypeId) : Except Fault UInt64 := do
  match ← t.resolved id with
  | .int _ width => return (width / 8).toUInt64
  | .float double => return if double then 8 else 4
  | .array element _ => align element
  | .struct fields => fields.foldlM (fun a f => return max a (← align f.ty)) 1
  | .ptr _ | .func _ | .sum _ => return 8
  | _ => return 1

theorem alignWithin_succ (n : Nat) (id : TypeId) : t.alignWithin (n + 1) id = t.alignBy (t.alignWithin n) id := rfl

/-- The size of a type, given those of its parts. -/
def sizeBy (size : TypeId → Except Fault UInt64) (id : TypeId) : Except Fault UInt64 := do
  let id ← t.unwrapAlias id
  match ← t.get id with
  | .int _ width => return (width / 8).toUInt64
  | .float double => return if double then 8 else 4
  | .bool => return 1
  | .ptr _ | .func _ => return 8
  | .array element length => return length * (← size element)
  | .struct fields =>
    let offset ← fields.foldlM (fun offset f => do
      let a ← t.align f.ty
      return padTo a offset + (← size f.ty)) 0
    return padTo (← t.align id) offset
  | .sum variants => return 8 + 8 * (← payloadWordsBy size variants)
  | _ => return 0

theorem sizeWithin_succ (n : Nat) (id : TypeId) : t.sizeWithin (n + 1) id = t.sizeBy (t.sizeWithin n) id := rfl

end

variable {t : TypeTable}

theorem alignBy_approx (hw : t.Whole) (h : ∀ p, p.index < t.size → Approx (r p) (r' p)) (id : TypeId) :
    Approx (t.alignBy r id) (t.alignBy r' id) := by
  unfold alignBy
  cases hr : t.resolved id with
  | error e => exact .refl _
  | ok ty =>
    obtain ⟨v, -, hget⟩ := resolved_eq_ok.mp hr
    have hpart : ∀ p ∈ ty.mentions, Approx (r p) (r' p) := fun p hp => h p (hw v ty hget p hp)
    cases ty with
    | array element length => exact hpart element (.head _)
    | struct fields =>
      exact .foldlM (fun _ f hf => (hpart f.ty (List.mem_map_of_mem hf)).bind fun _ => .refl _) _
    | _ => exact .refl _

theorem payloadWordsBy_approx {variants : List TypeId} (h : ∀ v ∈ variants, Approx (r v) (r' v)) :
    Approx (payloadWordsBy r variants) (payloadWordsBy r' variants) :=
  (Approx.foldlM (fun _ v hv => (h v hv).bind fun _ => .refl _) _).bind fun _ => .refl _

theorem sizeBy_approx (hw : t.Whole) (h : ∀ p, p.index < t.size → Approx (r p) (r' p)) (id : TypeId) :
    Approx (t.sizeBy r id) (t.sizeBy r' id) := by
  refine Approx.bind (.refl _) fun v => ?_
  cases hr : t.get v with
  | error e => exact .refl _
  | ok ty =>
    have hpart : ∀ p ∈ ty.mentions, Approx (r p) (r' p) := fun p hp => h p (hw v ty (get_eq_ok.mp hr) p hp)
    cases ty with
    | array element length => exact (hpart element (.head _)).bind fun _ => .refl _
    | struct fields =>
      refine (Approx.foldlM (fun _ f hf => ?_) _).bind fun _ => .refl _
      exact (Approx.refl _).bind fun _ => (hpart f.ty (List.mem_map_of_mem hf)).bind fun _ => .refl _
    | sum variants => exact (payloadWordsBy_approx hpart).bind fun _ => .refl _
    | _ => exact .refl _

/-- Alignments are the same at every depth of as many levels as there are types. -/
theorem alignWithin_eq (hw : t.Whole) (hn : t.size ≤ n) (hlt : id.index < t.size) :
    t.alignWithin n id = t.align id := by
  have hsettled : ∀ {n}, t.size ≤ n → t.alignWithin n id = t.alignWithin t.size id := fun hn =>
    settled_of_approx (fun _ => rfl) t.alignWithin_succ (fun _ _ h id _ => alignBy_approx hw h id) hn hlt
  rw [align, hsettled hn, hsettled (Nat.le_succ _)]

/-- Sizes are the same at every depth of as many levels as there are types. -/
theorem sizeWithin_eq (hw : t.Whole) (hn : t.size ≤ n) (hlt : id.index < t.size) :
    t.sizeWithin n id = t.byteSize id := by
  have hsettled : ∀ {n}, t.size ≤ n → t.sizeWithin n id = t.sizeWithin t.size id := fun hn =>
    settled_of_approx (fun _ => rfl) t.sizeWithin_succ (fun _ _ h id _ => sizeBy_approx hw h id) hn hlt
  rw [byteSize, hsettled hn, hsettled (Nat.le_succ _)]

/-! ## (3) Recursion by value -/

/-- Parts have a smaller depth. -/
theorem Acyclic.wellFounded (ha : Acyclic t) (hs : Sound t) : WellFounded fun part whole => t.Contains whole part :=
  Subrelation.wf (fun h => hs.whole.depth_lt ha h) (measure t.depth).wf

end TypeTable

namespace Lowering

open Surface (Module)
open TypeTable (Contains)

/-- The search for an alias in itself answers `true` exactly if the alias contains itself by value, in one
or more steps, and it answers if it meets no handle that was never issued. So in the types of a lowered
module containing is well founded, and the recursion for the size, the alignment and the payload words of
any type comes to an end: at every depth beyond the number of types it gives the same result. -/
theorem byValue_recursion_rejected :
    (∀ (t : TypeTable) (id u : TypeId) (name : String), t.get? id = some (.named name u) →
      (∀ found, t.isCyclic id = .ok found → (found = true ↔ TransGen (Contains t) id id)) ∧
      ((∀ x, ReflTransGen (Contains t) id x → x.index < t.size) → ∃ found, t.isCyclic id = .ok found)) ∧
    ∀ (cfg : Settings) (m : Module) (journal : Log.Journal) (fns : List FunId) (s' : State),
      lowerModule cfg m { journal } = .ok (.ok fns) s' →
      WellFounded (fun part whole => s'.context.types.Contains whole part) ∧
      (∀ id, id.index < s'.context.types.size → ∃ size align, ∀ n, s'.context.types.size ≤ n →
        s'.context.types.sizeWithin n id = .ok size ∧ s'.context.types.alignWithin n id = .ok align) ∧
      ∀ id variants, s'.context.types.get? id = some (.sum variants) → ∃ words,
        s'.context.types.payloadWords variants = .ok words := by
  refine ⟨fun t id u name hid => ⟨fun found hfound => ?_, TypeTable.isCyclic_ok hid⟩, fun cfg m journal fns s' h => ?_⟩
  · cases found with
    | true => exact ⟨fun _ => TypeTable.contains_of_isCyclic_true hid hfound, fun _ => rfl⟩
    | false =>
      refine ⟨fun h => ?_, fun h => absurd h (TypeTable.not_contains_of_isCyclic_false hid hfound)⟩
      cases h
  · obtain ⟨hcomplete, herr⟩ := complete_of_lowerModule h
    obtain ⟨-, hacyclic, -⟩ := hcomplete.typed herr
    have hs := hcomplete.sound.types
    refine ⟨hacyclic.wellFounded hs, fun id hlt => ?_, fun id variants hid => ?_⟩
    · obtain ⟨size, hsize⟩ := hs.whole.byteSize_ok hacyclic hlt
      obtain ⟨align, halign⟩ := hs.whole.align_ok hacyclic hlt
      refine ⟨size, align, fun n hn => ⟨?_, ?_⟩⟩
      · rw [TypeTable.sizeWithin_eq hs.whole hn hlt, hsize]
      · rw [TypeTable.alignWithin_eq hs.whole hn hlt, halign]
    · exact hs.whole.payloadWords_ok hacyclic fun v hv => hs.whole id _ hid v hv

/-- An alias of a struct that contains the alias, once by value and once behind a pointer. -/
def sampleSelf (byValue : Bool) : TypeTable :=
  ⟨TypeTable.fresh.items ++ #[.named "T" ⟨15⟩, .ptr ⟨13⟩, .struct [⟨if byValue then ⟨13⟩ else ⟨14⟩, "t"⟩]]⟩

/-- A list of numbers: its rest is behind a pointer. -/
def sampleList : Module where
  name := "sample"
  file := 0
  types := [⟨"List", .struct [(.int ⟨true, .w32⟩ .none, "item"), (.ptr (.named "List" .none) .none, "rest")] .none, .none⟩]
  funs := []

theorem sampleList_layout :
    TransGen (Contains (sampleSelf true)) ⟨13⟩ ⟨13⟩ ∧ ¬ TransGen (Contains (sampleSelf false)) ⟨13⟩ ⟨13⟩ ∧
    ∃ fns s', lowerModule {} sampleList {} = .ok (.ok fns) s' ∧
      WellFounded (fun part whole => s'.context.types.Contains whole part) ∧
      ∃ size align, ∀ n, s'.context.types.size ≤ n →
        s'.context.types.sizeWithin n ⟨13⟩ = .ok size ∧ s'.context.types.alignWithin n ⟨13⟩ = .ok align := by
  obtain ⟨hsearch, hlowered⟩ := byValue_recursion_rejected
  have hself : (sampleSelf true).isCyclic ⟨13⟩ = .ok true := by decide +kernel
  have hbehind : (sampleSelf false).isCyclic ⟨13⟩ = .ok false := by decide +kernel
  have hrun : (match lowerModule {} sampleList {} with
      | .ok (.ok _) s => decide (13 < s.types.size)
      | _ => false) = true := by decide +kernel
  refine ⟨((hsearch (sampleSelf true) ⟨13⟩ ⟨15⟩ "T" (by decide +kernel)).1 true hself).mp rfl, fun h => ?_, ?_⟩
  · have := ((hsearch (sampleSelf false) ⟨13⟩ ⟨15⟩ "T" (by decide +kernel)).1 false hbehind).mpr h
    cases this
  · split at hrun
    · rename_i fns s' h
      obtain ⟨hwf, hlayout, -⟩ := hlowered {} sampleList #[] fns s' h
      exact ⟨fns, s', h, hwf, hlayout ⟨13⟩ (of_decide_eq_true hrun)⟩
    · cases hrun

end Lowering

end BlockCompiler
