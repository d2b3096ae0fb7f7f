/-
  BlockCompiler.Proofs.CodeLayout — types lie in memory as their spellings do.

  Sizes and alignments are worked out on types, with words of 64 bits; the target works them out on
  the spelling, where a name stands for its definition. Both are compared with the exact layout of
  a type, in natural numbers.

  (1) An extent is a size and an alignment. Structs pad each field and their end.
  (2) `Occupies t id x`: the exact extent of a type, from those of its parts. A type has one extent
      at most (`Occupies.unique`), and one if containing is well founded (`exists_occupies`). Its
      alignment is 1, 2, 4 or 8 and divides its size (`Occupies.aligned`).
  (3) The alignment of a type is that of its extent (`align_eq`), and its size is too where its
      extent ends before the last word below 2^64 (`byteSize_eq_of_le`): what is larger can lie in it
      only as the element of an empty array.
  (4) `Expands defs T T'`: in `T'` each name of `T` that lies in memory is replaced by its
      definition. Names behind pointers stay; they may lead back to `T`. The spelling of a type
      expands to a type of its extent (`exists_expansion`): the aliases that are being expanded
      around a part all contain it, so none is met again in it and the stand-in `i8` lies nowhere.
  (5) So the layout of a type is that of its spelling (`spelling_layout`).
-/
import BlockCompiler.Proofs.Contexts
import BlockCompiler.Proofs.Expansion
import BlockCompiler.Proofs.Layout

namespace BlockCompiler

open Interner (get_eq_ok get?_lt get?_of_lt)
open Relation (TransGen ReflTransGen)

variable {a n : Nat} {name : String} {u v : TypeId} {defs : String → CodeType → Prop} {fields : List Extent}
  {x : Extent} {variants : List TypeId} {T : CodeType}

/-! ## (1) Extents -/

/-- Rounds up to a multiple of `align`. -/
def roundUp (align n : Nat) : Nat := (n + align - 1) / align * align

theorem le_roundUp {align : Nat} (h : 0 < align) (n : Nat) : n ≤ roundUp align n := by
  have hmod := Nat.mod_lt (n + align - 1) h
  have hdiv := Nat.div_add_mod (n + align - 1) align
  unfold roundUp
  rw [Nat.mul_comm]
  omega

/-- A size and an alignment, in bytes. -/
structure Extent where
  size : Nat
  align : Nat
  deriving DecidableEq, Repr

namespace Extent

def array (length : Nat) (element : Extent) : Extent := ⟨length * element.size, element.align⟩

/-- Where these fields end, if they begin at `offset`. -/
def ends (offset : Nat) (fields : List Extent) : Nat := fields.foldl (fun n f => roundUp f.align n + f.size) offset

/-- The greatest alignment of the fields, and at least `least`. -/
def strictest (least : Nat) (fields : List Extent) : Nat := fields.foldl (fun a f => max a f.align) least

/-- A struct that is not packed, padded at its end. -/
def struct (fields : List Extent) : Extent := ⟨roundUp (strictest 1 fields) (ends 0 fields), strictest 1 fields⟩

/-- A tag of 32 bits and words of 64 bits. -/
def sum (words : Nat) : Extent := struct [⟨4, 4⟩, array words ⟨8, 8⟩]

/-- The number of words that hold any of these. -/
def words (variants : List Extent) : Nat := (variants.foldl (fun m v => max m v.size) 0 + 7) / 8

theorem size_sum (n : Nat) : (sum n).size = 8 + 8 * n := by
  have hstrictest : strictest 1 [⟨4, 4⟩, array n ⟨8, 8⟩] = 8 := rfl
  have hends : ends 0 [⟨4, 4⟩, array n ⟨8, 8⟩] = roundUp 8 4 + n * 8 := rfl
  have hround : roundUp 8 4 = 8 := by decide
  have hsize : (sum n).size = roundUp 8 (8 + n * 8) := by rw [sum, struct, hstrictest, hends, hround]
  rw [hsize, roundUp]
  omega

theorem size_le_words {variants : List Extent} {v : Extent} (hv : v ∈ variants) : v.size ≤ 8 * words variants := by
  have hle : ∀ {l : List Extent} {m : Nat}, m ≤ l.foldl (fun m v => max m v.size) m ∧
      ∀ v ∈ l, v.size ≤ l.foldl (fun m v => max m v.size) m := by
    intro l
    induction l with
    | nil => simp
    | cons w l ih =>
      intro m
      obtain ⟨hstart, hrest⟩ := @ih (max m w.size)
      rw [List.foldl_cons, List.forall_mem_cons]
      exact ⟨(Nat.le_max_left _ _).trans hstart, (Nat.le_max_right _ _).trans hstart, hrest⟩
  have := (hle (m := 0)).2 v hv
  unfold words
  omega

/-- The alignment is 1, 2, 4 or 8 and divides the size. -/
structure Aligned (x : Extent) : Prop where
  mem : x.align ∈ [1, 2, 4, 8]
  dvd : x.align ∣ x.size

theorem Aligned.pos (h : x.Aligned) : 0 < x.align := by
  have := h.mem
  simp only [List.mem_cons, List.not_mem_nil, or_false] at this
  omega

theorem Aligned.array (h : x.Aligned) (length : Nat) : (x.array length).Aligned :=
  ⟨h.mem, h.dvd.mul_left length⟩

section

variable (h : ∀ f ∈ fields, f.Aligned)
include h

theorem le_ends (offset : Nat) : offset ≤ ends offset fields ∧ ∀ f ∈ fields, f.size ≤ ends offset fields := by
  induction fields generalizing offset with
  | nil => simp [ends]
  | cons f fields ih =>
    have hround := le_roundUp (h f (.head _)).pos offset
    obtain ⟨hstart, hrest⟩ := ih (fun g hg => h g (.tail _ hg)) (roundUp f.align offset + f.size)
    rw [ends, List.foldl_cons, List.forall_mem_cons]
    rw [ends] at hstart hrest
    exact ⟨by omega, by omega, hrest⟩

theorem strictest_mem (ha : a ∈ [1, 2, 4, 8]) : strictest a fields ∈ [1, 2, 4, 8] := by
  induction fields generalizing a with
  | nil => exact ha
  | cons f fields ih =>
    refine ih (fun g hg => h g (.tail _ hg)) ?_
    show max a f.align ∈ [1, 2, 4, 8]
    rcases Nat.le_total a f.align with hle | hle
    · rw [Nat.max_eq_right hle]
      exact (h f (.head _)).mem
    · rw [Nat.max_eq_left hle]
      exact ha

theorem Aligned.struct : (Extent.struct fields).Aligned :=
  ⟨strictest_mem h (by simp), Nat.dvd_mul_left _ _⟩

end

theorem Aligned.sum (n : Nat) : (Extent.sum n).Aligned := by
  refine .struct fun f hf => ?_
  rcases List.mem_pair.mp hf with rfl | rfl
  · exact ⟨by simp, by simp⟩
  · exact Aligned.array ⟨by simp, by simp⟩ n

end Extent

/-! ## (2) The exact layout -/

/-- The extent of a type, from those of its parts. -/
def Ty.extent (part : TypeId → Extent) : Ty → Extent
  | int _ width => ⟨width / 8, width / 8⟩
  | float double => if double then ⟨8, 8⟩ else ⟨4, 4⟩
  | bool => ⟨1, 1⟩
  | ptr _ | func _ => ⟨8, 8⟩
  | array element length => (part element).array length.toNat
  | struct fields => .struct (fields.map fun f => part f.ty)
  | sum variants => .sum (Extent.words (variants.map part))
  | named _ underlying => part underlying
  | unit | invalid => ⟨0, 1⟩

theorem Ty.extent_congr {f g : TypeId → Extent} {ty : Ty} (h : ∀ m ∈ ty.parts, f m = g m) :
    ty.extent f = ty.extent g := by
  cases ty with
  | array element length => exact congrArg (Extent.array length.toNat) (h element (List.mem_singleton_self _))
  | struct fields =>
    exact congrArg Extent.struct (List.map_congr_left fun f hf => h f.ty (List.mem_map_of_mem hf))
  | sum variants => exact congrArg (fun l => Extent.sum (Extent.words l)) (List.map_congr_left h)
  | named name u => exact h u (List.mem_singleton_self _)
  | _ => rfl

namespace TypeTable

/-- The exact extent of a type. -/
inductive Occupies (t : TypeTable) : TypeId → Extent → Prop
  | of_parts {id : TypeId} {ty : Ty} {part : TypeId → Extent} : t.get? id = some ty →
      (∀ m ∈ ty.parts, Occupies t m (part m)) → Occupies t id (ty.extent part)

variable {t : TypeTable} {id : TypeId} {ty : Ty} {x y : Extent}

theorem Occupies.cases (h : t.Occupies id x) (hty : t.get? id = some ty) :
    ∃ part, x = ty.extent part ∧ ∀ m ∈ ty.parts, t.Occupies m (part m) := by
  obtain ⟨hget, hparts⟩ := h
  cases hty.symm.trans hget
  exact ⟨_, rfl, hparts⟩

theorem Occupies.unique (hx : t.Occupies id x) (hy : t.Occupies id y) : x = y := by
  induction hx generalizing y with
  | of_parts hty _ ih =>
    obtain ⟨part, rfl, hparts⟩ := hy.cases hty
    exact Ty.extent_congr fun m hm => ih m hm (hparts m hm)

theorem Occupies.eq_of_fixed {extent : TypeId → Extent}
    (hfixed : ∀ id ty, t.get? id = some ty → ty.extent extent = extent id) (h : t.Occupies id x) : x = extent id := by
  induction h with
  | of_parts hty _ ih => rw [Ty.extent_congr ih, hfixed _ _ hty]

theorem Occupies.standsFor (h : t.Occupies id x) (hv : StandsFor t id v) : t.Occupies v x := by
  induction hv with
  | itself => exact h
  | through he _ ih =>
    obtain ⟨part, rfl, hparts⟩ := h.cases he
    exact ih (hparts _ (List.mem_singleton_self _))

theorem exists_occupies (hw : t.Whole) (hwf : WellFounded fun part whole => t.Contains whole part)
    (hlt : id.index < t.size) : ∃ x, t.Occupies id x := by
  induction id using hwf.induction with
  | _ id ih =>
    obtain ⟨ty, hty⟩ := get?_of_lt hlt
    have hparts : ∀ m ∈ ty.parts, ∃ x, t.Occupies m x := by
      intro m hm
      have hc : t.Contains id m := ⟨ty, hty, hm⟩
      exact ih m hc (hc.lt hw)
    have : Nonempty Extent := ⟨⟨0, 1⟩⟩
    choose! part hpart using hparts
    exact ⟨_, .of_parts hty hpart⟩

/-- Integers have one of the usual widths. -/
def PlainInts (t : TypeTable) : Prop :=
  ∀ id signed width, t.get? id = some (.int signed width) → width ∈ [8, 16, 32, 64]

theorem Occupies.aligned (hints : t.PlainInts) (h : t.Occupies id x) : x.Aligned := by
  induction h with
  | @of_parts id ty part hty _ ih =>
    cases ty with
    | int signed width =>
      have hwidth := hints id signed width hty
      simp only [List.mem_cons, List.not_mem_nil, or_false] at hwidth
      rcases hwidth with rfl | rfl | rfl | rfl <;> exact ⟨by simp [Ty.extent], by simp [Ty.extent]⟩
    | float double => cases double <;> exact ⟨by simp [Ty.extent], by simp [Ty.extent]⟩
    | array element length => exact (ih element (List.mem_singleton_self _)).array _
    | struct fields =>
      refine .struct fun f hf => ?_
      obtain ⟨field, hfield, rfl⟩ := List.mem_map.mp hf
      exact ih field.ty (List.mem_map_of_mem hfield)
    | sum variants => exact .sum _
    | named name u => exact ih u (List.mem_singleton_self _)
    | _ => exact ⟨by simp [Ty.extent], by simp [Ty.extent]⟩

end TypeTable

/-! ## (3) Words of 64 bits -/

/-- Up to this bound a number can be rounded up without leaving 64 bits. -/
def sizeLimit : Nat := 2 ^ 64 - 8

theorem toNat_ofNat_of_le_sizeLimit (h : n ≤ sizeLimit) : (UInt64.ofNat n).toNat = n :=
  UInt64.toNat_ofNat_of_lt' (Nat.lt_of_le_of_lt h (by decide))

theorem toNat_ofNat_of_lt_sizeLimit (h : n < sizeLimit) : (UInt64.ofNat n).toNat = n :=
  toNat_ofNat_of_le_sizeLimit h.le

theorem lt_sizeLimit_of_mem (h : n ∈ [1, 2, 4, 8]) : n < sizeLimit := by
  simp only [List.mem_cons, List.not_mem_nil, or_false] at h
  unfold sizeLimit
  omega

theorem max_ofNat {b : Nat} (ha : a ≤ sizeLimit) (hb : b ≤ sizeLimit) :
    max (UInt64.ofNat a) (UInt64.ofNat b) = UInt64.ofNat (max a b) := by
  have hle : UInt64.ofNat a ≤ UInt64.ofNat b ↔ a ≤ b := by
    rw [UInt64.le_iff_toNat_le, toNat_ofNat_of_le_sizeLimit ha, toNat_ofNat_of_le_sizeLimit hb]
  have hmax : max (UInt64.ofNat a) (UInt64.ofNat b) =
      if UInt64.ofNat a ≤ UInt64.ofNat b then UInt64.ofNat b else UInt64.ofNat a := rfl
  rw [hmax]
  by_cases h : a ≤ b
  · rw [if_pos (hle.mpr h), Nat.max_eq_right h]
  · rw [if_neg (mt hle.mp h), Nat.max_eq_left (by omega)]

theorem padTo_ofNat (ha : a ∈ [1, 2, 4, 8]) (hn : n ≤ sizeLimit) :
    TypeTable.padTo (UInt64.ofNat a) (UInt64.ofNat n) = UInt64.ofNat (roundUp a n) := by
  unfold sizeLimit at hn
  have hbounds : 1 ≤ a ∧ a ≤ 8 := by
    simp only [List.mem_cons, List.not_mem_nil, or_false] at ha
    omega
  unfold TypeTable.padTo roundUp
  rw [← UInt64.ofNat_add, ← UInt64.ofNat_one, ← UInt64.ofNat_sub, ← UInt64.ofNat_div, ← UInt64.ofNat_mul]
  all_goals omega

/-- A fold over words follows the fold over numbers, if the numbers only grow and end within the bound. -/
theorem foldlM_ofNat {α : Type} {f : UInt64 → α → Except Fault UInt64} {g : Nat → α → Nat} {l : List α}
    (hgrows : ∀ n, ∀ a ∈ l, n ≤ g n a) (hstep : ∀ n, ∀ a ∈ l, n ≤ sizeLimit → f (.ofNat n) a = .ok (.ofNat (g n a)))
    (hn : l.foldl g n ≤ sizeLimit) : l.foldlM f (.ofNat n) = .ok (.ofNat (l.foldl g n)) := by
  have hle : ∀ {l : List α}, (∀ n, ∀ a ∈ l, n ≤ g n a) → ∀ n, n ≤ l.foldl g n := by
    intro l
    induction l with
    | nil => exact fun _ n => Nat.le_refl n
    | cons a l ih =>
      intro h n
      exact (h n a (.head _)).trans (ih (fun m b hb => h m b (.tail _ hb)) _)
  induction l generalizing n with
  | nil => rfl
  | cons a l ih =>
    have hlater : ∀ m, ∀ b ∈ l, m ≤ g m b := fun m b hb => hgrows m b (.tail _ hb)
    rw [List.foldl_cons] at hn ⊢
    have hfirst : n ≤ sizeLimit := ((hgrows n a (.head _)).trans (hle hlater _)).trans hn
    rw [List.foldlM_cons, hstep n a List.mem_cons_self hfirst]
    exact ih hlater (fun m b hb => hstep m b (.tail _ hb)) hn

namespace TypeTable

variable {t : TypeTable} {id : TypeId} {ty : Ty} {x : Extent}

/-- Nothing that a type contains by value comes near 2^64 bytes, nor does the type. -/
def Roundable (t : TypeTable) (id : TypeId) : Prop :=
  ∀ u, ReflTransGen t.Contains id u → ∀ x, t.Occupies u x → x.size < sizeLimit

theorem Formed.grounded (hf : t.Formed) (hwf : WellFounded fun part whole => t.Contains whole part) : t.Grounded := by
  refine ⟨hf.whole, hf.earlier, fun id hcycle => ?_⟩
  have hswap : TransGen (fun part whole => t.Contains whole part) id id := Relation.transGen_swap.mpr hcycle
  exact hwf.transGen.asymmetric id id hswap hswap

theorem Roundable.part (h : t.Roundable id) {m : TypeId} (hm : t.Contains id m) : t.Roundable m :=
  fun u hu => h u (.head hm hu)

theorem Roundable.standsFor (h : t.Roundable id) (hv : StandsFor t id v) : t.Roundable v := by
  induction hv with
  | itself => exact h
  | through he _ ih => exact ih (h.part ⟨_, he, List.mem_singleton_self _⟩)

section

variable (h : t.Grounded)
include h

theorem Grounded.unwrapAlias_named (hty : t.get? id = some (.named name u)) : t.unwrapAlias id = t.unwrapAlias u := by
  have hlt : u.index < t.size := h.whole id _ hty u (List.mem_singleton_self u)
  obtain ⟨v, hv, hst⟩ := h.whole.unwrapAlias_standsFor h.acyclic hlt
  rw [hv, (StandsFor.through hty hst).unwrapAlias]

/-- The alignment of a type is worked out from those of its parts. -/
theorem Grounded.align_alignBy (hlt : id.index < t.size) : t.align id = t.alignBy t.align id :=
  (alignWithin_eq h.whole (Nat.le_add_right t.size 2) hlt).symm

theorem Grounded.byteSize_sizeBy (hlt : id.index < t.size) : t.byteSize id = t.sizeBy t.byteSize id :=
  (sizeWithin_eq h.whole (Nat.le_add_right t.size 2) hlt).symm

theorem Grounded.align_named (hty : t.get? id = some (.named name u)) : t.align id = t.align u := by
  rw [h.align_alignBy (get?_lt hty), h.align_alignBy (h.whole id _ hty u (List.mem_singleton_self u))]
  simp only [alignBy, TypeTable.resolved, h.unwrapAlias_named hty]

theorem Grounded.byteSize_named (hty : t.get? id = some (.named name u)) : t.byteSize id = t.byteSize u := by
  rw [h.byteSize_sizeBy (get?_lt hty), h.byteSize_sizeBy (h.whole id _ hty u (List.mem_singleton_self u))]
  simp only [sizeBy, h.unwrapAlias_named hty]

end

/-- The greatest alignment of fields, in words. -/
theorem foldlM_align {fields : List Field} {part : TypeId → Extent}
    (hpart : ∀ f ∈ fields, t.align f.ty = .ok (.ofNat (part f.ty).align) ∧ (part f.ty).Aligned) :
    fields.foldlM (fun a f => return max a (← t.align f.ty)) (1 : UInt64) =
      .ok (.ofNat (Extent.strictest 1 (fields.map fun f => part f.ty))) := by
  have hmem : Extent.strictest 1 (fields.map fun f => part f.ty) ∈ [1, 2, 4, 8] := by
    refine Extent.strictest_mem (fun y hy => ?_) (by simp)
    obtain ⟨f, hf, rfl⟩ := List.mem_map.mp hy
    exact (hpart f hf).2
  have hsmall := (lt_sizeLimit_of_mem hmem).le
  rw [Extent.strictest, List.foldl_map] at hsmall ⊢
  refine foldlM_ofNat (fun n f _ => Nat.le_max_left n _) (fun n f hf hn => ?_) hsmall
  obtain ⟨halign, haligned⟩ := hpart f hf
  rw [halign, ← max_ofNat hn (lt_sizeLimit_of_mem haligned.mem).le]
  rfl

/-- The end of the last field, in words. -/
theorem foldlM_ends {fields : List Field} {part : TypeId → Extent}
    (hpart : ∀ f ∈ fields, t.align f.ty = .ok (.ofNat (part f.ty).align) ∧ (part f.ty).Aligned ∧
      t.byteSize f.ty = .ok (.ofNat (part f.ty).size))
    (hsmall : Extent.ends 0 (fields.map fun f => part f.ty) ≤ sizeLimit) :
    fields.foldlM (fun offset f => do return padTo (← t.align f.ty) offset + (← t.byteSize f.ty)) (0 : UInt64) =
      .ok (.ofNat (Extent.ends 0 (fields.map fun f => part f.ty))) := by
  rw [Extent.ends, List.foldl_map] at hsmall ⊢
  refine foldlM_ofNat (fun n f hf => ?_) (fun n f hf hn => ?_) hsmall
  · exact (le_roundUp (hpart f hf).2.1.pos n).trans (Nat.le_add_right _ _)
  · obtain ⟨halign, haligned, hsize⟩ := hpart f hf
    rw [halign, hsize, UInt64.ofNat_add, ← padTo_ofNat haligned.mem hn]
    rfl

theorem payloadWordsBy_exact {size : TypeId → Except Fault UInt64} {part : TypeId → Extent}
    (hpart : ∀ v ∈ variants, size v = .ok (.ofNat (part v).size) ∧ (part v).size ≤ sizeLimit) :
    payloadWordsBy size variants = .ok (.ofNat (Extent.words (variants.map part))) ∧
      Extent.words (variants.map part) < sizeLimit := by
  have hlargest : variants.foldl (fun m v => max m (part v).size) 0 ≤ sizeLimit := by
    refine List.foldlRecOn (motive := fun m => m ≤ sizeLimit) variants _ (Nat.zero_le _) fun m hm v hv => ?_
    exact Nat.max_le.mpr ⟨hm, (hpart v hv).2⟩
  have hfold : variants.foldlM (fun m v => return max m (← size v)) (0 : UInt64) =
      .ok (.ofNat (variants.foldl (fun m v => max m (part v).size) 0)) := by
    refine foldlM_ofNat (fun n v _ => Nat.le_max_left n _) (fun n v hv hn => ?_) hlargest
    rw [(hpart v hv).1, ← max_ofNat hn (hpart v hv).2]
    rfl
  rw [payloadWordsBy, hfold, Extent.words, List.foldl_map]
  unfold sizeLimit at hlargest ⊢
  constructor
  · rw [UInt64.ofNat_div (by omega) (by omega), UInt64.ofNat_add]
    rfl
  · omega

section Exact

variable (h : t.Grounded) (hints : t.PlainInts)
include h hints

/-- The alignment of a type is that of its extent. -/
theorem align_eq (hx : t.Occupies id x) : t.align id = .ok (.ofNat x.align) := by
  induction hx with
  | @of_parts id ty part hty hparts ih =>
    cases hnn : ty.isNamed with
    | true =>
      cases ty with
      | named name u =>
        rw [h.align_named hty]
        exact ih u (List.mem_singleton_self u)
      | _ => cases hnn
    | false =>
      rw [h.align_alignBy (get?_lt hty), alignBy, (StandsFor.itself hty hnn).resolved hty]
      cases ty with
      | int signed width => rfl
      | float double => cases double <;> rfl
      | array element length => exact ih element (List.mem_singleton_self _)
      | struct fields =>
        refine foldlM_align fun f hf => ?_
        have hf : f.ty ∈ fields.map (·.ty) := List.mem_map_of_mem hf
        exact ⟨ih f.ty hf, (hparts f.ty hf).aligned hints⟩
      | named name u => cases hnn
      | _ => rfl

/-- The size of a type is that of its extent, up to the bound. What it contains may be larger where an array of it
is empty; then no element is counted. -/
theorem byteSize_eq_of_le (hx : t.Occupies id x) (hle : x.size ≤ sizeLimit) : t.byteSize id = .ok (.ofNat x.size) := by
  induction hx with
  | @of_parts id ty part hty hparts ih =>
    have haligned := (Occupies.of_parts hty hparts).aligned hints
    have halign := align_eq h hints (.of_parts hty hparts)
    cases hnn : ty.isNamed with
    | true =>
      cases ty with
      | named name u =>
        rw [h.byteSize_named hty]
        exact ih u (List.mem_singleton_self u) hle
      | _ => cases hnn
    | false =>
      rw [h.byteSize_sizeBy (get?_lt hty)]
      refine bind_ok (StandsFor.itself hty hnn).unwrapAlias (bind_ok (get_eq_ok.mpr hty) ?_)
      cases ty with
      | int signed width => rfl
      | float double => cases double <;> rfl
      | array element length =>
        have hle : length.toNat * (part element).size ≤ sizeLimit := hle
        rcases Nat.eq_zero_or_pos length.toNat with hzero | hpos
        · obtain ⟨n, hn⟩ := h.whole.byteSize_ok h.acyclic (h.whole id _ hty element (List.mem_singleton_self _))
          have hlength : length = 0 := UInt64.toNat_inj.mp hzero
          refine bind_ok hn ?_
          rw [Ty.extent, Extent.array, hzero, hlength, Nat.zero_mul]
          exact congrArg Except.ok UInt64.zero_mul
        · have helement := ih element (List.mem_singleton_self _) ((Nat.le_mul_of_pos_left _ hpos).trans hle)
          refine bind_ok helement ?_
          rw [Ty.extent, Extent.array, UInt64.ofNat_mul, UInt64.ofNat_toNat]
          rfl
      | struct fields =>
        have hends : Extent.ends 0 (fields.map fun f => part f.ty) ≤ sizeLimit :=
          (le_roundUp haligned.pos _).trans hle
        have hall : ∀ x ∈ fields.map fun f => part f.ty, x.Aligned := by
          intro x hx
          obtain ⟨f, hf, rfl⟩ := List.mem_map.mp hx
          exact (hparts f.ty (List.mem_map_of_mem hf)).aligned hints
        have hfields : ∀ f ∈ fields, t.align f.ty = .ok (.ofNat (part f.ty).align) ∧ (part f.ty).Aligned ∧
            t.byteSize f.ty = .ok (.ofNat (part f.ty).size) := by
          intro f hf
          have hm : f.ty ∈ fields.map (·.ty) := List.mem_map_of_mem hf
          have hmem : part f.ty ∈ fields.map fun f => part f.ty := List.mem_map_of_mem hf
          have hsize := ((Extent.le_ends hall 0).2 _ hmem).trans hends
          exact ⟨align_eq h hints (hparts f.ty hm), hall _ hmem, ih f.ty hm hsize⟩
        refine bind_ok (foldlM_ends hfields hends) (bind_ok halign ?_)
        exact congrArg Except.ok (padTo_ofNat haligned.mem hends)
      | sum variants =>
        rw [Ty.extent, Extent.size_sum] at hle
        have hvariants : ∀ v ∈ variants, t.byteSize v = .ok (.ofNat (part v).size) ∧ (part v).size ≤ sizeLimit := by
          intro v hv
          have hwords := Extent.size_le_words (List.mem_map_of_mem (f := part) hv)
          have hsize : (part v).size ≤ sizeLimit := by omega
          exact ⟨ih v hv hsize, hsize⟩
        refine bind_ok (payloadWordsBy_exact hvariants).1 ?_
        rw [Ty.extent, Extent.size_sum, UInt64.ofNat_add, UInt64.ofNat_mul]
        rfl
      | named name u => cases hnn
      | _ => rfl

theorem byteSize_eq (hsmall : t.Roundable id) (hx : t.Occupies id x) : t.byteSize id = .ok (.ofNat x.size) :=
  byteSize_eq_of_le h hints hx (hsmall id .refl x hx).le

end Exact

end TypeTable

/-! ## (4) Spellings -/

namespace Target

mutual

/-- The natural layout of a type of the target on x86-64. Other integers than these, and names, have none. -/
def CodeType.extent? : CodeType → Option Extent
  | .int width =>
    if width = 1 then some ⟨1, 1⟩ else if width ∈ [8, 16, 32, 64] then some ⟨width / 8, width / 8⟩ else none
  | .float => some ⟨4, 4⟩
  | .double => some ⟨8, 8⟩
  | .ptr _ | .func _ _ => some ⟨8, 8⟩
  | .array length element => element.extent?.map (·.array length.toNat)
  | .struct fields => (CodeType.extents? fields).map .struct
  | .named _ => none

def CodeType.extents? : List CodeType → Option (List Extent)
  | [] => some []
  | field :: fields => do return (← field.extent?) :: (← CodeType.extents? fields)

end

theorem CodeType.extents?_map {α : Type} {l : List α} {T : α → CodeType} {x : α → Extent}
    (h : ∀ a ∈ l, (T a).extent? = some (x a)) : CodeType.extents? (l.map T) = some (l.map x) := by
  induction l with
  | nil => rfl
  | cons a l ih =>
    rw [List.map_cons, CodeType.extents?, h a List.mem_cons_self, ih fun b hb => h b (.tail _ hb)]
    rfl

/-- Replaces the names that lie in memory by their definitions. -/
inductive Expands (defs : String → CodeType → Prop) : CodeType → CodeType → Prop
  | int {width : Nat} : Expands defs (.int width) (.int width)
  | float : Expands defs .float .float
  | double : Expands defs .double .double
  | ptr {pointee : CodeType} : Expands defs (.ptr pointee) (.ptr pointee)
  | func {result : CodeType} {params : List CodeType} : Expands defs (.func result params) (.func result params)
  | array {length : UInt64} {T T' : CodeType} : Expands defs T T' → Expands defs (.array length T) (.array length T')
  | struct {fields : List CodeType} {expand : CodeType → CodeType} : (∀ T ∈ fields, Expands defs T (expand T)) →
      Expands defs (.struct fields) (.struct (fields.map expand))
  | named {name : String} {T T' : CodeType} : defs name T → Expands defs T T' → Expands defs (.named name) T'

theorem Expands.unique (hdefs : ∀ name T T', defs name T → defs name T' → T = T') {T1 T2 : CodeType}
    (h1 : Expands defs T T1) (h2 : Expands defs T T2) : T1 = T2 := by
  induction h1 generalizing T2 with
  | int | float | double | ptr | func => cases h2; rfl
  | array _ ih =>
    cases h2 with
    | array h => rw [ih h]
  | struct _ ih =>
    cases h2 with
    | struct h => exact congrArg CodeType.struct (List.map_congr_left fun T hT => ih T hT (h T hT))
  | named hdef _ ih =>
    cases h2 with
    | named hdef' h =>
      cases hdefs _ _ _ hdef hdef'
      exact ih h

theorem Expands.struct_self {fields : List CodeType} (h : ∀ T ∈ fields, Expands defs T T) :
    Expands defs (.struct fields) (.struct fields) := by
  have hstruct : Expands defs (.struct fields) (.struct (fields.map id)) := .struct h
  rwa [List.map_id] at hstruct

theorem Expands.sum (words : UInt64) : Expands defs (.sum words) (.sum words) := by
  refine .struct_self fun T hT => ?_
  rcases List.mem_pair.mp hT with rfl | rfl
  · exact .int
  · exact .array .int

/-- The definitions of a table: what is written for one of its aliases. -/
def Defines (t : TypeTable) (name : String) (T : CodeType) : Prop := ∃ id, typeDefs t [id] [] = .ok [(name, T)] []

variable {t : TypeTable} {id : TypeId} {ty : Ty} {x : Extent}

theorem whenever_typeDefs_names (id : TypeId) (marks : List TypeId) :
    Whenever (typeDefs t [id]) marks fun defs _ => ∀ p ∈ defs, ∃ u, t.get? id = some (.named p.1 u) := by
  have hnone : Whenever (typeDefs t []) marks fun defs _ => ∀ p ∈ defs, ∃ u, t.get? id = some (.named p.1 u) := by
    simp [typeDefs]
  rw [typeDefs]
  simp only [whenever_bind, whenever_ofExcept]
  intro named hnamed
  split
  · simp only [whenever_bind, whenever_ofExcept]
    intro ty hty
    split
    · simp only [whenever_bind, whenever_ofExcept, typeDefs, whenever_pure]
      intro v _ T _ _ p hp
      rw [List.mem_singleton.mp hp]
      exact ⟨_, get_eq_ok.mp hty⟩
    · simp
  · exact hnone

/-- A name has one definition: no two aliases have it. -/
theorem Defines.unique (hf : t.Formed) (name : String) (T T' : CodeType) (h : Defines t name T)
    (h' : Defines t name T') : T = T' := by
  obtain ⟨a, ha⟩ := h
  obtain ⟨b, hb⟩ := h'
  obtain ⟨u, hu⟩ := whenever_typeDefs_names a [] _ _ ha _ (.head _)
  obtain ⟨w, hw⟩ := whenever_typeDefs_names b [] _ _ hb _ (.head _)
  obtain rfl := hf.single a b _ _ hu hw rfl
  cases ha.symm.trans hb
  rfl

/-- An alias of a struct or sum is defined as the spelling of that. -/
theorem exists_defines (h : t.Grounded) (hid : t.Clean id) (hty : t.get? id = some (.named name u))
    (hst : TypeTable.StandsFor t id v) (hv : t.get? v = some ty) (hagg : ty.isAggregate = true) :
    ∃ T, Defines t name T ∧ Spelled t [] v T := by
  obtain ⟨T, hrun, hT⟩ := spellAggregate_spelled h (hid.standsFor hst) hv hagg []
  have hnamed := isNamedAggregate_eq hty hst hv
  rw [hagg] at hnamed
  have hends : Ends (typeDefs t [id]) [] fun defs marks => defs = [(name, T)] ∧ marks = [] := by
    rw [typeDefs]
    simp only [ends_bind, ends_ofExcept]
    refine ⟨true, hnamed, ?_⟩
    rw [if_pos rfl]
    simp only [ends_bind, ends_ofExcept]
    refine ⟨_, get_eq_ok.mpr hty, ?_⟩
    simp only [ends_bind, ends_ofExcept]
    refine ⟨v, hst.unwrapAlias, ?_⟩
    rw [ends_iff_of_eq hrun]
    simp [typeDefs]
  obtain ⟨defs, marks, he, rfl, rfl⟩ := hends
  exact ⟨T, ⟨id, he⟩, hT⟩

/-- Fields that expand to types of these extents make a struct of theirs. -/
theorem Expands.exists_struct (hdefs : ∀ name T T', defs name T → defs name T' → T = T') {α : Type} {l : List α}
    {spell : α → CodeType} {x : α → Extent} (h : ∀ a ∈ l, ∃ T, Expands defs (spell a) T ∧ T.extent? = some (x a)) :
    ∃ T, Expands defs (.struct (l.map spell)) T ∧ T.extent? = some (.struct (l.map x)) := by
  have hfields : ∀ T ∈ l.map spell, ∃ T', Expands defs T T' := by
    intro T hT
    obtain ⟨a, ha, rfl⟩ := List.mem_map.mp hT
    obtain ⟨T', hT', -⟩ := h a ha
    exact ⟨T', hT'⟩
  have : Nonempty CodeType := ⟨.float⟩
  choose! expand hexpand using hfields
  refine ⟨_, .struct hexpand, ?_⟩
  -- fields of one spelling have one expansion, so its extent is that of each of them
  have hextent : ∀ a ∈ l, (expand (spell a)).extent? = some (x a) := by
    intro a ha
    obtain ⟨T', hT', hx⟩ := h a ha
    rw [(hexpand _ (List.mem_map_of_mem ha)).unique hdefs hT']
    exact hx
  rw [List.map_map, CodeType.extent?, Function.comp_def, CodeType.extents?_map hextent]
  rfl

/-- The spelling of a sum has the exact number of words. -/
theorem toNat_words (h : t.Grounded) (hints : t.PlainInts) (hsmall : t.Roundable id)
    (hty : t.get? id = some (.sum variants)) {part : TypeId → Extent} (hparts : ∀ v ∈ variants, t.Occupies v (part v)) :
    (words t variants).toNat = Extent.words (variants.map part) := by
  have hvariants : ∀ v ∈ variants, t.byteSize v = .ok (.ofNat (part v).size) ∧ (part v).size ≤ sizeLimit := by
    intro v hv
    have hpart := hsmall.part ⟨_, hty, hv⟩
    exact ⟨TypeTable.byteSize_eq h hints hpart (hparts v hv), (hpart v .refl _ (hparts v hv)).le⟩
  obtain ⟨hwords, hlt⟩ := TypeTable.payloadWordsBy_exact hvariants
  have hrun := (payloadWords_words h hty).symm.trans hwords
  rw [Except.ok.inj hrun, toNat_ofNat_of_lt_sizeLimit hlt]

/-- A spelling expands to a type of the extent of what is spelled, if all aliases that are being expanded
contain it. -/
theorem exists_expansion (hf : t.Formed) (h : t.Grounded) (hints : t.PlainInts) (hid : t.Clean id)
    (hsmall : t.Roundable id) (hx : t.Occupies id x) {marks : List TypeId} (hT : Spelled t marks id T)
    (hmarks : ∀ y ∈ marks, TransGen t.Contains y id) : ∃ T', Expands (Defines t) T T' ∧ T'.extent? = some x := by
  induction hn : t.depth id using Nat.strong_induction_on generalizing id x marks T with
  | _ n ih =>
    subst hn
    obtain ⟨ty, hty, hne⟩ := hid id .refl
    obtain ⟨part, rfl, hparts⟩ := hx.cases hty
    cases hnn : ty.isNamed with
    | false =>
      obtain ⟨spell, rfl, hspelled⟩ := hT.of_parts hty hnn
      have below : ∀ m ∈ ty.parts, m ∈ ty.opened →
          ∃ T', Expands (Defines t) (spell m) T' ∧ T'.extent? = some (part m) := by
        intro m hm hopened
        have hc : t.Contains id m := ⟨ty, hty, hm⟩
        exact ih _ (h.whole.depth_lt h.acyclic hc) (hid.mention hty (TypeTable.mem_mentions_of_mem_parts hm))
          (hsmall.part hc) (hparts m hm) (hspelled m hopened) (fun y hy => (hmarks y hy).tail hc) rfl
      cases ty with
      | int signed width =>
        have hwidth := hints id signed width hty
        refine ⟨_, .int, ?_⟩
        have hone : width ≠ 1 := by
          rintro rfl
          simp at hwidth
        rw [CodeType.extent?, if_neg hone, if_pos hwidth]
        rfl
      | float double =>
        cases double with
        | false => exact ⟨_, .float, rfl⟩
        | true => exact ⟨_, .double, rfl⟩
      | bool => exact ⟨_, .int, rfl⟩
      | unit => exact ⟨_, .struct_self (by simp), rfl⟩
      | ptr pointee => exact ⟨_, .ptr, rfl⟩
      | func signature => exact ⟨_, .func, rfl⟩
      | array element length =>
        obtain ⟨T', hexpands, hextent⟩ := below element (List.mem_singleton_self _) (List.mem_singleton_self _)
        refine ⟨_, .array hexpands, ?_⟩
        rw [CodeType.extent?, hextent]
        rfl
      | struct fields =>
        refine Expands.exists_struct (Defines.unique hf) fun f hf => ?_
        exact below f.ty (List.mem_map_of_mem hf) (List.mem_map_of_mem hf)
      | sum variants =>
        exact ⟨_, .sum _, congrArg (some <| Extent.sum ·) (toNat_words h hints hsmall hty hparts)⟩
      | invalid => exact absurd rfl hne
      | named _ _ => cases hnn
    | true =>
      cases ty with
      | named name u =>
        have hc : t.Contains id u := ⟨_, hty, List.mem_singleton_self u⟩
        have hdepth := h.whole.depth_lt h.acyclic hc
        obtain ⟨v, -, hst⟩ := h.whole.unwrapAlias_standsFor h.acyclic (hc.lt h.whole)
        obtain ⟨target, hv, -⟩ := hst.get?
        have hthrough : TypeTable.StandsFor t id v := .through hty hst
        have hnamed := isNamedAggregate_eq hty hthrough hv
        cases hagg : target.isAggregate with
        | true =>
          rw [hagg] at hnamed
          cases hT.of_aggregate hty hnamed
          obtain ⟨body, hdef, hbody⟩ := exists_defines h hid hty hthrough hv hagg
          have hle := h.whole.depth_standsFor_le h.acyclic hst
          obtain ⟨T', hexpands, hextent⟩ := ih _ (by omega) (hid.standsFor hthrough) (hsmall.standsFor hthrough)
            (hx.standsFor hthrough) hbody (by simp) rfl
          exact ⟨T', .named hdef hexpands, hextent⟩
        | false =>
          rw [hagg] at hnamed
          -- a marked alias would contain itself
          have hfree : id ∉ marks := fun hm => h.acyclic id (hmarks id hm)
          have hmarks' : ∀ y ∈ id :: marks, TransGen t.Contains y u := by
            intro y hy
            rcases List.mem_cons.mp hy with rfl | hy
            · exact .single hc
            · exact (hmarks y hy).tail hc
          exact ih _ hdepth (hid.mention hty (List.mem_singleton_self u)) (hsmall.part hc)
            (hparts u (List.mem_singleton_self u)) (hT.of_expand hty hnamed hfree) hmarks' rfl
      | _ => cases hnn

/-! ## (5) Layouts agree -/

/-- The size and the alignment of a type are those that the target gives to its spelling once the names in it are
replaced by their definitions, which can be done in one way. They are exact: no step of working them out leaves
64 bits. -/
theorem spelling_layout (hf : t.Formed) (hwf : WellFounded fun part whole => t.Contains whole part)
    (hints : t.PlainInts) (hid : t.Clean id) (hsmall : t.Roundable id) :
    ∃ (T expanded : CodeType) (size align : UInt64), spellType t id [] = .ok T [] ∧
      t.byteSize id = .ok size ∧ t.align id = .ok align ∧
      (∀ T', Expands (Defines t) T T' ↔ T' = expanded) ∧ expanded.extent? = some ⟨size.toNat, align.toNat⟩ ∧
      (∀ x, t.Occupies id x ↔ x = ⟨size.toNat, align.toNat⟩) ∧
      align.toNat ∈ [1, 2, 4, 8] ∧ align.toNat ∣ size.toNat := by
  have hground := hf.grounded hwf
  obtain ⟨ty, hty, -⟩ := hid id .refl
  obtain ⟨x, hx⟩ := TypeTable.exists_occupies hf.whole hwf (get?_lt hty)
  obtain ⟨T, hrun, hT⟩ := spellType_spelled hground hid []
  obtain ⟨expanded, hexpands, hextent⟩ := exists_expansion hf hground hints hid hsmall hx hT (by simp)
  have haligned := hx.aligned hints
  have hsize : (UInt64.ofNat x.size).toNat = x.size := toNat_ofNat_of_lt_sizeLimit (hsmall id .refl x hx)
  have halign : (UInt64.ofNat x.align).toNat = x.align := toNat_ofNat_of_lt_sizeLimit (lt_sizeLimit_of_mem haligned.mem)
  refine ⟨T, expanded, .ofNat x.size, .ofNat x.align, hrun, TypeTable.byteSize_eq hground hints hsmall hx,
    TypeTable.align_eq hground hints hx, fun T' => ⟨fun h => ?_, fun h => h ▸ hexpands⟩, ?_,
    fun y => ⟨fun h => ?_, ?_⟩, ?_, ?_⟩
  · exact h.unique (Defines.unique hf) hexpands
  · rw [hsize, halign]
    exact hextent
  · rw [hsize, halign]
    exact h.unique hx
  · rintro rfl
    rw [hsize, halign]
    exact hx
  · rw [halign]
    exact haligned.mem
  · rw [hsize, halign]
    exact haligned.dvd

/-- A list whose nodes hold a flag, three numbers, an item and a byte. An item is one of a triple, a node behind a
pointer and a flag. -/
def sampleNodes : TypeTable :=
  (Context.after [
    .addType (.array ⟨1⟩ 3), .declareAlias "Triple", .defineAlias ⟨14⟩ ⟨13⟩,
    .declareAlias "Node", .addType (.ptr ⟨15⟩),
    .addType (.sum [⟨14⟩, ⟨16⟩, TypeId.bool]), .declareAlias "Item", .defineAlias ⟨18⟩ ⟨17⟩,
    .addType (.struct [⟨TypeId.bool, "flag"⟩, ⟨⟨14⟩, "triple"⟩, ⟨⟨18⟩, "item"⟩, ⟨⟨16⟩, "next"⟩, ⟨⟨4⟩, "byte"⟩]),
    .defineAlias ⟨15⟩ ⟨19⟩]).types

/-- The extents of these types, in the order of their handles. -/
def sampleExtents (id : TypeId) : Extent :=
  ([⟨1, 1⟩, ⟨2, 2⟩, ⟨4, 4⟩, ⟨8, 8⟩, ⟨1, 1⟩, ⟨2, 2⟩, ⟨4, 4⟩, ⟨8, 8⟩, ⟨1, 1⟩, ⟨0, 1⟩, ⟨4, 4⟩, ⟨8, 8⟩, ⟨0, 1⟩,
    ⟨6, 2⟩, ⟨6, 2⟩, ⟨40, 8⟩, ⟨8, 8⟩, ⟨16, 8⟩, ⟨16, 8⟩, ⟨40, 8⟩] : List Extent)[id.index]?.getD ⟨0, 1⟩

/-- A node lies above its struct, which comes later. -/
def sampleRank (id : TypeId) : Nat := if id = ⟨15⟩ then 20 else id.index

theorem sampleNodes_layout : sampleNodes.Formed ∧ WellFounded (fun part whole => sampleNodes.Contains whole part) ∧
    sampleNodes.PlainInts ∧ sampleNodes.Clean ⟨15⟩ ∧ sampleNodes.Roundable ⟨15⟩ ∧
    ∃ T expanded, spellType sampleNodes ⟨15⟩ [] = .ok T [] ∧ T.text = "%\"Node\"" ∧
      sampleNodes.byteSize ⟨15⟩ = .ok 40 ∧ sampleNodes.align ⟨15⟩ = .ok 8 ∧
      (∀ T', Expands (Defines sampleNodes) T T' ↔ T' = expanded) ∧ expanded.extent? = some ⟨40, 8⟩ := by
  have hf : sampleNodes.Formed := (Context.reached_after _).founded.formed
  have hwf : WellFounded fun part whole => sampleNodes.Contains whole part := by
    have hrank : ∀ i < sampleNodes.size, ∀ ty ∈ sampleNodes.get? ⟨i⟩,
        ∀ m ∈ ty.parts, sampleRank m < sampleRank ⟨i⟩ := by decide +kernel
    refine Subrelation.wf (fun {part whole} h => ?_) (measure sampleRank).wf
    obtain ⟨ty, hty, hm⟩ := h
    exact hrank whole.index (get?_lt hty) ty hty part hm
  have hints : sampleNodes.PlainInts := by
    have hprimitive : ∀ i < sampleNodes.size, ∀ ty ∈ sampleNodes.get? ⟨i⟩, ty.isInt = true → ty ∈ Ty.primitives := by
      decide +kernel
    intro id signed width hty
    have hmem := hprimitive id.index (get?_lt hty) _ hty rfl
    simp only [Ty.primitives, List.mem_cons, Ty.int.injEq, reduceCtorEq, List.not_mem_nil, or_false] at hmem
    simp only [List.mem_cons, List.not_mem_nil, or_false]
    omega
  have hid : sampleNodes.Clean ⟨15⟩ := by
    have hvalid : ∀ i < sampleNodes.size, ∀ ty ∈ sampleNodes.get? ⟨i⟩,
        (i ≠ 12 → ty ≠ .invalid) ∧ ∀ m ∈ ty.mentions, m.index ≠ 12 := by decide +kernel
    intro x hx
    have hissued : x.index < sampleNodes.size ∧ x.index ≠ 12 := by
      induction hx with
      | refl => decide +kernel
      | @tail a b _ hab ih =>
        obtain ⟨ty, hty, hb⟩ := hab
        exact ⟨hf.mention_lt hty hb, (hvalid a.index ih.1 ty hty).2 b hb⟩
    obtain ⟨ty, hty⟩ := get?_of_lt hissued.1
    exact ⟨ty, hty, (hvalid x.index hissued.1 ty hty).1 hissued.2⟩
  have hsmall : sampleNodes.Roundable ⟨15⟩ := by
    have hfixed : ∀ i < sampleNodes.size, ∀ ty ∈ sampleNodes.get? ⟨i⟩,
        ty.extent sampleExtents = sampleExtents ⟨i⟩ ∧ (sampleExtents ⟨i⟩).size < sizeLimit := by decide +kernel
    intro u _ x hx
    have heq := hx.eq_of_fixed fun id ty hty => (hfixed id.index (get?_lt hty) ty hty).1
    rw [heq]
    obtain ⟨hty, -⟩ := hx
    exact (hfixed u.index (get?_lt hty) _ hty).2
  obtain ⟨T, expanded, size, align, hrun, hsize, halign, hexpands, hextent, -⟩ :=
    spelling_layout hf hwf hints hid hsmall
  have htext : Ends (spellType sampleNodes ⟨15⟩) [] fun T _ => T.text = "%\"Node\"" := by decide +kernel
  have hforty : sampleNodes.byteSize ⟨15⟩ = .ok 40 := by decide +kernel
  have height : sampleNodes.align ⟨15⟩ = .ok 8 := by decide +kernel
  cases hforty.symm.trans hsize
  cases height.symm.trans halign
  exact ⟨hf, hwf, hints, hid, hsmall, T, expanded, hrun, htext.result hrun, hforty, height, hexpands, hextent⟩

end Target

end BlockCompiler
