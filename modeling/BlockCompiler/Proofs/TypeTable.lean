/-
  BlockCompiler.Proofs.TypeTable — type tables that only grow.

  A table is sound when the primitive types stand at their handles, every other type is
  made of types that were there before it, and `invalid` is part of none
  (`TypeTable.Sound`). Aliases are the exception: they may stand for any issued type, also
  for a later one, and for `invalid` until they are defined.

  (1) Interning gives the handle of the type asked for, keeps every entry (`Grows`) and keeps
      the table sound (`insert_grows`, `get?_insert`, `Sound.insert`).
  (2) What an alias stands for is the end of a chain of links (`StandsFor`), which
      `unwrapAlias` and `resolved` find (`standsFor_of_unwrapAlias`); a chain that ends stays as
      it is when the table grows (`StandsFor.grows`).
  (3) Where every type that is no alias is made of earlier ones (`Layered`), every type has a name
      (`Layered.name`).
-/
import BlockCompiler.Proofs.Steps

namespace BlockCompiler

variable {t t' : TypeTable} {id v : TypeId} {ty ty' : Ty} {n : Nat} {d : VariantId}

/-! ## Entries -/

namespace Interner

variable {k : Kind} {α : Type}

theorem get_eq_ok {s : Interner k α} {h : Handle k} {x : α} : s.get h = .ok x ↔ s.get? h = some x := by
  unfold get
  cases s.get? h <;> simp

theorem get?_lt {s : Interner k α} {h : Handle k} {x : α} (hx : s.get? h = some x) :
    h.index < s.size := by
  by_cases hlt : h.index < s.items.size
  · exact hlt
  · simp [get?, Array.getElem?_eq_none (Nat.le_of_not_lt hlt)] at hx

theorem get?_of_lt {s : Interner k α} {h : Handle k} (hlt : h.index < s.size) :
    ∃ x, s.get? h = some x :=
  ⟨s.items[h.index], Array.getElem?_eq_getElem hlt⟩

end Interner

namespace Ty

def isNamed : Ty → Bool
  | named _ _ => true
  | _ => false

/-- All types that a type is made of, by value or not. -/
def mentions : Ty → List TypeId
  | ptr pointee => [pointee]
  | array element _ => [element]
  | struct fields => fields.map (·.ty)
  | sum variants => variants
  | func signature => signature.result :: signature.params.map (·.ty)
  | named _ underlying => [underlying]
  | _ => []

theorem key_eq_self (h : ty.isNamed = false) : ty.key = ty := by
  cases ty <;> simp_all [key, isNamed]

theorem eq_of_key_eq (h : ty.isNamed = false) (hk : ty'.key = ty.key) : ty' = ty := by
  rw [key_eq_self h] at hk
  cases ty' with
  | named name u => simp only [key] at hk; subst hk; simp [isNamed] at h
  | _ => exact hk

end Ty

namespace TypeTable

open Interner (get_eq_ok get?_lt get?_of_lt)

variable {sum : TypeId}

/-! ## (1) Growing -/

/-- Every entry of `t` is the same in `t'`. -/
def Grows (t t' : TypeTable) : Prop := ∀ id ty, t.get? id = some ty → t'.get? id = some ty

theorem Grows.refl (t : TypeTable) : Grows t t := fun _ _ h => h

theorem Grows.trans {t'' : TypeTable} (h : Grows t t') (h' : Grows t' t'') : Grows t t'' :=
  fun id ty hg => h' id ty (h id ty hg)

theorem Grows.size_le (h : Grows t t') : t.size ≤ t'.size := by
  rcases Nat.eq_zero_or_pos t.size with h0 | h0
  · omega
  · obtain ⟨ty, hty⟩ := get?_of_lt (s := t) (h := ⟨t.size - 1⟩) (by simp only; omega)
    have := get?_lt (h _ _ hty)
    simp only at this
    omega

structure Sound (t : TypeTable) : Prop where
  /-- The primitive types have their handles. -/
  primitive : ∀ i ty, Ty.primitives[i]? = some ty → t.get? ⟨i⟩ = some ty
  /-- A type is made of earlier ones, and never of `invalid`. -/
  earlier : ∀ id ty, t.get? id = some ty → ty.isNamed = false →
    ∀ m ∈ ty.mentions, m.index < id.index ∧ m ≠ TypeId.invalid
  /-- An alias stands for an issued type. -/
  issued : ∀ id name u, t.get? id = some (.named name u) → u.index < t.size
  onlyInvalid : ∀ id, t.get? id = some .invalid → id = TypeId.invalid

theorem get?_fresh (id : TypeId) : fresh.get? id = Ty.primitives[id.index]? := by simp [fresh, Interner.get?]

theorem fresh_ne_named (id : TypeId) (name : String) (u : TypeId) : fresh.get? id ≠ some (.named name u) := by
  intro h
  rw [get?_fresh] at h
  have hplain : ∀ ty ∈ Ty.primitives, ty.isNamed = false := by decide
  exact absurd (hplain _ (List.mem_of_getElem? h)) (by simp [Ty.isNamed])

theorem fresh_sound : Sound fresh := by
  refine ⟨fun i ty h => by rw [get?_fresh]; exact h, ?_, ?_, ?_⟩
  · intro id ty h _ m hm
    rw [get?_fresh] at h
    have hplain : ∀ ty ∈ Ty.primitives, ty.mentions = [] := by decide
    rw [hplain ty (List.mem_of_getElem? h)] at hm
    cases hm
  · intro id name u h
    exact absurd h (fresh_ne_named id name u)
  · intro id h
    rw [get?_fresh] at h
    have hall : ∀ i < 13, Ty.primitives[i]? = some .invalid → i = 12 := by decide
    obtain ⟨i⟩ := id
    rcases Nat.lt_or_ge i 13 with hlt | hge
    · rw [hall i hlt h]; rfl
    · rw [List.getElem?_eq_none (by simpa [Ty.primitives] using hge)] at h; cases h

namespace Sound

variable {t : TypeTable} (hs : Sound t)
include hs

theorem get?_invalid : t.get? TypeId.invalid = some .invalid := hs.primitive 12 .invalid rfl

theorem invalid_lt : TypeId.invalid.index < t.size := get?_lt hs.get?_invalid

theorem ne_invalid (h : t.get? id = some ty) (hty : ty ≠ .invalid) : id ≠ .invalid := by
  rintro rfl
  rw [hs.get?_invalid] at h
  exact hty (Option.some.inj h).symm

theorem mention_lt (h : t.get? id = some ty) {m : TypeId} (hm : m ∈ ty.mentions) : m.index < t.size := by
  cases hn : ty.isNamed with
  | false => exact Nat.lt_trans (hs.earlier id ty h hn m hm).1 (get?_lt h)
  | true =>
    cases ty with
    | named name u =>
      simp only [Ty.mentions, List.mem_singleton] at hm
      subst hm
      exact hs.issued id name m h
    | _ => simp [Ty.isNamed] at hn

theorem int_lt (signed : Bool) (w : Nat) : (TypeId.int signed w).index < t.size := by
  have h12 : 12 < t.size := hs.invalid_lt
  simp only [TypeId.int]
  split <;> (try split) <;> (try split) <;> cases signed <;> simp <;> omega

theorem get?_int (ty : Surface.IntType) :
    t.get? (TypeId.int ty.signed ty.width.bits) = some (.int ty.signed ty.width.bits) := by
  obtain ⟨signed, width⟩ := ty
  refine hs.primitive (TypeId.int signed width.bits).index _ ?_
  cases signed <;> cases width <;> rfl

theorem get?_float (double : Bool) : t.get? (TypeId.float double) = some (.float double) := by
  refine hs.primitive (TypeId.float double).index _ ?_
  cases double <;> rfl

theorem prim_lt {i : Nat} (h : i < 13) : i < t.size := by
  have h12 : 12 < t.size := hs.invalid_lt
  omega

end Sound

/-! ### Interning -/

theorem find?_eq_some (h : t.find? ty = some id) : ∃ ty', t.get? id = some ty' ∧ ty'.key = ty.key := by
  unfold Interner.find? at h
  obtain ⟨i, hi, rfl⟩ := Option.map_eq_some_iff.mp h
  obtain ⟨hlt, hp, -⟩ := Array.findIdx?_eq_some_iff_getElem.mp hi
  exact ⟨t.items[i], Array.getElem?_eq_getElem hlt, by simpa [identity] using hp⟩

theorem find?_eq_none (h : t.find? ty = none) (hg : t.get? id = some ty') : ty'.key ≠ ty.key := by
  unfold Interner.find? at h
  have hall := Array.findIdx?_eq_none_iff.mp (Option.map_eq_none_iff.mp h)
  have := hall ty' (Array.mem_of_getElem? hg)
  simpa [identity] using this

section

variable (t : TypeTable) (ty : Ty)

theorem get?_push (id : TypeId) :
    Interner.get? (⟨t.items.push ty⟩ : TypeTable) id = if id.index = t.size then some ty else t.get? id := by
  simp only [Interner.get?, Array.getElem?_push, Interner.size]; rfl

theorem grows_push : Grows t ⟨t.items.push ty⟩ := by
  intro id ty' h
  rw [get?_push, if_neg (Nat.ne_of_lt (get?_lt h))]
  exact h

/-- Interning finds an entry with the type's key or appends the type. -/
theorem insert_cases :
    (∃ id ty', t.insert ty = (id, t) ∧ t.get? id = some ty' ∧ ty'.key = ty.key) ∨
      (t.insert ty = (⟨t.size⟩, ⟨t.items.push ty⟩) ∧ t.find? ty = none) := by
  unfold Interner.insert
  cases h : t.find? ty with
  | some id =>
    obtain ⟨ty', hg, hk⟩ := find?_eq_some h
    exact Or.inl ⟨id, ty', rfl, hg, hk⟩
  | none => exact Or.inr ⟨rfl, rfl⟩

theorem insert_grows : Grows t (t.insert ty).2 := by
  rcases insert_cases t ty with ⟨id, ty', he, -, -⟩ | ⟨he, -⟩
  · rw [he]; exact Grows.refl t
  · rw [he]; exact grows_push t ty

end

theorem get?_insert (t : TypeTable) (hn : ty.isNamed = false) : (t.insert ty).2.get? (t.insert ty).1 = some ty := by
  rcases insert_cases t ty with ⟨id, ty', he, hg, hk⟩ | ⟨he, -⟩
  · rw [he, ← Ty.eq_of_key_eq hn hk]; exact hg
  · rw [he, get?_push]; simp

/-- The entries after interning are those before it and perhaps the type itself, last. -/
theorem get?_insert_cases (h : (t.insert ty).2.get? id = some ty') :
    t.get? id = some ty' ∨ (id.index = t.size ∧ ty' = ty) := by
  rcases insert_cases t ty with ⟨id', ty'', he, -, -⟩ | ⟨he, -⟩
  · rw [he] at h; exact Or.inl h
  · rw [he, get?_push] at h
    split at h
    · exact Or.inr ⟨‹_›, (Option.some.inj h).symm⟩
    · exact Or.inl h

theorem Sound.insert (hs : Sound t) (hi : ty ≠ .invalid) (hm : ∀ m ∈ ty.mentions, m.index < t.size)
    (hne : ty.isNamed = false → .invalid ∉ ty.mentions) : Sound (t.insert ty).2 := by
  have hgrow := insert_grows t ty
  refine ⟨fun i ty' h => hgrow _ _ (hs.primitive i ty' h), ?_, ?_, ?_⟩
  · intro id ty' h hn m hmem
    rcases get?_insert_cases h with h | ⟨hid, rfl⟩
    · exact hs.earlier id ty' h hn m hmem
    · exact ⟨by rw [hid]; exact hm m hmem, fun e => hne hn (e ▸ hmem)⟩
  · intro id name u h
    rcases get?_insert_cases h with h | ⟨hid, rfl⟩
    · exact Nat.lt_of_lt_of_le (hs.issued id name u h) hgrow.size_le
    · exact Nat.lt_of_lt_of_le (hm u (by simp [Ty.mentions])) hgrow.size_le
  · intro id h
    rcases get?_insert_cases h with h | ⟨hid, rfl⟩
    · exact hs.onlyInvalid id h
    · exact absurd rfl hi

/-! ## (2) What aliases stand for -/

/-- Every alias stands for a type. -/
def Defined (t : TypeTable) : Prop := ∀ id name u, t.get? id = some (.named name u) → u ≠ TypeId.invalid

/-- The links from a type end at another one, which is no alias. -/
inductive StandsFor (t : TypeTable) : TypeId → TypeId → Prop
  | itself {id : TypeId} {ty : Ty} : t.get? id = some ty → ty.isNamed = false → StandsFor t id id
  | through {id u v : TypeId} {name : String} :
      t.get? id = some (.named name u) → StandsFor t u v → StandsFor t id v

theorem StandsFor.grows (hg : Grows t t') (h : StandsFor t id v) : StandsFor t' id v := by
  induction h with
  | itself he hn => exact .itself (hg _ _ he) hn
  | through he _ ih => exact .through (hg _ _ he) ih

theorem StandsFor.get? (h : StandsFor t id v) : ∃ ty, t.get? v = some ty ∧ ty.isNamed = false := by
  induction h with
  | itself he hn => exact ⟨_, he, hn⟩
  | through _ _ ih => exact ih

theorem StandsFor.unique {w : TypeId} (h : StandsFor t id v) (h' : StandsFor t id w) : v = w := by
  induction h with
  | itself he hn =>
    cases h' with
    | itself => rfl
    | through he' _ => rw [he] at he'; cases he'; simp [Ty.isNamed] at hn
  | through he _ ih =>
    cases h' with
    | itself he' hn' => rw [he] at he'; cases he'; simp [Ty.isNamed] at hn'
    | through he' h' => rw [he] at he'; cases he'; exact ih h'

theorem follow_succ (t : TypeTable) (n : Nat) (id : TypeId) :
    t.follow (n + 1) id = match t.get? id with
      | some (.named _ u) => t.follow n u
      | some _ => .ok id
      | none => .error (.staleInterned id.index t.size) := by
  rw [follow]
  cases h : t.get? id with
  | none => rw [Interner.get, h]; rfl
  | some ty => rw [Interner.get, h]; cases ty <;> rfl

theorem follow_ok (h : t.follow n id = .ok v) : v = .invalid ∨ StandsFor t id v := by
  induction n generalizing id with
  | zero => exact Or.inl (Except.ok.inj h).symm
  | succ n ih =>
    rw [follow_succ] at h
    split at h
    · rename_i name u hu
      rcases ih h with rfl | hv
      · exact Or.inl rfl
      · exact Or.inr (.through hu hv)
    · rename_i ty hne hty
      cases h
      refine Or.inr (.itself hty ?_)
      cases ty with
      | named name u => exact absurd rfl (hne name u)
      | _ => rfl
    · cases h

/-- Where aliases stand for issued types, following them ends at one. -/
theorem follow_of_issued (hissued : ∀ id name u, t.get? id = some (.named name u) → u.index < t.size)
    (hinvalid : TypeId.invalid.index < t.size) (h : id.index < t.size) (n : Nat) :
    ∃ v, t.follow n id = .ok v ∧ v.index < t.size := by
  induction n generalizing id with
  | zero => exact ⟨_, rfl, hinvalid⟩
  | succ n ih =>
    obtain ⟨ty, hty⟩ := get?_of_lt h
    rw [follow_succ, hty]
    cases ty with
    | named name u => exact ih (hissued id name u hty)
    | _ => exact ⟨id, rfl, h⟩

theorem resolved_eq_ok : t.resolved id = .ok ty ↔ ∃ v, t.unwrapAlias id = .ok v ∧ t.get? v = some ty := by
  rw [resolved, bind_eq_ok]
  simp only [get_eq_ok]

theorem StandsFor.of_unwrapAlias (hinvalid : t.get? TypeId.invalid = some .invalid) (h : t.unwrapAlias id = .ok v)
    (hv : t.get? v = some ty) (hi : ty ≠ .invalid) : StandsFor t id v := by
  rcases follow_ok h with rfl | hst
  · cases hinvalid.symm.trans hv
    exact absurd rfl hi
  · exact hst

theorem standsFor_of_unwrapAlias (hs : Sound t) (h : t.unwrapAlias id = .ok v) (hv : t.get? v = some ty)
    (hi : ty ≠ .invalid) : StandsFor t id v :=
  .of_unwrapAlias hs.get?_invalid h hv hi

theorem standsFor_of_resolved (hs : Sound t) (h : t.resolved id = .ok ty) (hi : ty ≠ .invalid) :
    ∃ v, StandsFor t id v ∧ t.get? v = some ty := by
  obtain ⟨v, hv, hget⟩ := resolved_eq_ok.mp h
  exact ⟨v, standsFor_of_unwrapAlias hs hv hget hi, hget⟩

namespace Sound

variable {t : TypeTable} (hs : Sound t)
include hs

theorem unwrapAlias (h : id.index < t.size) : ∃ v, t.unwrapAlias id = .ok v ∧ v.index < t.size :=
  follow_of_issued hs.issued hs.invalid_lt h _

theorem resolved (h : id.index < t.size) : ∃ ty, t.resolved id = .ok ty := by
  obtain ⟨v, hv, hlt⟩ := hs.unwrapAlias h
  obtain ⟨ty, hty⟩ := get?_of_lt hlt
  exact ⟨ty, resolved_eq_ok.mpr ⟨v, hv, hty⟩⟩

theorem variant? (h : sum.index < t.size) (variant : TypeId) : ∃ r, t.variant? sum variant = .ok r := by
  obtain ⟨ty, hty⟩ := hs.resolved h
  refine exists_bind_ok hty ?_
  cases ty <;> exact ⟨_, rfl⟩

end Sound

/-! ## (3) Names -/

theorem nameWithin_of_get? (h : t.get? id = some ty)
    (hm : ty.isNamed = false → ∀ m ∈ ty.mentions, ∃ s, t.nameWithin n m = .ok s) :
    ∃ s, t.nameWithin (n + 1) id = .ok s := by
  rw [nameWithin]
  refine exists_bind_ok (get_eq_ok.mpr h) ?_
  cases ty with
  | ptr p | array p => exact bind_ok_of (hm rfl p (.head _)) fun _ => ⟨_, rfl⟩
  | struct fields =>
    refine bind_ok_of (exists_mapM_ok fields fun f hf => ?_) fun _ => ⟨_, rfl⟩
    exact bind_ok_of (hm rfl f.ty (List.mem_map_of_mem hf)) fun _ => ⟨_, rfl⟩
  | sum variants =>
    refine bind_ok_of (exists_mapM_ok variants fun v hv => ?_) fun _ => ⟨_, rfl⟩
    exact bind_ok_of (hm rfl v hv) fun _ => ⟨_, rfl⟩
  | func signature =>
    refine bind_ok_of (exists_mapM_ok signature.params fun p hp => ?_) fun _ => ?_
    · exact bind_ok_of (hm rfl p.ty (.tail _ (List.mem_map_of_mem hp))) fun _ => ⟨_, rfl⟩
    · exact bind_ok_of (hm rfl signature.result (.head _)) fun _ => ⟨_, rfl⟩
  | _ => exact ⟨_, rfl⟩

/-- Every type but an alias is made of earlier ones. -/
def Layered (t : TypeTable) : Prop :=
  ∀ id ty, t.get? id = some ty → ty.isNamed = false → ∀ m ∈ ty.mentions, m.index < id.index

theorem Layered.nameWithin (hl : Layered t) (h : id.index < t.size) (hn : id.index < n) :
    ∃ s, t.nameWithin n id = .ok s := by
  induction n generalizing id with
  | zero => omega
  | succ n ih =>
    obtain ⟨ty, hty⟩ := get?_of_lt h
    refine nameWithin_of_get? hty fun hnn m hm => ?_
    have := hl id ty hty hnn m hm
    exact ih (by omega) (by omega)

theorem Layered.name (hl : Layered t) (h : id.index < t.size) : ∃ s, t.name id = .ok s := hl.nameWithin h (by omega)

theorem Sound.layered (hs : Sound t) : Layered t :=
  fun id ty hty hnn m hm => (hs.earlier id ty hty hnn m hm).1

theorem Sound.name (hs : Sound t) (h : id.index < t.size) : ∃ s, t.name id = .ok s := hs.layered.name h

theorem variantType_of_resolved {ty : TypeId} {variants : List TypeId} (h : t.resolved sum = .ok (.sum variants))
    (hd : variants[d.index]? = some ty) : t.variantType sum d = .ok ty := by
  refine bind_ok h ?_
  simp only [hd]
  rfl

theorem variantType_eq_ok {ty : TypeId} (h : t.variantType sum d = .ok ty) :
    ∃ variants, t.resolved sum = .ok (.sum variants) ∧ variants[d.index]? = some ty := by
  obtain ⟨found, hfound, h⟩ := bind_eq_ok.mp h
  cases found with
  | sum variants =>
    dsimp only at h
    split at h
    · rename_i hd
      cases h
      exact ⟨variants, hfound, hd⟩
    · obtain ⟨_, _, h⟩ := bind_eq_ok.mp h
      cases h
  | _ =>
    obtain ⟨_, _, h⟩ := bind_eq_ok.mp h
    cases h

theorem variant?_eq_some {ty : TypeId} (h : t.variant? sum ty = .ok (some d)) :
    ∃ variants, t.resolved sum = .ok (.sum variants) ∧ variants[d.index]? = some ty := by
  obtain ⟨found, hfound, h⟩ := bind_eq_ok.mp h
  cases found with
  | sum variants =>
    obtain ⟨i, hi, rfl⟩ := Option.map_eq_some_iff.mp (Except.ok.inj h)
    obtain ⟨hlt, hp, -⟩ := List.findIdx?_eq_some_iff_getElem.mp hi
    refine ⟨variants, hfound, ?_⟩
    rw [List.getElem?_eq_getElem hlt]
    simpa using hp
  | _ => cases h

end TypeTable

end BlockCompiler
