/-
  BlockCompiler.Proofs.AlikeDecls — types and signatures declared in two runs.

  (1) Declaring an alias, and defining it, changes what its name stands for and nothing else
      (`alias?_push`, `alias?_defineAlias`).
  (2) Whether an alias contains itself depends on what the names stand for only
      (`Congruent.isCyclic_eq`).
  (3) Signatures are resolved alike (`resolveSignature_tallies`).
-/
import BlockCompiler.Proofs.AlikeText

namespace BlockCompiler

open TypeTable (Formed Widens Alike Congruent SameNames Contains)
open Interner (get?_lt get?_of_lt)
open Relation (TransGen)

/-! ## (1) Declaring and defining an alias -/

namespace TypeTable

variable {t t' : TypeTable} {name : String}

theorem Formed.invalid_lt (hf : t.Formed) : TypeId.invalid.index < t.size := hf.prim_lt (i := 12) (by omega)

theorem Widens.sameAliases (w : t.Widens t') : t.SameAliases t' := fun id name =>
  ⟨fun ⟨u, hu⟩ => ⟨u, w.grows _ _ hu⟩, fun ⟨u, hu⟩ => ⟨u, w.aliases id name u hu⟩⟩

theorem SameAliases.symm (h : t.SameAliases t') : t'.SameAliases t := fun id name => (h id name).symm

theorem SameAliases.widens {t1 t2 : TypeTable} (h : t.SameAliases t') (w1 : t.Widens t1) (w2 : t'.Widens t2) :
    t1.SameAliases t2 := w1.sameAliases.symm.trans (h.trans w2.sameAliases)

theorem Formed.push_alias (hf : t.Formed) (h : t.findAlias? name = none) :
    Formed ⟨t.items.push (.named name .invalid)⟩ := by
  have hinsert : Formed (t.insert (.named name .invalid)).2 := hf.insert fun m hm => by
    rw [List.mem_singleton.mp hm]
    exact hf.invalid_lt
  rwa [insert_alias h] at hinsert

/-- The new alias stands for nothing. -/
theorem alias?_push (hf : t.Formed) (h : t.findAlias? name = none) :
    alias? ⟨t.items.push (.named name .invalid)⟩ = Function.update t.alias? name (some .invalid) := by
  have hf' := hf.push_alias h
  have hshape : ∀ {id : TypeId}, id.index < t.size → shape ⟨t.items.push (.named name .invalid)⟩ id = t.shape id :=
    fun hlt => hf.shape_eq_of_key hf' (fun id ty hid => ⟨ty, grows_push t _ id ty hid, rfl⟩) hlt
  funext name'
  by_cases hname : name' = name
  · subst hname
    rw [Function.update_self]
    refine hf'.alias?_eq_some.mpr ⟨⟨t.size⟩, .invalid, ?_, ?_⟩
    · rw [get?_push, if_pos rfl]
    · exact hf'.shape_invalid
  · rw [Function.update_of_ne hname]
    refine Option.ext fun τ => ?_
    rw [hf.alias?_eq_some, hf'.alias?_eq_some]
    refine exists_congr fun id => exists_congr fun u => ?_
    rw [get?_push]
    split
    · rename_i heq
      have hnone : t.get? id = none := Array.getElem?_eq_none (Nat.le_of_eq heq.symm)
      simp [hnone, Ne.symm hname]
    · exact and_congr_right fun hid => by rw [hshape (hf.issued id name' u hid)]

section

variable {id u v : TypeId} (hf : t.Formed) (h : t.defineAlias id u = .ok t') (hu : u.index < t.size)
include hf h hu

theorem shape_defineAlias {id' : TypeId} (hlt : id'.index < t.size) : t'.shape id' = t.shape id' := by
  obtain ⟨name, hid, -, hget⟩ := get?_of_defineAlias h
  refine hf.shape_eq_of_key (hf.defineAlias hu h) (fun id' ty hid' => ?_) hlt
  rw [hget]
  split
  · rename_i heq
    rw [heq, hid] at hid'
    cases hid'
    exact ⟨_, rfl, rfl⟩
  · exact ⟨ty, hid', rfl⟩

/-- A defined alias stands for what it was defined as. -/
theorem alias?_defineAlias (hid : t.get? id = some (.named name v)) :
    t'.alias? = Function.update t.alias? name (some (t.shape u)) := by
  have hf' := hf.defineAlias hu h
  obtain ⟨name', hid', -, hget⟩ := get?_of_defineAlias h
  rw [hid] at hid'
  cases hid'
  funext name'
  by_cases hname : name' = name
  · subst hname
    rw [Function.update_self]
    exact hf'.alias?_eq_some.mpr ⟨id, u, by rw [hget, if_pos rfl], shape_defineAlias hf h hu hu⟩
  · rw [Function.update_of_ne hname]
    refine Option.ext fun τ => ?_
    rw [hf.alias?_eq_some, hf'.alias?_eq_some]
    refine exists_congr fun id' => exists_congr fun u' => ?_
    rw [hget]
    split
    · rename_i heq
      rw [heq, hid]
      simp [Ne.symm hname]
    · exact and_congr_right fun hid' => by rw [shape_defineAlias hf h hu (hf.issued id' name' u' hid')]

end

/-! ## (2) Cycles -/

end TypeTable

theorem Ty.Like.parts {R : TypeId → TypeId → Prop} {ty ty' : Ty} (h : ty.Like R ty') (hn : ty.isNamed = false) :
    List.Forall₂ R ty.parts ty'.parts := by
  cases h with
  | array _ hab => exact .cons hab .nil
  | struct hfs => exact List.forall₂_map_left_iff.mpr (List.forall₂_map_right_iff.mpr (hfs.imp fun _ _ hf => hf.2))
  | sum hvs => exact hvs
  | named => cases hn
  | _ => exact .nil

namespace TypeTable

variable {t1 t2 : TypeTable} {a b a' : TypeId}

namespace Congruent

section

variable (hc : t1.Congruent t2) (h : Alike t1 t2 a b)
include hc h

/-- What alike types contain is alike. -/
theorem contains (ha : Contains t1 a a') : ∃ b', Contains t2 b b' ∧ Alike t1 t2 a' b' := by
  obtain ⟨ty, hty, hmem⟩ := ha
  obtain ⟨ty', hty'⟩ := get?_of_lt h.right_lt
  have hlike := h.like hc.left hc.right hty hty'
  cases hn : ty.isNamed with
  | false =>
    obtain ⟨b', hb', hab'⟩ := exists_of_forall₂ (hlike.parts hn) hmem
    exact ⟨b', ⟨ty', hty', hb'⟩, hab'⟩
  | true =>
    cases hlike with
    | named name u v =>
      obtain rfl := List.mem_singleton.mp hmem
      exact ⟨v, ⟨_, hty', List.mem_singleton_self v⟩, hc.underlying hty hty'⟩
    | _ => cases hn

theorem transGen_contains (ha : TransGen (Contains t1) a a') :
    ∃ b', TransGen (Contains t2) b b' ∧ Alike t1 t2 a' b' := by
  induction ha with
  | single hab =>
    obtain ⟨b', hb', hab'⟩ := hc.contains h hab
    exact ⟨b', .single hb', hab'⟩
  | tail _ hxy ih =>
    obtain ⟨b', hb', hab'⟩ := ih
    obtain ⟨b'', hb'', hab''⟩ := hc.contains hab' hxy
    exact ⟨b'', hb'.tail hb'', hab''⟩

theorem cyclic (ha : TransGen (Contains t1) a a) : TransGen (Contains t2) b b := by
  obtain ⟨b', hb', hab'⟩ := hc.transGen_contains h ha
  exact (h.eq_iff hc.left hc.right hab').mp rfl ▸ hb'

end

end Congruent

theorem Congruent.symm (hc : t1.Congruent t2) : t2.Congruent t1 := ⟨hc.right, hc.left, hc.alias?_eq.symm⟩

theorem Alike.symm (h : Alike t1 t2 a b) : Alike t2 t1 b a := .of_shape_eq h.right_lt h.left_lt h.shape_eq.symm

theorem named_of_isCyclic {x : Bool} (h : t1.isCyclic a = .ok x) : ∃ name u, t1.get? a = some (.named name u) := by
  obtain ⟨ty, hty, h⟩ := bind_eq_ok.mp h
  cases ty with
  | named name u => exact ⟨name, u, Interner.get_eq_ok.mp hty⟩
  | _ => cases h

theorem Congruent.isCyclic_eq (hc : t1.Congruent t2) {name : String} {u v : TypeId}
    (ha : t1.get? a = some (.named name u)) (hb : t2.get? b = some (.named name v)) {x y : Bool}
    (hx : t1.isCyclic a = .ok x) (hy : t2.isCyclic b = .ok y) : x = y := by
  have halike : Alike t1 t2 a b := .of_like hc.left hc.right ha hb (.named name u v)
  cases x with
  | true =>
    cases y with
    | true => rfl
    | false => exact absurd (hc.cyclic halike (contains_of_isCyclic_true ha hx)) (not_contains_of_isCyclic_false hb hy)
  | false =>
    cases y with
    | true =>
      exact absurd (hc.symm.cyclic halike.symm (contains_of_isCyclic_true hb hy)) (not_contains_of_isCyclic_false ha hx)
    | false => rfl

end TypeTable

/-! ## (3) Signatures -/

namespace Lowering

open Surface (FunDecl)

theorem resolveSignature_tallies {exact : Prop} (file : FileId) (d : FunDecl) {st1 st2 : Typing} (hf1 : st1.types.Formed)
    (hf2 : st2.types.Formed) (hn : st1.types.SameNames st2.types) :
    Tallies exact (resolveSignature file d) st1 (resolveSignature file d) st2 fun t1 t2 => Signature.Like (t1.Alike t2) := by
  refine ( Annotation.resolve_tallies file d.result hf1 hf2 hn).bind fun a b st1' st2' w1 w2 hab => ?_
  refine ( Annotation.resolveParams_tallies file _ w1.formed w2.formed (hn.widens w1 w2)).bind
    fun ps qs _ _ w1' w2' hps => ?_
  exact tallies_pure w1'.formed w2'.formed ⟨hps, hab.widens w1' w2'⟩

/-- The function that a declaration adds. -/
def headOf (file : FileId) (d : FunDecl) (signature : Signature) : Function :=
  { name := d.name, signature, file, span := d.span, flags := if d.body.isSome then d.flags else d.flags.markExternal }

variable {cfg : Settings} {s : State}

theorem declareAlias_whenever {gate : Log.Gate} {name : String} (hfree : s.types.findAlias? name = none)
    {Q : TypeId → State → Prop} (hQ : ∀ journal, Q ⟨s.types.size⟩
      (s.withTyping ⟨⟨s.types.items.push (.named name .invalid)⟩, journal⟩)) :
    Whenever (onTyping (Typing.declareAlias gate name)) s Q := by
  have hinsert : s.typing.types.insert (.named name .invalid) = _ := TypeTable.insert_alias hfree
  simp only [whenever_onTyping, Typing.declareAlias, Typing.intern, Typing.note, whenever_bind, whenever_modifyGet,
    whenever_modify, whenever_pure, hinsert]
  exact hQ _

/-- The log may add the type of a declared function. -/
theorem noteDeclared_whenever (hf : s.types.Formed) {f : Function}
    (hsig : ∀ m ∈ (Ty.func f.signature).mentions, m.index < s.types.size) :
    Whenever (noteDeclared cfg f) s fun _ s' => s' = s.withTyping s'.typing ∧ s.types.Widens s'.types := by
  unfold noteDeclared
  split
  · simp only [whenever_bind, whenever_onTyping, Typing.intern, whenever_modifyGet, typeName, whenever_nameOf, whenever_note]
    exact fun _ _ => ⟨rfl, .insert hf rfl hsig⟩
  · exact (whenever_pure _).mpr ⟨rfl, .refl hf⟩

/-- The last steps of declaring a function. -/
theorem addFun_answers (cfg : Settings) (f : Function) (hf : s.types.Formed)
    (hsig : ∀ m ∈ (Ty.func f.signature).mentions, m.index < s.types.size) :
    Answers (do
        let fn ← newFun f
        modify fun s => { s with functions := s.functions ++ [(f.name, fn)] }
        noteDeclared cfg f
        return fn : StmtM FunId) s
      (fun fn s' => fn = s.funs.next ∧ s' = (s.addFun f).withTyping s'.typing ∧
        s.types.Widens s'.types) fun _ _ => False := by
  simp only [answers_bind, answers_lift, newFun, whenever_bind, whenever_get, whenever_setContext, whenever_pure,
    answers_modify, answers_pure]
  exact (noteDeclared_whenever (s := s.addFun f) hf hsig).mono fun _ s' h => ⟨trivial, h⟩

end Lowering

end BlockCompiler
