/-
  BlockCompiler.Proofs.RunEffects — a run is a sequence of effects.

  Whatever is lowered from a sound state into an open block of the body does nothing but
  effects, each with its side condition (`Run.moves`): values that are stored, tested,
  matched or returned have issued handles, and as long as no variable in force is `invalid`
  they have the types that their places ask for. So all that effects preserve holds of runs,
  and what becomes of the open blocks is known besides (`Moves`).
-/
import BlockCompiler.Proofs.Run

namespace BlockCompiler.Lowering

open Surface (Expr TypeExpr Stmt Arm)
open TypeTable (Grows StandsFor Acyclic)
open Typing (Adds)
open Relation (ReflTransGen TransGen)
open State

variable {value : Option Value} {ty : TypeId} {scrutinee : Value} {t : BlockId} {written : TypeExpr}

/-! ## What was fine later was fine before -/

theorem acyclic_of_grows {t t' : TypeTable} (hg : Grows t t') (h : Acyclic t') : Acyclic t := by
  intro id hid
  have hsub : ∀ a b, TypeTable.Contains t a b → TypeTable.Contains t' a b := fun a b hab => by
    obtain ⟨ty, hty, hb⟩ := hab
    exact ⟨ty, hg _ _ hty, hb⟩
  exact h id (TransGen.mono hsub _ _ hid)

section

variable {s s' : State} (hext : s.Extends s') (hsc : ∀ scope ∈ s.scopes, scope ∈ s'.scopes)
include hext hsc

theorem State.Clean.back (h : s'.Clean) : s.Clean := fun scope hscope p hp var hvar =>
  h scope (hsc scope hscope) p hp var (hext.vars _ _ hvar)

theorem State.Fine.back (h : s'.Fine) : s.Fine := ⟨h.1.back hext hsc, acyclic_of_grows hext.types.grows h.2⟩

end

/-! ## Values that fit -/

/-- A value fits a variable of type `ty`. -/
structure Fits (params : List Parameter) (s : State) (ty : TypeId) (value : Option Value) : Prop where
  lt : ty.index < s.types.size
  within : ∀ e, value = some e → e.Within (s.site params)
  clean : s.Clean → ty ≠ TypeId.invalid
  typed : s.Fine → ∀ e, value = some e → e.Typed (s.site params) ∧ e.ty = ty

section

variable {cfg : Settings} {file : FileId} {params : List Parameter} {s s' s'' : State} {e : Expr} {v : Value}
  {init : Option Expr}

theorem Fits.of_value {w : Value} (hw : w.Within (s.site params)) (hc : s.Clean → w.ty ≠ .invalid)
    (ht : s.Fine → w.Typed (s.site params)) : Fits params s w.ty (some w) :=
  ⟨hw.ty_lt, fun _ he => Option.some.inj he ▸ hw, hc, fun hf _ he => Option.some.inj he ▸ ⟨ht hf, rfl⟩⟩

section

variable (h : Checks cfg file params s e v s')
include h

theorem Checks.adds : s.typing.Adds s'.typing := h.lowered.adds

theorem Checks.clean (hc : s'.Clean) : v.ty ≠ .invalid := by
  obtain ⟨hty, hl⟩ := h
  rw [hty] at hc
  exact hl.clean (State.Clean.env hc cfg.gate file)

theorem Checks.fits : Fits params s' v.ty (some v) := by
  have hclean := h.clean
  obtain ⟨hty, hl⟩ := h
  generalize s'.typing = st at hty hl
  subst hty
  exact .of_value hl.within hclean fun hf =>
    hl.typed (acyclic_of_grows hl.adds.grows hf.2) (State.Clean.env hf.1 cfg.gate file)

theorem Checks.mirrors (hc : s'.Clean) : Mirrors (s'.site params) file e v := by
  obtain ⟨hty, hl⟩ := h
  generalize s'.typing = st at hty hl
  subst hty
  exact hl.mirrors (State.Clean.env hc cfg.gate file)

end

section

variable {ty : Option TypeExpr} {id : TypeId} (h : Initial cfg file params s ty init id value s')
include h

theorem Initial.adds : s.typing.Adds s'.typing := by
  cases h with
  | declared ha => exact ha.adds
  | inferred hc => exact hc.adds
  | both ha hc _ => exact ha.adds.trans hc.adds

theorem Initial.fits : Fits params s' id value := by
  cases h with
  | declared ha => exact ⟨ha.proper.1, by simp, fun _ => ha.proper.2, by simp⟩
  | inferred hc => exact hc.fits
  | both ha hc hassign =>
    have hproper := ha.proper.grows hc.adds.grows
    have hfits := hc.fits
    refine ⟨hproper.1, hfits.within, fun _ => hproper.2, fun hf e he => ?_⟩
    obtain ⟨ht, hty⟩ := hfits.typed hf e he
    exact ⟨ht, hty.trans (eq_of_assignable hassign hproper.2 (hc.clean hf.1)).symm⟩

end

section

variable {span : Span} {e : Option Expr} {value : Value} (hs : s.Sound)
  (h : Returns cfg file params span s e value s')
include hs h

theorem Returns.adds : s.typing.Adds s'.typing := by
  cases h with
  | value hc => exact hc.adds
  | unit => exact Adds.refl hs.types

theorem Returns.fits : Fits params s' value.ty (some value) := by
  cases h with
  | value hc => exact hc.fits
  | unit =>
    have hp := hs.types.proper_prim (i := 9) (by omega)
    exact .of_value (.leaf rfl ⟨hp.1, trivial⟩) (fun _ => hp.2) fun _ => .unit

end

theorem Fits.extends (h : Fits params s ty value) (hext : s.Extends s') (hsc : ∀ scope ∈ s.scopes, scope ∈ s'.scopes) :
    Fits params s' ty value :=
  ⟨Nat.lt_of_lt_of_le h.lt hext.types.grows.size_le, fun e he => (h.within e he).extends (hext.site params),
    fun hc => h.clean (hc.back hext hsc), fun hf e he =>
      ⟨(h.typed (hf.back hext hsc) e he).1.extends (hext.site params), (h.typed (hf.back hext hsc) e he).2⟩⟩

/-- The payload of a sum value that fits its variable. -/
theorem Fits.project {head : ArmHead} (hs : s.Sound)
    (h : Fits params s scrutinee.ty (some scrutinee)) (hn : Names s.types file scrutinee.ty written head.variant ty) :
    Fits params s ty (some (.project scrutinee head.variant ty head.span)) := by
  obtain ⟨⟨variants, ⟨id, hst, hsum⟩, hd⟩, -⟩ := hn
  have hproper := hs.types.proper_mention hsum rfl (List.mem_of_getElem? hd)
  exact .of_value (w := .project scrutinee head.variant ty head.span)
    (.above rfl ⟨hproper.1, trivial⟩ (h.within scrutinee rfl))
    (fun _ => hproper.2) fun hf => .project (h.typed hf scrutinee rfl).1 hst hsum hd

end

/-! ## Passages -/

/-- A body is lowered, whose blocks are those from `lo` on; the blocks `A` of it are open. -/
structure State.Holds (s : State) (sig : Signature) (lo : Nat) (A : List BlockId) : Prop where
  sound : s.Sound
  result_ne : sig.result ≠ .invalid
  lo_le : lo ≤ s.blocks.size
  owns : s.Owns A
  above : ∀ b ∈ A, lo ≤ b.index

/-- Going from `s` to `s'` took effects alone. It used the open blocks `A` and left the open
blocks `B`. -/
structure Moves (cfg : Settings) (sig : Signature) (lo : Nat) (s : State) (A : List BlockId) (s' : State)
    (B : List BlockId) : Prop extends yields : Yields s A s' B where
  effects : Effects cfg sig lo s s'

section

variable {cfg : Settings} {sig : Signature} {lo : Nat} {s s' s'' : State} {b exit head : BlockId}
  {A B C D : List BlockId}

theorem State.Holds.isOpen (h : s.Holds sig lo (b :: A)) : s.IsOpen b := h.owns.isOpen b (.head _)

theorem State.Holds.mem (h : s.Holds sig lo A) (hb : b ∈ A) : lo ≤ b.index ∧ b.index < s.blocks.size :=
  ⟨h.above b hb, (h.owns.isOpen b hb).lt⟩

theorem State.Holds.left (h : s.Holds sig lo (A ++ D)) : s.Holds sig lo A :=
  ⟨h.sound, h.result_ne, h.lo_le, h.owns.left, fun b hb => h.above b (List.mem_append_left _ hb)⟩

theorem State.Holds.nil (h : s.Holds sig lo A) : s.Holds sig lo [] := Holds.left (D := A) h

theorem vars_declare (s : State) (b : BlockId) (ty : TypeId) (name : String) (value : Option Value) :
    (s.declare b ty name value).vars = s.vars.insert { ty, name } := by
  cases value <;> rfl

namespace Moves

theorem refl (h : s.Owns A) : Moves cfg sig lo s A s A := ⟨.refl h, .refl⟩

section

variable (h : Moves cfg sig lo s A s' B)
include h

theorem trans (h' : Moves cfg sig lo s' B s'' C) : Moves cfg sig lo s A s'' C :=
  ⟨h.yields.trans h'.yields, h.effects.trans h'.effects⟩

theorem perm (hB : B.Perm C) : Moves cfg sig lo s A s' C :=
  ⟨h.yields.perm (.refl _) hB, h.effects⟩

theorem frame (ho : s.Owns (A ++ D)) : Moves cfg sig lo s (A ++ D) s' (B ++ D) :=
  ⟨h.yields.frame ho, h.effects⟩

theorem holds (hh : s.Holds sig lo A) : s'.Holds sig lo B :=
  ⟨Effects.sound h.effects hh.sound, hh.result_ne, Nat.le_trans hh.lo_le h.size_le, h.owns,
    h.yields.lo_le hh.above hh.lo_le⟩

end

/-! ### One effect -/

/-- An effect that leaves the blocks alone. -/
theorem single (he : Effect cfg sig lo s s') (ho : s.Owns A) (hb : s'.blocks = s.blocks) :
    Moves cfg sig lo s A s' A := ⟨.of_blocks_eq ho hb, .single he⟩

theorem typing (ht : s' = s.withTyping s'.typing) (ha : s.typing.Adds s'.typing) (ho : s.Owns A) :
    Moves cfg sig lo s A s' A := by
  have he : Effect cfg sig lo s (s.withTyping s'.typing) := .typing ha
  rw [← ht] at he
  exact .single he ho (blocks_of_typing ht)

theorem addBlock (ho : s.Owns A) : Moves cfg sig lo s A s.addBlock (s.blocks.next :: A) :=
  ⟨.addBlock ho, .single .addBlock⟩

end Moves

theorem Moves.extends (h : Moves cfg sig lo s A s' B) (hh : s.Holds sig lo A) : s.Extends s' :=
  Effects.extends h.effects hh.sound

namespace State.Holds

theorem append (h : s.Holds sig lo A) (hb : b ∈ A) {x : BlockStmt} (hw : x.Within (s.site sig.params))
    (ht : s.Fine → x.Typed (s.site sig.params)) : Moves cfg sig lo s A (s.append b x) A :=
  ⟨.append h.owns hb x, .single (.append (h.above b hb) (h.owns.isOpen b hb) hw ht)⟩

theorem close (h : s.Holds sig lo (b :: A)) {t : Terminator} (hw : t.Within (s.site sig.params))
    (ht : s.Fine → t.Typed (s.site sig.params) sig.result)
    (hsucc : ∀ b' ∈ t.successors, lo ≤ b'.index ∧ b'.index < s.blocks.size) :
    Moves cfg sig lo s (b :: A) (s.close b t) A :=
  ⟨.close h.owns t, .single (.close (h.above b (.head _)) h.isOpen hw ht hsucc)⟩

/-! ### The parts -/

section

variable (h : s.Holds sig lo A) (hb : b ∈ A) (name : String) (hf : Fits sig.params s ty value)
include h hb hf

theorem declare : Moves cfg sig lo s A (s.declare b ty name value) A := by
  have hvar : Moves cfg sig lo s A (s.addVar ty name) A := .single (.addVar hf.lt) h.owns rfl
  have hext := hvar.extends h
  have hnew : (s.addVar ty name).vars.get? s.vars.next = some { ty, name } := Arena.get?_insert_next _ _
  have hlive : Moves cfg sig lo s A ((s.addVar ty name).append b (.live s.vars.next)) A :=
    hvar.trans ((hvar.holds h).append hb (Arena.get?_lt hnew) fun hfine =>
      ⟨_, hnew, Nat.lt_of_lt_of_le hf.lt hext.types.grows.size_le, hf.clean (hfine.1.back hext fun _ h => h)⟩)
  cases value with
  | none => exact hlive
  | some e =>
    have hext' := hlive.extends h
    refine hlive.trans ((hlive.holds h).append hb ⟨Arena.get?_lt hnew, (hf.within e rfl).extends (hext'.site _)⟩
      fun hfine => ?_)
    obtain ⟨ht, hty⟩ := hf.typed (hfine.back hext' fun _ h => h) e rfl
    exact ⟨_, hnew, ht.extends (hext'.site _), hty⟩

theorem bound : Moves cfg sig lo s A ((s.declare b ty name value).bind name s.vars.next) A := by
  have hdecl : Moves cfg sig lo s A (s.declare b ty name value) A := h.declare hb name hf
  have hnew : (s.declare b ty name value).vars.get? s.vars.next = some { ty, name } := by
    rw [vars_declare]
    exact Arena.get?_insert_next _ _
  exact hdecl.trans (.single (.bind hnew rfl fun hc => hf.clean (hc.back (hdecl.extends h) fun _ h => by
    rwa [scopes_declare])) hdecl.owns rfl)

end

theorem joined {j : BlockId} (hj : lo ≤ j.index) : ∀ {ends : List BlockId} {s : State}, s.Holds sig lo (ends ++ A) →
    j.index < s.blocks.size → Moves cfg sig lo s (ends ++ A) (s.joined j ends) A
  | [], _, h, _ => .refl h.owns
  | e :: rest, s, h, hlt => by
    have hsucc : ∀ b ∈ (Terminator.jump j).successors, lo ≤ b.index ∧ b.index < s.blocks.size := by
      simpa [Terminator.successors] using ⟨hj, hlt⟩
    have hclose : Moves cfg sig lo s (e :: (rest ++ A)) (s.close e (.jump j)) (rest ++ A) :=
      h.close trivial (fun _ => trivial) hsucc
    exact hclose.trans (joined hj (hclose.holds h) (Nat.lt_of_lt_of_le hlt hclose.size_le))

theorem meet {ends : List BlockId} (h : s.Holds sig lo (ends ++ A)) :
    Moves cfg sig lo s (ends ++ A) (s.meet ends).2 ((s.meet ends).1.toList ++ A) := by
  cases ends with
  | nil => exact .refl h.owns
  | cons e ends =>
    have hperm : (s.blocks.next :: (e :: ends ++ A)).Perm (e :: ends ++ s.blocks.next :: A) :=
      List.perm_middle.symm
    have hnew : Moves cfg sig lo s (e :: ends ++ A) s.addBlock (e :: ends ++ s.blocks.next :: A) :=
      (Moves.addBlock h.owns).perm hperm
    exact hnew.trans ((hnew.holds h).joined (j := s.blocks.next) h.lo_le (by simp [State.addBlock]))

/-- Three new blocks: the head of a loop, which is jumped to, its body and its exit. -/
theorem loop (h : s.Holds sig lo [b]) (hhead : head = s.blocks.next) (ht : t = s.addBlock.blocks.next)
    (hexit : exit = s.addBlock.addBlock.blocks.next) :
    Moves cfg sig lo s [b] (s.addBlock.addBlock.addBlock.close b (.jump head)) [head, t, exit] := by
  have h1 : Moves cfg sig lo s [b] s.addBlock [head, b] := hhead ▸ .addBlock h.owns
  have h2 : Moves cfg sig lo s [b] s.addBlock.addBlock [t, head, b] := ht ▸ h1.trans (.addBlock h1.owns)
  have h3 : Moves cfg sig lo s [b] s.addBlock.addBlock.addBlock [exit, t, head, b] :=
    hexit ▸ h2.trans (.addBlock h2.owns)
  have h4 := h3.perm (List.reverse_perm [b, head, t, exit])
  have hsucc : ∀ x ∈ (Terminator.jump head).successors, x ∈ [b, head, t, exit] := by simp [Terminator.successors]
  exact h4.trans ((h4.holds h).close trivial (fun _ => trivial) fun x hx => (h4.holds h).mem (hsucc x hx))

end State.Holds

variable {file : FileId} {e : Expr} {c : Value}

theorem Checks.moves (h : Checks cfg file sig.params s e c s') (ho : s.Owns A) : Moves cfg sig lo s A s' A :=
  .typing h.typing h.adds ho

/-- A condition fits a branch. -/
theorem Tests.typed_branch (h : Tests cfg file sig.params s e c s') (hext : s'.Extends s'')
    (hsc : s''.scopes = s'.scopes) (t f : BlockId) : (Terminator.branch c t f).Within (s''.site sig.params) ∧
      (s''.Fine → (Terminator.branch c t f).Typed (s''.site sig.params) sig.result) := by
  have hfits := h.fits.extends hext fun _ hmem => by rwa [hsc]
  refine ⟨hfits.within c rfl, fun hf => ?_⟩
  obtain ⟨ty, hty, hcond⟩ := h.condition (hfits.clean hf.1)
  exact ⟨(hfits.typed hf c rfl).1, ty, hext.types.grows _ _ hty, hcond⟩

theorem Tests.moves_branch {f : BlockId} (h : Tests cfg file sig.params s e c s') (hh : s.Holds sig lo [b])
    (ht : t = s'.blocks.next) (hf : f = s'.addBlock.blocks.next) :
    Moves cfg sig lo s [b] (s'.addBlock.addBlock.close b (.branch c t f)) [t, f] := by
  have h1 : Moves cfg sig lo s [b] s' [b] := h.moves hh.owns
  have hh1 := h1.holds hh
  have h2 : Moves cfg sig lo s' [b] s'.addBlock [t, b] := ht ▸ .addBlock hh1.owns
  have h3 : Moves cfg sig lo s' [b] s'.addBlock.addBlock [f, t, b] := hf ▸ h2.trans (.addBlock h2.owns)
  have h4 := h3.perm (List.reverse_perm [b, t, f])
  obtain ⟨hw, htyped⟩ := h.typed_branch (h4.extends hh1) rfl t f
  exact h1.trans (h4.trans ((h4.holds hh1).close hw htyped fun x hx => (h4.holds hh1).mem (.tail _ hx)))

section

variable (h : Tests cfg file sig.params s e c s') (hh : s.Holds sig lo [b]) (hhead : head = s'.blocks.next)
  (ht : t = s'.addBlock.blocks.next) (hexit : exit = s'.addBlock.addBlock.blocks.next)
include h hh hhead ht hexit

theorem Tests.moves_head
    : Moves cfg sig lo s [b] (s'.addBlock.addBlock.addBlock.close b (.jump head)) [head, t, exit] := by
  have h1 : Moves cfg sig lo s [b] s' [b] := h.moves hh.owns
  exact h1.trans ((h1.holds hh).loop hhead ht hexit)

theorem Tests.moves_loop
    : Moves cfg sig lo s [b]
      ((s'.addBlock.addBlock.addBlock.close b (.jump head)).close head (.branch c t exit)) [t, exit] := by
  have h1 : Moves cfg sig lo s [b] s' [b] := h.moves hh.owns
  have hh1 := h1.holds hh
  have h2 : Moves cfg sig lo s' [b] (s'.addBlock.addBlock.addBlock.close b (.jump head)) [head, t, exit] :=
    hh1.loop hhead ht hexit
  have hh2 := h2.holds hh1
  obtain ⟨hw, htyped⟩ := h.typed_branch (h2.extends hh1) rfl t exit
  exact h1.trans (h2.trans (hh2.close hw htyped fun x hx => hh2.mem (.tail _ hx)))

end

theorem HasVariants.unique {t : TypeTable} {sum : TypeId} {vs ws : List TypeId} (h : HasVariants t sum vs)
    (h' : HasVariants t sum ws) : vs = ws := by
  obtain ⟨id, hst, hsum⟩ := h
  obtain ⟨id', hst', hsum'⟩ := h'
  rw [hst.unique hst', hsum'] at hsum
  cases hsum
  rfl

/-- A new block for an arm, in front of its statements. -/
theorem State.Holds.payload {head : ArmHead} (h : s.Holds sig lo []) (hb : b = s.blocks.next)
    (hfits : Fits sig.params s scrutinee.ty (some scrutinee))
    (hn : Names s.types file scrutinee.ty written head.variant ty) (binding : Option String) :
    Moves cfg sig lo s [] (s.addBlock.enter.withPayload b scrutinee head ty binding) [b] := by
  have hnew : Moves cfg sig lo s [] s.addBlock [b] := hb ▸ .addBlock h.owns
  have henter : Moves cfg sig lo s [] s.addBlock.enter [b] := hnew.trans (.single .enter hnew.owns rfl)
  have hh := henter.holds h
  have hfits1 := hfits.extends (henter.extends h) fun _ h => .tail _ h
  have hn1 : Names s.addBlock.enter.types file scrutinee.ty written head.variant ty := hn
  cases binding with
  | none => exact henter
  | some name => exact henter.trans (hh.bound (.head _) name (hfits1.project hh.sound hn1))

namespace Matches

variable {v : Value} {arms : List Arm} {heads : List ArmHead} {targets : List (VariantId × BlockId)}

section

variable (h : Matches cfg file sig.params s e v arms heads s')
include h

/-- The variable that holds the matched value fits. -/
theorem fits_scrutinee :
    Fits sig.params (s'.declare b v.ty "match" (some v)) v.ty (some (.var s'.vars.next v.ty v.span)) := by
  have hnew : (s'.declare b v.ty "match" (some v)).vars.get? s'.vars.next =
      some { ty := v.ty, name := "match" } := by
    rw [vars_declare]
    exact Arena.get?_insert_next _ _
  have hlt : v.ty.index < s'.types.size := h.fits.lt
  exact .of_value (w := .var s'.vars.next v.ty v.span)
    (.leaf rfl ⟨hlt, Arena.get?_lt hnew⟩) (fun _ => h.valid) fun _ =>
    show Value.Typed _ (.var _ (Variable.mk v.ty "match").ty _) from .var hnew h.valid hlt

theorem moves_declare (hh : s.Holds sig lo [b]) :
    Moves cfg sig lo s [b] (s'.declare b v.ty "match" (some v)) [b] := by
  have h1 : Moves cfg sig lo s [b] s' [b] := h.moves hh.owns
  exact h1.trans ((h1.holds hh).declare (.head _) "match" h.fits)

/-- A switch over the variants of the arms fits. -/
theorem typed_switch {s2 : State} (fallback : BlockId) (hg : Grows s'.types s2.types)
    (hty : scrutinee.ty = v.ty)
    (hfits : Fits sig.params s2 scrutinee.ty (some scrutinee))
    (htargets : targets.map (·.1) = heads.map (·.variant)) :
    (Terminator.switch scrutinee targets fallback).Within (s2.site sig.params) ∧
      (s2.Fine → (Terminator.switch scrutinee targets fallback).Typed (s2.site sig.params) sig.result) := by
  obtain ⟨variants, hvariants⟩ := h.sum
  have hlt : ∀ target ∈ targets, target.1.index < variants.length := fun target htarget => by
    have hmem : target.1 ∈ heads.map (·.variant) := htargets ▸ List.mem_map_of_mem htarget
    obtain ⟨head, hhead, heq⟩ := List.mem_map.mp hmem
    obtain ⟨i, hi⟩ := List.mem_iff_getElem?.mp hhead
    obtain ⟨hil, rfl⟩ := List.getElem?_eq_some_iff.mp hi
    obtain ⟨ty, ⟨variants', hv', hd⟩, -⟩ := h.named.get (by rw [h.named.length_eq]; exact hil) hil
    rw [hvariants.unique hv', ← heq]
    exact (List.getElem?_eq_some_iff.mp hd).1
  obtain ⟨id, hst, hsum⟩ := hvariants.grows hg
  rw [← hty] at hst
  exact ⟨⟨hfits.within _ rfl, id, variants, hst, hsum, hlt⟩, fun hf =>
    ⟨(hfits.typed hf _ rfl).1, id, variants, hst, hsum, htargets ▸ h.nodup, hlt⟩⟩

/-- The switch at the end of a match, once its targets are there. -/
theorem moves_switch {s2 s3 : State} {fallback : BlockId}
    (hscr : scrutinee = .var s'.vars.next v.ty v.span) (hs2 : s2 = s'.declare b v.ty "match" (some v))
    (hext : s2.Extends s3) (hsc : s3.scopes = s2.scopes)
    (hh : s3.Holds sig lo (b :: A))
    (htargets : targets.map (·.1) = heads.map (·.variant))
    (hsucc : ∀ target ∈ targets, lo ≤ target.2.index ∧ target.2.index < s3.blocks.size)
    (hfallback : lo ≤ fallback.index ∧ fallback.index < s3.blocks.size) :
    Moves cfg sig lo s3 (b :: A) (s3.close b (.switch scrutinee targets fallback)) A := by
  have hfits : Fits sig.params s2 scrutinee.ty (some scrutinee) := by
    rw [hscr, hs2]
    exact h.fits_scrutinee
  have hfits3 := hfits.extends hext fun _ hmem => by rwa [hsc]
  have hg : Grows s'.types s3.types := by
    have hgrows : Grows s2.types s3.types := hext.types.grows
    rwa [hs2] at hgrows
  obtain ⟨hwithin, htyped⟩ := h.typed_switch fallback hg (by rw [hscr]; rfl) hfits3 htargets
  refine hh.close hwithin htyped fun b' hb' => ?_
  simp only [Terminator.successors, List.mem_append, List.mem_map, List.mem_singleton] at hb'
  rcases hb' with ⟨target, htarget, rfl⟩ | rfl
  · exact hsucc target htarget
  · exact hfallback

end

end Matches

end

/-! ## Runs -/

section

variable {cfg : Settings} {sig : Signature} {lo : Nat} {s s' : State} {file : FileId} {task : Task}

/-- What a task does to open blocks, by effects. -/
def Task.Moves (cfg : Settings) (sig : Signature) (lo : Nat) : Task → State → State → Prop
  | .stmt _ b next, s, s' => s.Holds sig lo [b] → Lowering.Moves cfg sig lo s [b] s' next.toList
  | .refusal _ d, s, s' => ∀ A, s.Owns A → Lowering.Moves cfg sig lo s A (s'.reported cfg d) A
  | .stmts _ current next, s, s' => s.Holds sig lo current.toList →
      Lowering.Moves cfg sig lo s current.toList s' next.toList
  | .arms scrutinee _ _ targets ends, s, s' => s.Holds sig lo [] → Fits sig.params s scrutinee.ty (some scrutinee) →
      Lowering.Moves cfg sig lo s [] s' ends ∧
      ∀ target ∈ targets, lo ≤ target.2.index ∧ target.2.index < s'.blocks.size

/-- Statements in a scope of their own, other open blocks being carried along. -/
theorem Task.Moves.scoped {body : List Stmt} {last : Option BlockId} {D : List BlockId}
    (h : (Task.stmts body (some t) last).Moves cfg sig lo s.enter s') (hh : s.Holds sig lo ([t] ++ D)) :
    Lowering.Moves cfg sig lo s ([t] ++ D) s'.leave (last.toList ++ D) := by
  have h1 : Lowering.Moves cfg sig lo s ([t] ++ D) s.enter ([t] ++ D) := .single .enter hh.owns rfl
  have hh1 := h1.holds hh
  have h2 := h1.trans ((h hh1.left).frame hh1.owns)
  exact h2.trans (.single .leave h2.owns rfl)

/-- A run does nothing but effects. -/
theorem Run.moves (h : Run cfg file sig task s s') : task.Moves cfg sig lo s s' := by
  induction h with
  | @letVar s s1 name _ _ _ b _ _ hi =>
    intro hh
    have h1 : Moves cfg sig lo s [b] s1 [b] := .typing hi.typing hi.adds hh.owns
    exact h1.trans ((h1.holds hh).bound (.head _) name hi.fits)
  | @assign s s1 name _ _ _ b v var value hl hc hvar hassign =>
    intro hh
    have h1 : Moves cfg sig lo s [b] s1 [b] := hc.moves hh.owns
    refine h1.trans ((h1.holds hh).append (.head _) ⟨Arena.get?_lt hvar, hc.fits.within value rfl⟩ fun hf => ?_)
    obtain ⟨scope, hscope, hmem⟩ := mem_of_lookup? hl
    have hne : var.ty ≠ .invalid := hf.1 scope (by rw [hc.typing]; exact hscope) _ hmem var hvar
    exact ⟨var, hvar, (hc.fits.typed hf value rfl).1, (eq_of_assignable hassign hne (hc.clean hf.1)).symm⟩
  | @ret s s1 _ _ b value hr hassign =>
    intro hh
    have h1 : Moves cfg sig lo s [b] s1 [b] := .typing hr.typing (hr.adds hh.sound) hh.owns
    have hfits := hr.fits hh.sound
    refine h1.trans ((h1.holds hh).close (hfits.within value rfl) (fun hf => ?_) (by simp [Terminator.successors]))
    exact ⟨(hfits.typed hf value rfl).1, (eq_of_assignable hassign hh.result_ne (hfits.clean hf.1)).symm⟩
  | @effect s s1 _ _ b _ hc =>
    intro hh
    have h1 : Moves cfg sig lo s [b] s1 [b] := hc.moves hh.owns
    exact h1.trans ((h1.holds hh).declare (.head _) "_" hc.fits)
  | block _ ih => exact fun hh => (Task.Moves.scoped (D := []) ih hh).perm (by rw [List.append_nil])
  | ifThen ht hteq hjeq hs2 _ ih =>
    intro hh
    have h1 := hs2 ▸ ht.moves_branch hh hteq hjeq
    have h2 := h1.trans (Task.Moves.scoped (D := [_]) ih (h1.holds hh))
    obtain ⟨hlo, hlt⟩ := (h2.holds hh).mem (List.mem_append_right _ (.head _))
    exact h2.trans ((h2.holds hh).joined hlo hlt)
  | ifElse ht hteq hfeq hs2 _ _ ihThen ihElse =>
    intro hh
    have h1 := hs2 ▸ ht.moves_branch hh hteq hfeq
    have h2 := (h1.trans (Task.Moves.scoped (D := [_]) ihThen (h1.holds hh))).perm List.perm_append_comm
    have h3 := (h2.trans (Task.Moves.scoped ihElse (h2.holds hh))).perm List.perm_append_comm
    rw [← List.append_nil (_ ++ _)] at h3
    exact (h3.trans (h3.holds hh).meet).perm (by rw [List.append_nil])
  | @whileLoop s s1 s2 _ _ _ _ b head t exit _ _ ht hheq hteq hexit hs2 _ ih =>
    intro hh
    have h0 : Moves cfg sig lo s [b] _ [head, t, exit] := ht.moves_head hh hheq hteq hexit
    obtain ⟨hlo, hlt⟩ := (h0.holds hh).mem (.head _)
    have h1 := hs2 ▸ ht.moves_loop hh hheq hteq hexit
    have hscoped := Task.Moves.scoped (D := [_]) ih (h1.holds hh)
    have h2 := h1.trans hscoped
    have hsize := (congrArg (·.context.blocks.size) hs2).trans (Arena.size_modify _ _ _)
    exact h2.trans ((h2.holds hh).joined hlo (Nat.lt_of_lt_of_le (hsize ▸ hlt) hscoped.size_le))
  | matchFailed hc _ => exact fun hh => hc.moves hh.owns
  | @matchOn s _ s2 s3 _ _ _ b j _ scrutinee _ targets ends hm hscr hs2 hj hrun ih =>
    intro hh
    have h1 : Moves cfg sig lo s [b] s2 [b] := hs2 ▸ hm.moves_declare hh
    have hh1 := h1.holds hh
    have h2 : Moves cfg sig lo s2 [b] s2.addBlock [j, b] := hj ▸ .addBlock hh1.owns
    have hfits : Fits sig.params s2 scrutinee.ty (some scrutinee) := by
      rw [hscr, hs2]
      exact hm.fits_scrutinee
    obtain ⟨harms, hrange⟩ := ih (h2.holds hh1).nil (hfits.extends (h2.extends hh1) fun _ h => h)
    have h3 := h2.trans (harms.frame (D := [j, b]) h2.owns)
    obtain ⟨hlo, hlt⟩ := (h3.holds hh1).mem (b := j) (by simp)
    have hjoin : Moves cfg sig lo s3 (ends ++ [j, b]) (s3.joined j ends) [j, b] := (h3.holds hh1).joined hlo hlt
    have h4 := (h3.trans hjoin).perm (List.reverse_perm [b, j])
    have hsc : (s3.joined j ends).scopes = s2.scopes := (scopes_joined j ends s3).trans hrun.keeps
    exact h1.trans (h4.trans (hm.moves_switch hscr hs2 (h4.extends hh1) hsc (h4.holds hh1) hrun.targets
      (fun target htarget => ⟨(hrange target htarget).1, Nat.lt_of_lt_of_le (hrange target htarget).2
        hjoin.size_le⟩) ((h4.holds hh1).mem (.tail _ (.head _)))))
  | @matchElse s _ s2 s3 s4 _ _ _ _ b f _ scrutinee _ targets ends last hm hscr hs2 harms hf hrun ihArms ih =>
    intro hh
    have h1 : Moves cfg sig lo s [b] s2 [b] := hs2 ▸ hm.moves_declare hh
    have hh1 := h1.holds hh
    have hfits : Fits sig.params s2 scrutinee.ty (some scrutinee) := by
      rw [hscr, hs2]
      exact hm.fits_scrutinee
    obtain ⟨hcases, hrange⟩ := ihArms hh1.nil hfits
    have h2 := hcases.frame (D := [b]) hh1.owns
    have hnew : Moves cfg sig lo s3 (ends ++ [b]) s3.addBlock ([f] ++ (ends ++ [b])) := hf ▸ .addBlock h2.owns
    have h3 := h2.trans hnew
    obtain ⟨hlo, hlt⟩ := (h3.holds hh1).mem (b := f) (.head _)
    have hscoped := Task.Moves.scoped ih (h3.holds hh1)
    have h4 : Moves cfg sig lo s2 [b] s4.leave ((ends ++ last.toList) ++ [b]) :=
      (h3.trans hscoped).perm (by simpa using List.perm_append_comm_assoc last.toList ends [b])
    have hmeet : Moves cfg sig lo s4.leave _ _ _ := (h4.holds hh1).meet
    have h5 := (h4.trans hmeet).perm List.perm_append_comm
    have hsize : s3.addBlock.blocks.size ≤ (s4.leave.meet (ends ++ last.toList)).2.blocks.size :=
      Nat.le_trans hscoped.size_le hmeet.size_le
    have hsc : (s4.leave.meet (ends ++ last.toList)).2.scopes = s2.scopes := by
      rw [scopes_meet, State.SameDepth.leave_eq hrun.keeps]
      exact harms.keeps
    exact h1.trans (h5.trans (hm.moves_switch hscr hs2 (h5.extends hh1) hsc (h5.holds hh1) harms.targets
      (fun target htarget => ⟨(hrange target htarget).1, Nat.lt_of_lt_of_le (hrange target htarget).2
        (Nat.le_trans hnew.size_le hsize)⟩)
      ⟨hlo, Nat.lt_of_lt_of_le hlt hsize⟩))
  | refused ha hd =>
    intro A ho
    have h1 : Moves cfg sig lo _ A _ A := .single (.typing ha) ho rfl
    exact h1.trans (.single .report h1.owns rfl)
  | refusedLet ha hd =>
    intro A ho
    have h1 : Moves cfg sig lo _ A _ A := .single (.typing ha) ho rfl
    exact h1.trans (.single (.poison hd) h1.owns rfl)
  | done => exact fun hh => .refl hh.owns
  | limit _ => exact fun hh => .refl hh.owns
  | unreachable _ => exact fun hh => .single .report hh.owns rfl
  | step _ _ _ ih ihRest =>
    intro hh
    have h1 := ih hh
    exact h1.trans (ihRest (h1.holds hh))
  | skip _ _ _ _ ih ihRest =>
    intro hh
    have h1 := ih _ hh.owns
    exact h1.trans (ihRest (h1.holds hh))
  | noArms => exact fun hh _ => ⟨.refl hh.owns, by simp⟩
  | @arm s s1 s2 scrutinee _ binding _ _ _ head _ b ty last _ ends hb hn hrun _ ih ihArms =>
    intro hh hfits
    have h1 : Moves cfg sig lo s [] _ [b] := hh.payload hb hfits hn binding
    obtain ⟨hlo, hlt⟩ := (h1.holds hh).mem (.head _)
    have hscoped := Task.Moves.scoped (D := []) ih (h1.holds hh)
    have h2 := h1.trans hscoped
    have h3 : Moves cfg sig lo s [] s1.leave.leave (last.toList ++ []) := h2.trans (.single .leave h2.owns rfl)
    have hsc : s1.leave.leave.scopes = s.scopes := SameDepth.leave_arm hrun.keeps
    obtain ⟨hrest, hrange⟩ := ihArms (h3.holds hh).nil (hfits.extends (h3.extends hh) fun _ h => by rwa [hsc])
    rw [List.append_nil] at h3
    have h4 := h3.trans (hrest.frame (A := []) h3.owns)
    refine ⟨h4.perm List.perm_append_comm, List.forall_mem_cons.mpr ⟨⟨hlo, ?_⟩, hrange⟩⟩
    exact Nat.lt_of_lt_of_le hlt (Nat.le_trans hscoped.size_le hrest.size_le)

end

end BlockCompiler.Lowering
