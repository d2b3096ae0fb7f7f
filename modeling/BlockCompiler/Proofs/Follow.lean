/-
  BlockCompiler.Proofs.Follow — walking through blocks that are still being made.

  While a body is lowered, a walk through the blocks that it gets in the end (those of the
  final state `F`) can already be followed to the front: behind the last statement of an open
  block. `Follows`: a walk through the blocks goes along with one through the source, and where
  that goes on, it has come to the front of one of the given blocks.

  (1) What is in a block stays there, so a walk meets it (`advance_closed`, `path_declare`).
  (2) Walks that go along are composed as statements are (`Follows.after`, `Follows.andThen`),
      they part at decisions (`Follows.test`, `Follows.pick`) and meet where blocks are joined
      (`Follows.joined`, `Follows.meet`).
-/
import BlockCompiler.Proofs.Stmt
import BlockCompiler.Proofs.Walk

namespace BlockCompiler.Lowering

open Surface (Expr TypeExpr Stmt Arm)
open TypeTable (Grows StandsFor)
open State

variable {v : VarId} {var : Variable} {name : String} {actions : List (Action Origin TypeExpr)}
  {actions' : List (Action Value VariantId)} {rest : List Nat} {held : Holdings} {arms : List Arm}
  {targets : List (VariantId × BlockId)}

/-! ## (1) Fronts -/

namespace State

/-- The number of statements in a block so far. -/
def filled (s : State) (b : BlockId) : Nat := ((s.blocks.get? b).map (·.stmts.size)).getD 0

/-- The front of a block. -/
def front (s : State) (b : BlockId) (decisions : List Nat) (held : Holdings) : Spot :=
  ⟨b, s.filled b, decisions, held⟩

/-- What is lowered without an error from `s` on, where the blocks `A` are open, ends in `F`. -/
structure Leads (s : State) (sig : Signature) (A : List BlockId) (F : State) : Prop
    extends holds : s.Holds sig 0 A where
  clean : s.Clean
  ext : s.Extends F
  errors : F.errors = s.errors

end State

section Fronts

variable {cfg : Settings} {sig : Signature} {file : FileId} {lo : Nat} {s s' F : State} {b b' : BlockId}

theorem State.Leads.after {A B : List BlockId} (h : s.Leads sig A F) (hp : Moves cfg sig 0 s A s' B)
    (hF : s'.Extends F) : s'.Leads sig B F := by
  have hle := (hp.extends h.holds).errors
  have hle' := hF.errors
  have herr := h.errors
  exact ⟨hp.holds h.holds, Effects.clean hp.effects h.holds.sound (by omega) h.clean, hF, by omega⟩

theorem State.Leads.left {A D : List BlockId} (h : s.Leads sig (A ++ D) F) : s.Leads sig A F :=
  ⟨h.holds.left, h.clean, h.ext, h.errors⟩

theorem State.filled_eq {block : Block} (h : s.blocks.get? b = some block) :
    s.filled b = block.stmts.size := by
  rw [filled, h]
  rfl

theorem State.filled_of_get?_eq (h : s'.blocks.get? b = s.blocks.get? b) :
    s'.filled b = s.filled b := by rw [filled, filled, h]

/-- A block that is not there yet, or was just made, is empty. -/
theorem State.filled_of_le (h : s.blocks.size ≤ b.index) : s.filled b = 0 := by
  cases hb : s.blocks.get? b with
  | none => rw [filled, hb]; rfl
  | some block => exact absurd (Arena.get?_lt hb) (Nat.not_lt.mpr h)

theorem State.filled_addBlock (s : State) (b : BlockId) : s.addBlock.filled b = s.filled b := by
  rcases Nat.lt_or_ge b.index s.blocks.size with hlt | hge
  · exact filled_of_get?_eq (Arena.get?_insert_of_lt hlt)
  · rw [filled_of_le hge]
    unfold filled
    simp only [State.addBlock, Arena.get?_insert]
    split
    · rfl
    · cases hb : s.blocks.get? b with
      | none => rfl
      | some block => exact absurd (Arena.get?_lt hb) (Nat.not_lt.mpr hge)

theorem State.filled_next (s : State) : s.filled s.blocks.next = 0 := filled_of_le (Nat.le_refl _)

theorem State.filled_append (ho : s.IsOpen b) (x : BlockStmt) : (s.append b x).filled b = s.filled b + 1 := by
  obtain ⟨block, hb, -⟩ := ho
  have hget : (s.append b x).blocks.get? b = some { block with stmts := block.stmts.push x } := by
    simp [State.append, State.changeBlock, Arena.get?_modify, hb]
  rw [filled_eq hget, filled_eq hb, Array.size_push]

theorem State.filled_close (s : State) (b b' : BlockId) (t : Terminator) : (s.close b t).filled b' = s.filled b' := by
  unfold filled
  simp only [State.close, State.changeBlock, Arena.get?_modify]
  split
  · rename_i heq
    subst heq
    cases s.blocks.get? b' <;> rfl
  · rfl

theorem State.filled_joined (j : BlockId) : ∀ (ends : List BlockId) (s : State), (s.joined j ends).filled b = s.filled b
  | [], _ => rfl
  | e :: rest, s => (filled_joined j rest (s.close e (.jump j))).trans (filled_close s e b _)

theorem get?_close (h : s.IsOpen b) (t : Terminator) : ∃ block, (s.close b t).blocks.get? b = some block ∧
    block.stmts.size = s.filled b ∧ block.terminator = some t := by
  obtain ⟨block, hb, -⟩ := h
  exact ⟨{ block with terminator := some t }, by simp [State.close, State.changeBlock, Arena.get?_modify, hb],
    (filled_eq hb).symm, rfl⟩

/-- Behind its last statement, a block that was closed is left as its terminator says. -/
theorem advance_closed (h : s.IsOpen b) {t : Terminator} (hF : (s.close b t).Extends F) (decisions : List Nat)
    (held : Holdings) :
    F.advance (s.front b decisions held) = (s.front b decisions held).leave t := by
  obtain ⟨block, hget, hsize, ht⟩ := get?_close h t
  obtain ⟨block', hget', -, hsame⟩ := hF.blocks b block hget
  obtain rfl := hsame t ht
  have hnone : block'.stmts.toList[s.filled b]? = none := List.getElem?_eq_none (by simp [hsize])
  simp only [Context.advance, State.front, hget', hnone, ht]

/-- A block that was appended to has the statement where the front was. -/
theorem get?_front {x : BlockStmt} (ho : s.IsOpen b) (hF : (s.append b x).Extends F) :
    ∃ block, F.blocks.get? b = some block ∧ block.stmts.toList[s.filled b]? = some x := by
  obtain ⟨block, hb, -⟩ := ho
  have hget : (s.append b x).blocks.get? b = some { block with stmts := block.stmts.push x } := by
    simp [State.append, State.changeBlock, Arena.get?_modify, hb]
  obtain ⟨block', hget', ⟨more, hmore⟩, -⟩ := hF.blocks b _ hget
  refine ⟨block', hget', ?_⟩
  rw [← hmore, filled_eq hb]
  simp [Array.toList_push]

theorem path_live (ho : s.IsOpen b) (hF : (s.append b (.live v)).Extends F) (hv : s.vars.get? v = some var)
    (decisions : List Nat) (held : Holdings) :
    F.context.Path (s.front b decisions held) [.live var.name] ((s.append b (.live v)).front b decisions held) := by
  obtain ⟨block, hget, hat⟩ := get?_front ho hF
  change F.context.Path _ (some (Action.live var.name)).toList _
  refine .step ?_
  simp only [Context.advance, State.front, hget, hat, Spot.next, filled_append ho, Context.varName, hF.vars v var hv]
  rfl

theorem path_store {value : Value} (ho : s.IsOpen b) (hF : (s.append b (.store v value)).Extends F)
    (hv : s.vars.get? v = some var) (decisions : List Nat) (held : Holdings) :
    F.context.Path (s.front b decisions held) [.store var.name (value.shownIn held)]
      (((s.append b (.store v value)).front b decisions held).storing v value) := by
  obtain ⟨block, hget, hat⟩ := get?_front ho hF
  change F.context.Path _ (some (Action.store var.name (value.shownIn held))).toList _
  refine .step ?_
  simp only [Context.advance, State.front, hget, hat, Spot.next, Spot.storing, filled_append ho, Context.varName,
    hF.vars v var hv]
  rfl

theorem State.Sound.changeBlock (hs : s.Sound) (b : BlockId) (f : Block → Block) : (s.changeBlock b f).Sound := { hs with }

theorem State.Extends.append (hs : s.Sound) (ho : s.IsOpen b) (x : BlockStmt) : s.Extends (s.append b x) :=
  Extends.changeBlock hs ho fun block => ⟨[x], by rw [Array.toList_push]⟩

/-- What a variable holds after its declaration. -/
def declaredHoldings (held : Holdings) (v : VarId) : Option Value → Holdings
  | none => held
  | some value => fun v' => if v' = v then some value else held v'

/-- The actions of a declaration. -/
def declareActions (held : Holdings) (name : String) : Option Value → List (Action Value VariantId)
  | none => [.live name]
  | some value => [.live name, .store name (value.shownIn held)]

theorem path_declare {ty : TypeId} {value : Option Value} (hs : s.Sound) (hty : ty.index < s.types.size)
    (ho : s.IsOpen b) (hF : (s.declare b ty name value).Extends F) (decisions : List Nat) (held : Holdings) :
    F.context.Path (s.front b decisions held) (declareActions held name value)
      ((s.declare b ty name value).front b decisions (declaredHoldings held s.vars.next value)) := by
  have hvar := hs.addVar hty name
  have hopen := ho.addVar ty name
  have hnew : (s.addVar ty name).vars.get? s.vars.next = some { ty, name } := Arena.get?_insert_next _ _
  cases value with
  | none => exact path_live hopen hF hnew decisions held
  | some e =>
    have hopen' := hopen.append (.live s.vars.next)
    have hF1 := (Extends.append (hvar.changeBlock b _) hopen' (.store s.vars.next e)).trans hF
    exact (path_live hopen hF1 hnew decisions held).trans (path_store hopen' hF hnew decisions held)

end Fronts

/-! ## (2) Going along -/

/-- The walk through the blocks of `F` from `w` on goes along with the outcome `o` in the
source. If that goes on, it comes to the front of one of the blocks `ends`. -/
def Follows (F : State) (params : List Parameter) (file : FileId) (o : Outcome) (w : Spot) (ends : List BlockId)
    (s' : State) : Prop :=
  match o with
  | .goesOn actions rest => ∃ b ∈ ends, ∃ actions' held, F.context.Path w actions' (s'.front b rest held) ∧
      List.Forall₂ (Action.Agrees (F.site params) file) actions actions'
  | .ends walk => ∃ actions' w' ending, F.context.Path w actions' w' ∧ F.advance w' = .ends ending ∧
      walk.Agrees (F.site params) file ⟨actions', ending⟩

section Follows

variable {F s1 s' : State} {params : List Parameter} {file : FileId} {o : Outcome} {w w' : Spot}
  {ends ends' : List BlockId}

/-- Actions in front. -/
theorem Follows.after (hpath : F.context.Path w actions' w')
    (hagree : List.Forall₂ (Action.Agrees (F.site params) file) actions actions')
    (h : Follows F params file o w' ends s') : Follows F params file (o.after actions) w ends s' := by
  cases o with
  | goesOn more rest =>
    obtain ⟨b, hb, more', held, hmore, hag⟩ := h
    exact ⟨b, hb, actions' ++ more', held, hpath.trans hmore, List.rel_append hagree hag⟩
  | ends walk =>
    obtain ⟨more', w'', ending, hmore, hend, hag⟩ := h
    exact ⟨actions' ++ more', w'', ending, hpath.trans hmore, hend, List.rel_append hagree hag.actions, hag.ending⟩

/-- A way without an action in front. -/
theorem Follows.coming (hpath : F.context.Path w [] w') (h : Follows F params file o w' ends s') :
    Follows F params file o w ends s' := by
  have hafter : Follows F params file (o.after []) w ends s' := h.after hpath .nil
  rwa [Outcome.after_nil] at hafter

section

variable (h : Follows F params file o w ends s1)
include h

/-- What comes behind. -/
theorem Follows.andThen {next : List Nat → Outcome}
    (hnext : ∀ b ∈ ends, ∀ rest held, rest.length ≤ w.decisions.length →
      Follows F params file (next rest) (s1.front b rest held) ends' s') :
    Follows F params file (o.andThen next) w ends' s' := by
  cases o with
  | goesOn actions rest =>
    obtain ⟨b, hb, actions', held, hpath, hag⟩ := h
    exact (hnext b hb rest held hpath.decisions_le).after hpath hag
  | ends walk => exact h

/-- From where the walk comes to, it goes on to other fronts without an action. -/
theorem Follows.goTo
    (hgo : ∀ b ∈ ends, ∀ rest held, ∃ b' ∈ ends', F.context.Path (s1.front b rest held) [] (s'.front b' rest held)) :
    Follows F params file o w ends' s' := by
  cases o with
  | goesOn actions rest =>
    obtain ⟨b, hb, actions', held, hpath, hag⟩ := h
    obtain ⟨b', hb', hpath'⟩ := hgo b hb rest held
    exact ⟨b', hb', actions', held, by simpa using hpath.trans hpath', hag⟩
  | ends walk => exact h

/-- The fronts stay where they are. -/
theorem Follows.kept (hsub : ∀ b ∈ ends, b ∈ ends') (hkept : ∀ b ∈ ends, s'.blocks.get? b = s1.blocks.get? b) :
    Follows F params file o w ends' s' := by
  refine h.goTo fun b hb rest held => ⟨b, hsub b hb, ?_⟩
  rw [State.front, State.front, filled_of_get?_eq (hkept b hb)]
  exact .here

end

theorem Follows.goesOn {b : BlockId} (hb : b ∈ ends) (hpath : F.context.Path w actions' (s'.front b rest held))
    (hag : List.Forall₂ (Action.Agrees (F.site params) file) actions actions') :
    Follows F params file (.goesOn actions rest) w ends s' := ⟨b, hb, actions', held, hpath, hag⟩

/-- A walk that ends at once. -/
theorem Follows.stops {ending : Ending Origin} {ending' : Ending Value} (h : F.advance w = .ends ending')
    (hag : ending.Agrees (F.site params) file ending') : Follows F params file (.ends ⟨[], ending⟩) w ends s' :=
  ⟨[], w, ending', .here, h, .nil, hag⟩

end Follows

section Decisions

variable {F s' : State} {params : List Parameter} {file : FileId} {w : Spot} {ends : List BlockId} {e : Expr}
  {c v scrutinee : Value}

/-- A decision about a condition takes the same way through the blocks. -/
theorem Follows.test {t f : BlockId} {next : Bool → List Nat → Outcome}
    (hadv : F.advance w = w.leave (.branch c t f)) (hm : Mirrors (F.site params) file e c)
    (hnext : ∀ holds rest, rest.length < w.decisions.length →
      Follows F params file (next holds rest) (w.enter (if holds then t else f) rest) ends s') :
    Follows F params file (Outcome.test e next w.decisions) w ends s' := by
  unfold Spot.leave at hadv
  cases hds : w.decisions with
  | nil =>
    rw [hds] at hadv
    exact .stops hadv (.starved (.expr hm))
  | cons d rest =>
    rw [hds] at hadv hnext
    have hnext := hnext (decide (d = 0)) rest (by simp)
    simp only [decide_eq_true_eq] at hnext
    exact hnext.after (.step hadv) (.cons (.test (.expr hm)) .nil)

/-- The arm at a position is where the switch goes for it, if there is one. -/
def FollowsArm (F : State) (params : List Parameter) (file : FileId) (e : Expr) (v : Value) (arms : List Arm)
    (targets : List (VariantId × BlockId)) (ends : List BlockId) (s' : State) (d : Nat) (rest : List Nat)
    (held : Holdings) : Prop :=
  match targets[d]? with
  | none => walkArms e arms d rest = none
  | some (variant, b) => ∃ written ty o, walkArms e arms d rest = some (o.after [.pick (.expr e) (some written)]) ∧
      Names F.types file v.ty written variant ty ∧ Follows F params file o ⟨b, 0, rest, held⟩ ends s'

theorem FollowsArm.imp {s1 : State} {ends' : List BlockId} {d : Nat}
    (h : FollowsArm F params file e v arms targets ends s1 d rest held)
    (himp : ∀ o w, Follows F params file o w ends s1 → Follows F params file o w ends' s') :
    FollowsArm F params file e v arms targets ends' s' d rest held := by
  unfold FollowsArm at h ⊢
  cases htarget : targets[d]? with
  | none =>
    rw [htarget] at h
    exact h
  | some target =>
    rw [htarget] at h
    obtain ⟨written, ty, o, hwalk, hnames, hfollows⟩ := h
    exact ⟨written, ty, o, hwalk, hnames, himp o _ hfollows⟩

/-- A decision about a matched value takes the same arm. -/
theorem Follows.pick {fallback : BlockId} {other : List Nat → Outcome}
    (hadv : F.advance w = w.leave (.switch scrutinee targets fallback)) (hheld : scrutinee.heldIn w.held = v)
    (hm : Mirrors (F.site params) file e v)
    (harms : ∀ d rest, FollowsArm F params file e v arms targets ends s' d rest w.held)
    (hother : ∀ rest, Follows F params file (other rest) (w.enter fallback rest) ends s') :
    Follows F params file (match w.decisions with
      | [] => .ends ⟨[], .starved (.expr e)⟩
      | d :: rest => (walkArms e arms d rest).getD ((other rest).after [.pick (.expr e) none])) w ends s' := by
  simp only [Spot.leave, hheld] at hadv
  cases hds : w.decisions with
  | nil =>
    rw [hds] at hadv
    exact .stops hadv (.starved (.expr hm))
  | cons d rest =>
    have harm := harms d rest
    unfold FollowsArm at harm
    simp only [hds] at hadv ⊢
    cases htarget : targets[d]? with
    | none =>
      simp only [htarget] at hadv harm
      rw [harm]
      exact (hother rest).after (.step hadv) (.cons (.pickNone (.expr hm)) .nil)
    | some target =>
      obtain ⟨variant, b⟩ := target
      simp only [htarget] at hadv harm
      obtain ⟨written, ty, o, hwalk, hnames, hfollows⟩ := harm
      rw [hwalk]
      exact Follows.after (.step hadv) (.cons (.pick (.expr hm) hnames) .nil) hfollows

end Decisions

section Parts

variable {cfg : Settings} {file : FileId} {sig : Signature} {s s1 s' F : State} {b : BlockId} {e : Expr} {v : Value}

theorem State.Extends.of_bind {x : VarId} (h : (s.bind name x).Extends F) : s.Extends F := { h with }

theorem State.Extends.of_leave (h : s.leave.Extends F) : s.Extends F := { h with }

theorem State.Extends.enter (h : s.Extends F) : s.enter.Extends F := { h with }

theorem State.Extends.of_enter (h : s.enter.Extends F) : s.Extends F := { h with }

theorem Checks.gives (h : Checks cfg file sig.params s e v s') (hc : s'.Clean)
    (hext : (s'.site sig.params).Extends (F.site sig.params)) : Mirrors (F.site sig.params) file e v :=
  (h.mirrors hc).extends hext

theorem agrees_declare {σ : Site} (h : Mirrors σ file e v) (name : String) (held : Holdings) :
    List.Forall₂ (Action.Agrees σ file) [.live name, .store name (.expr e)] (declareActions held name (some v)) := by
  rw [declareActions, h.shownIn_eq]
  exact .cons .live (.cons (.store (.expr h)) .nil)

theorem State.front_of_filled (h : s'.filled b = s.filled b) (ds : List Nat) (held : Holdings) :
    s'.front b ds held = s.front b ds held := by
  rw [State.front, h]
  rfl

theorem State.front_eq (h : s'.blocks = s.blocks) (b : BlockId) (ds : List Nat) (held : Holdings) :
    s'.front b ds held = s.front b ds held :=
  front_of_filled (filled_of_get?_eq (by rw [h])) ds held

theorem State.front_addBlock (s : State) (b : BlockId) (ds : List Nat) (held : Holdings) :
    s.addBlock.front b ds held = s.front b ds held := front_of_filled (filled_addBlock s b) ds held

theorem State.front_of_empty (h : s.filled b = 0) (ds : List Nat) (held : Holdings) :
    s.front b ds held = ⟨b, 0, ds, held⟩ := by
  rw [State.front, h]

theorem State.enter_eq_front {w : Spot} (h : s.filled b = 0) (ds : List Nat) : w.enter b ds = s.front b ds w.held :=
  (front_of_empty h ds w.held).symm

end Parts

section Joins

variable {F s s' : State} {params : List Parameter} {file : FileId} {sig : Signature} {o : Outcome} {w : Spot}
  {ends part A : List BlockId} {b j : BlockId}

theorem State.Extends.close (hs : s.Sound) (ho : s.IsOpen b) (t : Terminator) : s.Extends (s.close b t) :=
  Extends.changeBlock hs ho fun _ => List.prefix_refl _

theorem extends_joined (j : BlockId) : ∀ (ends : List BlockId) {s : State}, s.Sound → s.Owns (ends ++ A) →
    s.Extends (s.joined j ends)
  | [], _, hs, _ => .refl hs
  | e :: rest, s, hs, ho => by
    have hclose : State.Yields s (e :: (rest ++ A)) (s.close e (.jump j)) (rest ++ A) := .close ho _
    exact (Extends.close hs (ho.isOpen e (.head _)) _).trans
      (extends_joined j rest (hs.changeBlock e _) hclose.owns)

theorem State.Sound.addBlock (hs : s.Sound) : s.addBlock.Sound := { hs with }

/-- From the front of a block that is joined, a walk goes on where it joins. -/
theorem path_joined (ds : List Nat) (held : Holdings) : ∀ (ends : List BlockId) {s : State},
    s.Sound → s.Owns (ends ++ A) → (s.joined j ends).Extends F → b ∈ ends →
    F.context.Path (s.front b ds held) [] ⟨j, 0, ds, held⟩
  | e :: rest, s, hs, ho, hF, hb => by
    have hclose : State.Yields s (e :: (rest ++ A)) (s.close e (.jump j)) (rest ++ A) := .close ho _
    have hs' := hs.changeBlock e fun block => { block with terminator := some (.jump j) }
    rcases List.mem_cons.mp hb with rfl | hb
    · have hadv := advance_closed (ho.isOpen b (.head _))
        ((extends_joined j rest hs' hclose.owns).trans hF) ds held
      exact .step hadv
    · rw [← State.front_of_filled (filled_close s e b (.jump j))]
      exact path_joined ds held rest hs' hclose.owns hF hb

theorem Follows.joined (h : Follows F params file o w ends s) (hh : s.Holds sig 0 (ends ++ A))
    (hF : (s.joined j ends).Extends F) (hj : s'.filled j = 0) : Follows F params file o w [j] s' := by
  refine h.goTo fun b hb rest held => ⟨j, .head _, ?_⟩
  rw [State.front_of_empty hj]
  exact path_joined rest held ends hh.sound hh.owns hF hb

theorem filled_meet (s : State) (ends : List BlockId) (b : BlockId) : (s.meet ends).2.filled b = s.filled b := by
  cases ends with
  | nil => rfl
  | cons e rest => exact (filled_joined _ _ _).trans (filled_addBlock s b)

/-- The block where ends meet is empty. -/
theorem filled_meeting (hj : j ∈ (s.meet ends).1.toList) : (s.meet ends).2.filled j = 0 := by
  cases ends with
  | nil => cases hj
  | cons e rest =>
    obtain rfl := List.mem_singleton.mp hj
    rw [filled_meet, filled_next]

/-- From where ends meet, a walk goes on in one block. -/
theorem Follows.meet (h : Follows F params file o w part s) (hsub : ∀ b ∈ part, b ∈ ends)
    (hh : s.Holds sig 0 (ends ++ A)) (hF : (s.meet ends).2.Extends F)
    (hfilled : ∀ j ∈ (s.meet ends).1.toList, s'.filled j = 0) :
    Follows F params file o w (s.meet ends).1.toList s' := by
  refine h.goTo fun b hb rest held => ?_
  cases ends with
  | nil => cases hsub b hb
  | cons e more =>
    have hnew : State.Yields s (e :: more ++ A) s.addBlock _ := .addBlock hh.owns
    have howns : s.addBlock.Owns (e :: more ++ s.blocks.next :: A) := hnew.owns.perm List.perm_middle.symm
    refine ⟨s.blocks.next, .head _, ?_⟩
    rw [← State.front_addBlock s b, State.front_of_empty (hfilled _ (.head _))]
    exact path_joined rest held (e :: more) hh.sound.addBlock howns hF (hsub b hb)

theorem State.Holds.extends_meet (h : s.Holds sig 0 (ends ++ A)) : s.Extends (s.meet ends).2 := by
  have hmeet : Moves {} sig 0 s _ (s.meet ends).2 _ := h.meet
  exact hmeet.extends h

end Joins

end BlockCompiler.Lowering
