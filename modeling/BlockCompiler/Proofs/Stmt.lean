/-
  BlockCompiler.Proofs.Stmt — lowering statements always ends, and what it does is a run.

  From a sound state with a scope in force, and into an open block, lowering a statement never
  stops at a fault: it gives the block where control goes on, or it rejects the statement with
  an error; either way it is a run (`lowerStmt_runs`, `lowerStmts_runs`, `lowerArms_runs`). The
  runs of the parts say that the blocks to be written are open and that states stay sound.
-/
import BlockCompiler.Proofs.RunEffects

namespace BlockCompiler.Lowering

open Surface (Expr TypeExpr Stmt Arm)
open TypeTable (Grows StandsFor Acyclic)
open Typing (Adds)
open State

variable {sig : Signature} {e : Expr} {v scrutinee value : Value} {fn : FunId} {ty : TypeId} {lo : Nat} {t : BlockId}
  {body : List Stmt} {s1 : State} {arms : List Arm} {heads : List ArmHead} {A : List BlockId}

/-- A part of a statement was rejected; only types were added. -/
structure Rejects (s : State) (d : Diagnostic) (s' : State) : Prop where
  typing : s' = s.withTyping s'.typing
  adds : s.typing.Adds s'.typing
  isError : d.isError = true

section

variable {cfg : Settings} {file : FileId} {params : List Parameter} {s s1 s' : State} {d : Diagnostic}

theorem Rejects.after (h1 : s1 = s.withTyping s1.typing) (ha : s.typing.Adds s1.typing) (h : Rejects s1 d s') :
    Rejects s d s' := by
  refine ⟨?_, ha.trans h.adds, h.isError⟩
  rw [h.typing, h1]
  rfl

theorem Rejects.here (hs : s.Sound) (hd : d.isError = true) : Rejects s d s := ⟨rfl, Adds.refl hs.types, hd⟩

theorem Rejects.run {x : Stmt} (h : Rejects s d s') : Run cfg file sig (.refusal x d) s s' := by
  rw [h.typing]
  exact .refused h.adds h.isError

theorem State.Sound.of_typing (hs : s.Sound) (h : s' = s.withTyping s'.typing) (ha : s.typing.Adds s'.typing) :
    s'.Sound := by
  rw [h]
  exact hs.withTyping ha

theorem Checks.sound (h : Checks cfg file params s e v s') (hs : s.Sound) : s'.Sound :=
  hs.of_typing h.typing h.adds

theorem Annotates.sound {ty : TypeExpr} {id : TypeId} (h : Annotates file s ty id s') (hs : s.Sound) : s'.Sound :=
  hs.of_typing h.typing h.adds

/-! ## Expressions and annotations in statements -/

theorem checked_lowerExpr (params : List Parameter) (hs : s.Sound) (e : Expr) :
    Judges (checked cfg file fun env => lowerExpr env e) s (Checks cfg file params s e) (Rejects s) := by
  rw [judges_checked]
  refine (lowerExpr_judges params (s.env cfg.gate file) e hs.types (hs.env cfg.gate file)).mono
    (fun v st h => ⟨rfl, h⟩) fun d st h => ⟨rfl, h.1, h.2⟩

theorem checked_resolve (hs : s.Sound) (ty : TypeExpr) :
    Judges (checked cfg file fun env => Annotation.resolve env.file ty) s (Annotates file s ty) (Rejects s) := by
  rw [judges_checked]
  have hresolve := Annotation.resolve_judges file ty (show TypeTable.Sound s.typing.types from hs.types)
  refine hresolve.traced.mono (fun id st h => ?_) fun d st h => ?_
  · exact ⟨rfl, h.2.1, h.2.2, s.typing, st, h.1, Grows.refl _⟩
  · exact ⟨rfl, h.2.1, h.2.2⟩

/-- The error for a value of another type than wanted. -/
theorem mismatch_ends (hs : s.Sound) (span : Span) (what : String) {expected found : TypeId}
    (he : expected.index < s.types.size) (hf : found.index < s.types.size) :
    Ends (mismatch file span what expected found) s fun d s' => s' = s ∧ d.isError = true := by
  simp only [mismatch, ends_bind]
  refine typeName_ends hs he fun _ => typeName_ends hs hf fun _ => ?_
  rw [ends_pure]
  exact ⟨rfl, rfl⟩

theorem letValue_judges (params : List Parameter) (hs : s.Sound) (name : String) (ty : Option TypeExpr)
    (init : Option Expr) (span : Span) :
    Judges (letValue cfg file name ty init span) s (fun r s' => Initial cfg file params s ty init r.1 r.2 s')
      (Rejects s) := by
  unfold letValue
  cases ty with
  | none =>
    cases init with
    | none =>
      simp only [judges_bind, judges_pure, judges_throw]
      exact .here hs rfl
    | some e =>
      simp only [judges_bind, judges_pure, judges_map]
      exact (checked_lowerExpr params hs e).mono (fun v s1 h => .inferred h) fun _ _ h => h
  | some ty =>
    simp only [judges_bind, judges_map]
    refine (checked_resolve hs ty).mono (fun id s1 ha => ?_) fun _ _ h => h
    have hs1 := ha.sound hs
    cases init with
    | none =>
      simp only [judges_bind, judges_pure]
      exact .declared ha
    | some e =>
      simp only [judges_bind, judges_map]
      refine (checked_lowerExpr params hs1 e).mono (fun v s2 hc => ?_) fun _ _ h => h.after ha.typing ha.adds
      split
      · rename_i hassign
        rw [judges_pure]
        exact .both ha hc hassign
      · simp only [judges_bind, judges_lift]
        have hid : id.index < s2.types.size := Nat.lt_of_lt_of_le ha.proper.1 hc.adds.grows.size_le
        refine (mismatch_ends (hc.sound hs1) _ _ hid hc.fits.lt).mono fun d s3 h => ?_
        obtain ⟨rfl, hd⟩ := h
        rw [judges_throw]
        exact (Rejects.here (hc.sound hs1) hd).after hc.typing hc.adds |>.after ha.typing ha.adds

theorem isCondition_of {ty : Ty} (h : isCondition ty = true) : ty.IsCondition := by
  unfold isCondition at h
  split at h
  · exact .bool
  · exact .int
  · exact .float
  · cases h

theorem condition_judges (params : List Parameter) (hs : s.Sound) (construct : String) (e : Expr) :
    Judges (condition cfg file construct e) s (Tests cfg file params s e) (Rejects s) := by
  simp only [condition, judges_bind]
  refine (checked_lowerExpr params hs e).mono (fun v s1 hc => ?_) fun _ _ h => h
  have hs1 := hc.sound hs
  split
  · rename_i hbad
    rw [judges_pure]
    exact ⟨hc, fun hne => absurd hbad hne⟩
  · obtain ⟨ty, hty⟩ := Interner.get?_of_lt hc.fits.lt
    rw [judges_bind, judges_lift, ends_ask]
    refine ⟨ty, Interner.get_eq_ok.mpr hty, ?_⟩
    split
    · rename_i hcond
      rw [judges_pure]
      exact ⟨hc, fun _ => ⟨ty, hty, isCondition_of hcond⟩⟩
    · rw [judges_bind, judges_lift]
      refine typeName_ends hs1 hc.fits.lt fun _ => ?_
      rw [judges_throw]
      exact (Rejects.here hs1 rfl).after hc.typing hc.adds

theorem matchedValue_judges (params : List Parameter) (hs : s.Sound) (e : Expr) :
    Judges (matchedValue cfg file e) s (fun v s' => Checks cfg file params s e v s' ∧
      (v.ty ≠ .invalid → ∃ variants, HasVariants s'.types v.ty variants)) (Rejects s) := by
  simp only [matchedValue, judges_bind]
  refine (checked_lowerExpr params hs e).mono (fun v s1 hc => ?_) fun _ _ h => h
  have hs1 := hc.sound hs
  split
  · rename_i hbad
    rw [judges_pure]
    exact ⟨hc, fun hne => absurd hbad hne⟩
  · obtain ⟨ty, hty⟩ := hs1.types.resolved hc.fits.lt
    rw [judges_bind, judges_lift, ends_ask]
    refine ⟨ty, hty, ?_⟩
    split
    · rename_i hsum
      rw [judges_pure]
      refine ⟨hc, fun _ => ?_⟩
      cases ty with
      | sum variants => exact ⟨variants, TypeTable.standsFor_of_resolved hs1.types hty (by simp)⟩
      | _ => simp [Ty.isSum] at hsum
    · rw [judges_bind, judges_lift]
      refine typeName_ends hs1 hc.fits.lt fun _ => ?_
      rw [judges_throw]
      exact (Rejects.here hs1 rfl).after hc.typing hc.adds

/-! ## Arms -/

theorem armHead_judges (hs : s.Sound) (hv : value.ty.index < s.types.size) (earlier : List ArmHead)
    (ty : TypeExpr) (span : Span) :
    Judges (armHead cfg file value earlier ty span) s (fun head s' => s' = s.withTyping s'.typing ∧
      s.typing.Adds s'.typing ∧ (∃ id, Names s'.types file value.ty ty head.variant id) ∧
      head.variant ∉ earlier.map (·.variant)) (Rejects s) := by
  simp only [armHead, judges_bind]
  refine (checked_resolve hs ty).mono (fun id s1 ha => ?_) fun _ _ h => h
  have hs1 := ha.sound hs
  have hv1 : value.ty.index < s1.types.size := Nat.lt_of_lt_of_le hv ha.adds.grows.size_le
  obtain ⟨found, hfound⟩ := hs1.types.variant? hv1 id
  rw [judges_lift, ends_ask]
  refine ⟨found, hfound, ?_⟩
  cases found with
  | none =>
    simp only [judges_bind, judges_lift]
    refine typeName_ends hs1 ha.proper.1 fun _ => typeName_ends hs1 hv1 fun _ => ?_
    rw [judges_throw]
    exact (Rejects.here hs1 rfl).after ha.typing ha.adds
  | some d =>
    obtain ⟨variants, hres, hd⟩ := TypeTable.variant?_eq_some hfound
    have hvariants : HasVariants s1.types value.ty variants :=
      TypeTable.standsFor_of_resolved hs1.types hres (by simp)
    dsimp only
    split
    · simp only [judges_bind, judges_lift]
      refine typeName_ends hs1 ha.proper.1 fun _ => ?_
      rw [judges_throw]
      exact (Rejects.here hs1 rfl).after ha.typing ha.adds
    · rename_i hnone
      rw [judges_pure]
      refine ⟨ha.typing, ha.adds, ⟨id, ⟨variants, hvariants, hd⟩, ha.resolves⟩, fun hmem => ?_⟩
      obtain ⟨head, hhead, heq⟩ := List.mem_map.mp hmem
      simpa [heq] using List.find?_eq_none.mp hnone head hhead

/-- The heads of the arms name different variants, in order, after those before them. -/
theorem armHeads_judges (hs : s.Sound) (hv : value.ty.index < s.types.size) (arms : List Arm) :
    ∀ {earlier : List ArmHead}, (earlier.map (·.variant)).Nodup →
    Judges (armHeads cfg file value earlier arms) s (fun heads s' => s' = s.withTyping s'.typing ∧
      s.typing.Adds s'.typing ∧ (heads.map (·.variant)).Nodup ∧ ∃ new, heads = earlier ++ new ∧ List.Forall₂
        (fun arm head => ∃ id, Names s'.types file value.ty arm.variant head.variant id) arms new)
      (Rejects s) := by
  induction arms generalizing s with
  | nil =>
    intro earlier hnd
    simp only [armHeads, judges_pure]
    exact ⟨rfl, Adds.refl hs.types, hnd, [], (List.append_nil _).symm, .nil⟩
  | cons arm arms ih =>
    intro earlier hnd
    simp only [armHeads, judges_bind]
    refine (armHead_judges hs hv earlier arm.variant arm.span).mono (fun head s1 h1 => ?_) fun _ _ h => h
    obtain ⟨htyping, hadds, hnames, hnew⟩ := h1
    have hs1 := hs.of_typing htyping hadds
    have hnd1 : ((earlier ++ [head]).map (·.variant)).Nodup := by
      rw [List.map_append, List.nodup_append]
      refine ⟨hnd, by simp, ?_⟩
      rintro x hx y hy rfl
      simp only [List.map_cons, List.map_nil, List.mem_singleton] at hy
      exact hnew (hy ▸ hx)
    refine (ih hs1 (Nat.lt_of_lt_of_le hv hadds.grows.size_le) hnd1).mono (fun heads s2 h2 => ?_)
      fun _ _ h => h.after htyping hadds
    obtain ⟨htyping2, hadds2, hnd2, new, rfl, hall⟩ := h2
    refine ⟨?_, hadds.trans hadds2, hnd2, head :: new, by simp, .cons ?_ hall⟩
    · rw [htyping2, htyping]
      rfl
    · obtain ⟨id, hid⟩ := hnames
      exact ⟨id, hid.grows hadds2.grows⟩

/-! ## Writing to open blocks -/

variable {b : BlockId}

theorem State.IsOpen.append (ho : s.IsOpen b) (x : BlockStmt) : (s.append b x).IsOpen b :=
  (Yields.append (Owns.single ho) (.head _) x).owns.isOpen b (.head _)

theorem State.IsOpen.addVar (ho : s.IsOpen b) (ty : TypeId) (name : String) : (s.addVar ty name).IsOpen b :=
  isOpen_of_get?_eq ho rfl

theorem ends_scrutinize (ho : s.IsOpen b) (value : Value) (Q : Value → State → Prop) :
    Ends (scrutinize value b) s Q ↔
      Q (.var s.vars.next value.ty value.span) (s.declare b value.ty "match" (some value)) := by
  have hvar := ho.addVar value.ty "match"
  simp only [scrutinize, ends_bind, ends_newVar]
  rw [ends_emit hvar, ends_emit (hvar.append _), ends_pure]
  exact Iff.rfl

theorem ends_bindPayload (ho : s.IsOpen b) (hsc : s.scopes ≠ []) {head : ArmHead}
    (hty : s.types.variantType scrutinee.ty head.variant = .ok ty) (binding : Option String)
    (Q : PUnit → State → Prop) :
    Ends (bindPayload b scrutinee head binding) s Q ↔ Q ⟨⟩ (s.withPayload b scrutinee head ty binding) := by
  cases binding with
  | none => exact ends_pure _
  | some name =>
    have hvar := ho.addVar ty name
    simp only [bindPayload, ends_bind, ends_ask, hty, Except.ok.injEq, exists_eq_left', ends_newVar]
    rw [ends_emit hvar, ends_emit (hvar.append _)]
    refine ends_bindName ?_ name _ Q
    exact hsc

theorem ends_joinAll (join : BlockId) (Q : PUnit → State → Prop) : ∀ (ends : List BlockId) {A : List BlockId}
    {s : State}, s.Owns (ends ++ A) → (Ends (joinAll join ends) s Q ↔ Q ⟨⟩ (s.joined join ends))
  | [], _, _, _ => ends_pure _
  | b :: rest, A, s, ho => by
    have hclose : Yields s (b :: (rest ++ A)) (s.close b (.jump join)) (rest ++ A) := .close ho _
    simp only [joinAll, ends_bind]
    rw [ends_terminate (ho.isOpen b (.head _)), ends_joinAll join Q rest hclose.owns]
    rfl

theorem ends_joinEnds {ends : List BlockId} (ho : s.Owns (ends ++ A)) (Q : Option BlockId → State → Prop) :
    Ends (joinEnds ends) s Q ↔ Q (s.meet ends).1 (s.meet ends).2 := by
  cases ends with
  | nil => exact ends_pure _
  | cons e ends =>
    have hnew : Yields s (e :: ends ++ A) s.addBlock (s.blocks.next :: (e :: ends ++ A)) := .addBlock ho
    have howns : s.addBlock.Owns (e :: ends ++ s.blocks.next :: A) := hnew.owns.perm List.perm_middle.symm
    simp only [joinEnds, ends_bind, ends_newBlock]
    rw [ends_joinAll _ _ _ howns, ends_pure]
    rfl

/-- A step in a scope of its own. -/
theorem ends_inScope {α : Type} {act : LowerM α} {Q : α → State → Prop}
    (h : Ends act s.enter fun a s' => s'.scopes ≠ [] ∧ Q a s'.leave) : Ends (inScope act) s Q := by
  simp only [inScope, ends_bind, ends_pushScope]
  refine h.mono fun a s1 h1 => ?_
  rw [ends_popScope h1.1, ends_pure]
  exact h1.2

/-! ## Simple statements -/

variable {sig : Signature}

theorem lowerLet_runs (hs : s.Sound) (hsc : s.scopes ≠ []) (ho : s.IsOpen b) (name : String) (ty : Option TypeExpr)
    (init : Option Expr) (span : Span) : Judges (lowerLet cfg file name ty init span b) s
      (fun next s' => Run cfg file sig (.stmt (.letVar name ty init span) b next) s s')
      (fun d s' => Run cfg file sig (.refusal (.letVar name ty init span) d) s s') := by
  simp only [lowerLet, judges_bind, judges_attempt]
  refine (letValue_judges sig.params hs name ty init span).mono (fun r s1 hi => ?_) fun d s1 hd => ?_
  · obtain ⟨id, value⟩ := r
    have hscopes : s1.scopes ≠ [] := by rw [hi.typing]; exact hsc
    have hopen : s1.IsOpen b := ho.of_typing hi.typing
    have hvar := hopen.addVar id name
    simp only [judges_lift, ends_newVar]
    rw [ends_emit hvar]
    cases value with
    | none =>
      simp only [judges_bind, judges_pure, judges_lift]
      refine (ends_bindName ?_ name _ _).mpr (Run.letVar hi)
      exact hscopes
    | some e =>
      simp only [judges_bind, judges_pure, judges_lift]
      rw [ends_emit (hvar.append _)]
      refine (ends_bindName ?_ name _ _).mpr (Run.letVar hi)
      exact hscopes
  · have hscopes : s1.scopes ≠ [] := by rw [hd.typing]; exact hsc
    simp only [poison, judges_lift, ends_bind, ends_newVar, judges_throw]
    refine (ends_bindName ?_ name _ _).mpr ?_
    · exact hscopes
    · rw [hd.typing]
      exact .refusedLet hd.adds hd.isError

theorem lowerAssign_runs (hs : s.Sound) (ho : s.IsOpen b) (name : String) (nameSpan : Span) (e : Expr) (span : Span) :
    Judges (lowerAssign cfg file name nameSpan e b) s
      (fun next s' => Run cfg file sig (.stmt (.assign name nameSpan e span) b next) s s')
      (fun d s' => Run cfg file sig (.refusal (.assign name nameSpan e span) d) s s') := by
  simp only [lowerAssign, judges_bind, judges_lift, ends_lookup?]
  cases hl : Scope.lookup? s.scopes name with
  | none =>
    simp only [judges_throw]
    exact (Rejects.here hs rfl).run
  | some v =>
    obtain ⟨scope, hscope, hmem⟩ := mem_of_lookup? hl
    obtain ⟨var, hvar, -⟩ := hs.scopes scope hscope _ hmem
    simp only [judges_bind]
    refine (checked_lowerExpr sig.params hs e).mono (fun value s1 hc => ?_) fun _ _ h => h.run
    have hs1 := hc.sound hs
    have hvar1 : s1.vars.get? v = some var := by rw [hc.typing]; exact hvar
    simp only [judges_lift, ends_ask, Arena.get_eq_ok, hvar1, Option.some.injEq, exists_eq_left']
    split
    · rename_i hassign
      simp only [judges_bind, judges_lift, judges_pure]
      rw [ends_emit (ho.of_typing hc.typing)]
      exact .assign hl hc hvar1 hassign
    · simp only [judges_bind, judges_lift]
      refine (mismatch_ends hs1 _ _ (hs1.vars v var hvar1) hc.fits.lt).mono fun d s2 h => ?_
      obtain ⟨rfl, hd⟩ := h
      rw [judges_throw]
      exact Rejects.run (.after hc.typing hc.adds (.here hs1 hd))

theorem lowerReturn_runs (hs : s.Sound) (ho : s.IsOpen b) {f : Function} (hf : s.funs.get? fn = some f)
    (e : Option Expr) (span : Span) :
    Judges (lowerReturn cfg file fn e span b) s
      (fun next s' => Run cfg file f.signature (.stmt (.ret e span) b next) s s')
      (fun d s' => Run cfg file f.signature (.refusal (.ret e span) d) s s') := by
  have hresult : f.signature.result.index < s.types.size :=
    (hs.signatures fn f hf f.signature.result (.head _)).1
  simp only [lowerReturn, judges_bind, judges_lift, ends_ask, Arena.get_eq_ok, hf, Option.some.injEq, exists_eq_left']
  have hfinish : ∀ value s1, Returns cfg file f.signature.params span s e value s1 → s1.Sound →
      Judges (if assignable f.signature.result value.ty then do
          terminate b (.ret value)
          return none
        else do throw (← mismatch file value.span "return type" f.signature.result value.ty) :
          StmtM (Option BlockId)) s1
        (fun next s' => Run cfg file f.signature (.stmt (.ret e span) b next) s s')
        (fun d s' => Run cfg file f.signature (.refusal (.ret e span) d) s s') := by
    intro value s1 hr hs1
    have hadds := hr.adds hs
    split
    · rename_i hassign
      simp only [judges_bind, judges_lift, judges_pure]
      rw [ends_terminate (ho.of_typing hr.typing)]
      exact .ret hr hassign
    · simp only [judges_bind, judges_lift]
      refine (mismatch_ends hs1 _ _ (Nat.lt_of_lt_of_le hresult hadds.grows.size_le) (hr.fits hs).lt).mono
        fun d s2 h => ?_
      obtain ⟨rfl, hd⟩ := h
      rw [judges_throw]
      exact (Rejects.after hr.typing hadds (Rejects.here hs1 hd)).run
  cases e with
  | none => exact hfinish _ s .unit hs
  | some e =>
    simp only [judges_bind]
    refine (checked_lowerExpr f.signature.params hs e).mono (fun value s1 hc => ?_) fun _ _ h => h.run
    exact hfinish value s1 (.value hc) (hc.sound hs)

theorem lowerEffect_runs (hs : s.Sound) (ho : s.IsOpen b) (e : Expr) (span : Span) :
    Judges (lowerEffect cfg file e b) s (fun next s' => Run cfg file sig (.stmt (.expr e span) b next) s s')
      (fun d s' => Run cfg file sig (.refusal (.expr e span) d) s s') := by
  simp only [lowerEffect, judges_bind]
  refine (checked_lowerExpr sig.params hs e).mono (fun value s1 hc => ?_) fun _ _ h => h.run
  have hopen : s1.IsOpen b := ho.of_typing hc.typing
  have hvar := hopen.addVar value.ty "_"
  simp only [judges_lift, ends_newVar, judges_pure]
  rw [ends_emit hvar, ends_emit (hvar.append _)]
  exact .effect hc

end

/-! ## Statements -/

section

variable {s s' : State} {B : List BlockId}

theorem State.Declares.extends (h : s.Declares fn sig) (he : s.Extends s') : s'.Declares fn sig := by
  unfold Declares
  rw [he.funs]
  exact h

theorem State.Declares.result_ne (h : s.Declares fn sig) (hs : s.Sound) : sig.result ≠ .invalid := by
  obtain ⟨f, hf, rfl⟩ := h
  exact (hs.signatures fn f hf f.signature.result (.head _)).2

/-- What lowering a statement needs: a sound state, a scope, and the function around it. -/
structure State.Ready (s : State) (fn : FunId) (sig : Signature) : Prop where
  sound : s.Sound
  inScope : s.scopes ≠ []
  declares : s.Declares fn sig

variable {cfg : Settings} {file : FileId} {fn : FunId} {sig : Signature}

theorem State.Ready.holds (h : s.Ready fn sig) (ho : s.Owns A) : s.Holds sig 0 A :=
  ⟨h.sound, h.declares.result_ne h.sound, Nat.zero_le _, ho, fun _ _ => Nat.zero_le _⟩

theorem State.Ready.after (h : s.Ready fn sig) (hp : Moves cfg sig 0 s A s' B) (ho : s.Owns A) (hsc : s'.scopes ≠ [])
    : s'.Ready fn sig :=
  ⟨(hp.holds (h.holds ho)).sound, hsc, h.declares.extends (hp.extends (h.holds ho))⟩

theorem State.Ready.enter (h : s.Ready fn sig) : s.enter.Ready fn sig :=
  ⟨h.sound.enter, by simp [State.enter], h.declares⟩

theorem lowerStmts_cons (x : Stmt) (rest : List Stmt) (current : Option BlockId)
    (hstmt : ∀ b, current = some b → Judges (lowerStmt cfg file fn x b) s
      (fun next s' => Run cfg file sig (.stmt x b next) s s') (fun d s' => Run cfg file sig (.refusal x d) s s'))
    (hrest : ∀ {next : Option BlockId} {s1 : State}, s1.Ready fn sig → s1.Owns next.toList →
      Ends (lowerStmts cfg file fn rest next) s1 fun last s' => Run cfg file sig (.stmts rest next last) s1 s')
    (hr : s.Ready fn sig) (ho : s.Owns current.toList) :
    Ends (lowerStmts cfg file fn (x :: rest) current) s fun last s' =>
      Run cfg file sig (.stmts (x :: rest) current last) s s' := by
  simp only [lowerStmts, ends_bind, ends_limitReached]
  split
  · rename_i hlimit
    rw [ends_pure]
    exact .limit (of_decide_eq_true hlimit)
  · rename_i hlimit
    replace hlimit : ¬ s.AtLimit cfg := fun h => hlimit (decide_eq_true h)
    cases current with
    | none =>
      simp only [ends_bind, ends_report, ends_pure]
      exact .unreachable hlimit
    | some b =>
      simp only [ends_bind]
      refine Ends.mono (hstmt b rfl).traced fun r s1 hr1 => ?_
      cases r with
      | error d =>
        obtain ⟨hrun1, hx⟩ := hr1
        have hrejected : RejectedWith cfg file sig x d := ⟨fn, b, s, s1, hr.sound, hr.declares, hrun1⟩
        have hmoves : Moves cfg sig 0 s [b] (s1.reported cfg d) (some b).toList := hx.moves _ ho
        simp only [ends_bind, ends_report]
        refine (hrest (hr.after hmoves ho ?_) hmoves.owns).mono fun last s2 hrun =>
          .skip hlimit hrejected hx hrun
        exact SameDepth.ne_nil hx.keeps hr.inScope
      | ok next =>
        obtain ⟨-, hx⟩ : _ ∧ Run cfg file sig (.stmt x b next) s s1 := hr1
        have hmoves : Moves cfg sig 0 s [b] s1 next.toList := hx.moves (hr.holds ho)
        refine (hrest (hr.after hmoves ho ?_) hmoves.owns).mono fun last s2 hrun => .step hlimit hx hrun
        exact SameDepth.ne_nil hx.keeps hr.inScope

/-! ### Statements made of statements -/

/-- Statements in a scope of their own are a run, and what follows may rely on it. -/
theorem inScope_runs {D : List BlockId} {Q : Option BlockId → State → Prop} (hr : s.Ready fn sig)
    (ho : s.Owns ([t] ++ D))
    (hbody : s.enter.Ready fn sig → s.enter.Owns (some t).toList → Ends (lowerStmts cfg file fn body (some t)) s.enter
      fun last s' => Run cfg file sig (.stmts body (some t) last) s.enter s')
    (hQ : ∀ last s', Run cfg file sig (.stmts body (some t) last) s.enter s' → s'.leave.Ready fn sig →
      Moves cfg sig 0 s ([t] ++ D) s'.leave (last.toList ++ D) → Q last s'.leave) :
    Ends (inScope (lowerStmts cfg file fn body (some t))) s Q := by
  have hopen := ho.isOpen t (by simp)
  refine ends_inScope ((hbody hr.enter (Owns.single (isOpen_of_get?_eq hopen rfl))).mono fun last s' hrun => ⟨?_, ?_⟩)
  · exact SameDepth.ne_nil hrun.keeps hr.enter.inScope
  · have hmoves : Moves cfg sig 0 s _ _ _ := Task.Moves.scoped hrun.moves (hr.holds ho)
    have hscopes : s'.leave.scopes = s.scopes := SameDepth.leave_eq hrun.keeps
    exact hQ last s' hrun (hr.after hmoves ho (by rw [hscopes]; exact hr.inScope)) hmoves

theorem Names.variantType {t : TypeTable} {sum : TypeId} {written : TypeExpr} {d : VariantId}
    (h : Names t file sum written d ty) : t.variantType sum d = .ok ty := by
  obtain ⟨⟨variants, ⟨id, hst, hsum⟩, hd⟩, -⟩ := h
  exact TypeTable.variantType_of_resolved (hst.resolved hsum) hd

/-- The heads of the arms of a match on a sum. -/
theorem armHeads_matches (hs : s.Sound) (hc : Checks cfg file sig.params s e v s1) (hvalid : v.ty ≠ .invalid)
    (hsum : ∃ variants, HasVariants s1.types v.ty variants) (arms : List Arm) :
    Judges (armHeads cfg file v [] arms) s1 (fun heads s' => Matches cfg file sig.params s e v arms heads s')
      (Rejects s) := by
  refine (armHeads_judges (hc.sound hs) hc.fits.lt arms (by simp)).mono (fun heads s2 h => ?_) fun _ _ h =>
    h.after hc.typing hc.adds
  obtain ⟨htyping, hadds, hnd, new, rfl, hall⟩ := h
  obtain ⟨variants, hv⟩ := hsum
  refine ⟨⟨?_, hc.lowered.later hadds⟩, hvalid, ⟨variants, hv.grows hadds.grows⟩, hall, hnd⟩
  rw [htyping, hc.typing]
  rfl

theorem State.withPayload_scopes_ne (s : State) (b : BlockId) (scrutinee : Value) (head : ArmHead) (ty : TypeId)
    (binding : Option String) : (s.enter.withPayload b scrutinee head ty binding).scopes ≠ [] := by
  cases binding with
  | none => exact List.cons_ne_nil _ _
  | some name => exact (SameDepth.bind _ _ _).ne_nil (by rw [scopes_declare]; exact List.cons_ne_nil _ _)

/-- What lowering the arms of a match needs. -/
structure State.Selects (s : State) (fn : FunId) (sig : Signature) (file : FileId) (scrutinee : Value)
    (arms : List Arm) (heads : List ArmHead) : Prop where
  ready : s.Ready fn sig
  fits : Fits sig.params s scrutinee.ty (some scrutinee)
  named : List.Forall₂ (fun arm head => ∃ ty, Names s.types file scrutinee.ty arm.variant head.variant ty)
    arms heads

theorem State.Selects.after (h : s.Selects fn sig file scrutinee arms heads) (hp : Moves cfg sig 0 s A s' B)
    (ho : s.Owns A) (hsc : s'.scopes = s.scopes) : s'.Selects fn sig file scrutinee arms heads := by
  have hext := hp.extends (h.ready.holds ho)
  refine ⟨h.ready.after hp ho (by rw [hsc]; exact h.ready.inScope), h.fits.extends hext fun _ hmem => by rwa [hsc],
    h.named.imp ?_⟩
  rintro arm head ⟨ty, hn⟩
  exact ⟨ty, hn.grows hext.types.grows⟩

theorem Matches.selects {b : BlockId} (h : Matches cfg file sig.params s e v arms heads s1) (hr : s.Ready fn sig)
    (ho : s.Owns [b]) :
    (s1.declare b v.ty "match" (some v)).Selects fn sig file (.var s1.vars.next v.ty v.span) arms heads := by
  refine ⟨hr.after (h.moves_declare (hr.holds ho)) ho ?_, h.fits_scrutinee, h.named⟩
  rw [scopes_declare, h.typing]
  exact hr.inScope

section

variable (cfg : Settings) (file : FileId) (fn : FunId) (sig : Signature)

mutual

theorem lowerStmt_runs : ∀ (x : Stmt) {b : BlockId}
    {s : State}, s.Ready fn sig → s.Owns [b] → Judges (lowerStmt cfg file fn x b) s
      (fun next s' => Run cfg file sig (.stmt x b next) s s') (fun d s' => Run cfg file sig (.refusal x d) s s')
  | .letVar name ty init span, b, s, hr, ho => by
    simp only [lowerStmt]
    exact lowerLet_runs hr.sound hr.inScope (ho.isOpen b (by simp)) name ty init span
  | .assign name nameSpan value span, b, s, hr, ho => by
    simp only [lowerStmt]
    exact lowerAssign_runs hr.sound (ho.isOpen b (by simp)) name nameSpan value span
  | .ret value span, b, s, hr, ho => by
    obtain ⟨f, hf, rfl⟩ := hr.declares
    simp only [lowerStmt]
    exact lowerReturn_runs hr.sound (ho.isOpen b (by simp)) hf value span
  | .expr value span, b, s, hr, ho => by
    simp only [lowerStmt]
    exact lowerEffect_runs hr.sound (ho.isOpen b (by simp)) value span
  | .block body span, b, s, hr, ho => by
    simp only [lowerStmt, judges_lift]
    exact inScope_runs (D := []) hr ho (lowerStmts_runs body) fun last s' hrun _ _ => .block hrun
  | .ifElse c thenBody elseBody span, b, s, hr, ho => by
    rcases elseBody with _ | elseBody
    all_goals
      simp only [lowerStmt, judges_bind]
      refine (condition_judges sig.params hr.sound "If" c).mono (fun v s1 ht => ?_) fun _ _ h => h.run
      have hopen : s1.IsOpen b := (ho.isOpen b (by simp)).of_typing ht.typing
      have hmoves := ht.moves_branch (hr.holds ho) rfl rfl
      have hsc : s1.scopes ≠ [] := by rw [ht.typing]; exact hr.inScope
      simp only [judges_lift, judges_pure, ends_newBlock]
      rw [ends_terminate hopen.addBlock.addBlock]
      refine inScope_runs (D := [_]) (hr.after hmoves ho hsc) hmoves.owns
        (lowerStmts_runs thenBody) fun thenEnd s3 hthen hr3 h3 => ?_
    · rw [ends_joinAll _ _ _ h3.owns]
      exact .ifThen ht rfl rfl rfl hthen
    · have howns3 := h3.owns.perm List.perm_append_comm
      refine inScope_runs hr3 howns3 (lowerStmts_runs elseBody) fun elseEnd s4 helse _ h4 => ?_
      have howns4 : s4.leave.Owns (thenEnd.toList ++ elseEnd.toList ++ []) := by
        rw [List.append_nil]
        exact h4.owns.perm List.perm_append_comm
      rw [ends_joinEnds howns4]
      exact .ifElse ht rfl rfl rfl hthen helse
  | .whileLoop c body span, b, s, hr, ho => by
    simp only [lowerStmt, judges_bind]
    refine (condition_judges sig.params hr.sound "While" c).mono (fun v s1 ht => ?_) fun _ _ h => h.run
    have hopen : s1.IsOpen b := (ho.isOpen b (by simp)).of_typing ht.typing
    have hhead := ht.moves_head (hr.holds ho) rfl rfl rfl
    have hmoves := ht.moves_loop (hr.holds ho) rfl rfl rfl
    have hsc : s1.scopes ≠ [] := by rw [ht.typing]; exact hr.inScope
    simp only [judges_lift, judges_pure, ends_newBlock]
    rw [ends_terminate hopen.addBlock.addBlock.addBlock, ends_terminate (hhead.owns.isOpen _ (.head _))]
    refine inScope_runs (D := [_]) (hr.after hmoves ho hsc) hmoves.owns
      (lowerStmts_runs body) fun last s3 hrun _ h3 => ?_
    rw [ends_joinAll _ _ _ h3.owns]
    exact .whileLoop ht rfl rfl rfl rfl hrun
  | .matchOn e arms fallback span, b, s, hr, ho => by
    rcases fallback with _ | fallback
    all_goals
      simp only [lowerStmt, judges_bind]
      refine (matchedValue_judges sig.params hr.sound e).mono (fun v s0 hv => ?_) fun _ _ h => h.run
      split
      · rename_i hbad
        rw [judges_pure]
        exact .matchFailed hv.1 hbad
      rename_i hvalid
      simp only [judges_bind]
      refine (armHeads_matches hr.sound hv.1 hvalid (hv.2 hvalid) arms).mono (fun heads s1 hm => ?_) fun _ _ h => h.run
      have hselects := hm.selects hr ho
      have howns := (hm.moves_declare (hr.holds ho)).owns
      simp only [judges_lift, judges_pure]
      rw [ends_scrutinize ((ho.isOpen b (by simp)).of_typing hm.typing)]
    · rw [ends_newBlock]
      have hnew : Moves cfg sig 0 (s1.declare b v.ty "match" (some v)) [b] _ _ := .addBlock howns
      have hselects1 := hselects.after hnew howns rfl
      refine (lowerArms_runs _ arms hselects1).mono fun r s3 hrun => ?_
      obtain ⟨harms, -⟩ := hrun.moves (hselects1.ready.holds (owns_nil _)) hselects1.fits
      have howns3 := (harms.frame (A := []) hnew.owns).owns
      rw [ends_joinAll _ _ _ howns3, ends_terminate ((Yields.joined _ r.2 howns3).owns.isOpen b (by simp))]
      exact .matchOn hm rfl rfl rfl hrun
    · refine (lowerArms_runs _ arms hselects).mono fun r s3 hrun => ?_
      obtain ⟨harms, -⟩ := hrun.moves (hselects.ready.holds (owns_nil _)) hselects.fits
      have hframe := harms.frame (A := []) howns
      have hnew := hframe.trans (.addBlock hframe.owns)
      have hready : s3.addBlock.Ready fn sig := (hselects.after hnew howns hrun.keeps).ready
      rw [ends_newBlock]
      refine inScope_runs hready hnew.owns (lowerStmts_runs fallback)
        fun last s4 hlast _ h4 => ?_
      have howns4 : s4.leave.Owns ((r.2 ++ last.toList) ++ [b]) :=
        h4.owns.perm (by simpa using List.perm_append_comm_assoc last.toList r.2 [b])
      have hmeet := Yields.meet (r.2 ++ last.toList) howns4
      rw [ends_joinEnds howns4, ends_terminate (hmeet.owns.isOpen b (by simp))]
      exact .matchElse hm rfl rfl hrun rfl hlast

theorem lowerStmts_runs : ∀ (body : List Stmt)
    {current : Option BlockId} {s : State}, s.Ready fn sig → s.Owns current.toList →
    Ends (lowerStmts cfg file fn body current) s fun last s' => Run cfg file sig (.stmts body current last) s s'
  | [], current, s, hr, ho => by
    simp only [lowerStmts, ends_pure]
    exact .done
  | x :: rest, current, s, hr, ho => by
    refine lowerStmts_cons x rest current (fun b hb => ?_) (lowerStmts_runs rest) hr ho
    subst hb
    exact lowerStmt_runs x hr ho

theorem lowerArms_runs (scrutinee : Value) :
    ∀ (arms : List Arm) {heads : List ArmHead} {s : State}, s.Selects fn sig file scrutinee arms heads →
    Ends (lowerArms cfg file fn scrutinee arms heads) s fun r s' =>
      Run cfg file sig (.arms scrutinee arms heads r.1 r.2) s s'
  | [], heads, s, h => by
    obtain rfl : heads = [] := by simpa using h.named
    simp only [lowerArms, ends_pure]
    exact .noArms
  | ⟨written, binding, body, span⟩ :: arms, heads, s, h => by
    obtain ⟨head, heads, ⟨ty, hn⟩, hrest, rfl⟩ := List.forall₂_cons_left_iff.mp h.named
    replace hn : Names s.types file scrutinee.ty written head.variant ty := hn
    have hpayload : ∀ binding, Moves cfg sig 0 s [] _ _ :=
      (h.ready.holds (owns_nil s)).payload rfl h.fits hn
    have hready : (s.addBlock.enter.withPayload s.blocks.next scrutinee head ty binding).Ready fn sig :=
      h.ready.after (hpayload binding) (owns_nil s) (withPayload_scopes_ne _ _ _ _ _ _)
    have hvariant : s.types.variantType scrutinee.ty head.variant = .ok ty :=
      hn.variantType
    simp only [lowerArms, ends_bind, ends_newBlock, ends_pure]
    refine ends_inScope ?_
    simp only [ends_bind]
    have hopen := (hpayload none).owns.isOpen _ (.head _)
    refine (ends_bindPayload hopen (withPayload_scopes_ne _ _ _ _ _ none) hvariant binding _).mpr ?_
    refine inScope_runs (D := []) hready (hpayload binding).owns (lowerStmts_runs body)
      fun last s1 hrun hr1 h1 => ⟨hr1.inScope, ?_⟩
    have harm := ((hpayload binding).trans h1).trans (.single .leave h1.owns rfl)
    have hscopes : s1.leave.leave.scopes = s.scopes := SameDepth.leave_arm hrun.keeps
    have hselects : s.Selects fn sig file scrutinee arms heads := ⟨h.ready, h.fits, hrest⟩
    refine (lowerArms_runs scrutinee arms
      (hselects.after harm (owns_nil s) hscopes)).mono fun r s2 hrun2 => ?_
    exact .arm rfl hn hrun hrun2

end

end

end

end BlockCompiler.Lowering
