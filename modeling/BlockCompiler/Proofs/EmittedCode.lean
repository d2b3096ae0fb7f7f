/-
  BlockCompiler.Proofs.EmittedCode — typed values have code, which is closed and typed.

  Each step that makes code for a value leaves an orderly frame and gives an operand that is
  known there, with the spelling of the value's type. None of them stops at a fault: the rules of
  operands and conversions name only what there are instructions for.

  (1) Operators.
  (2) Casts and sums.
  (3) Values, by induction on how they are typed (`emits_emitValue`). An address is a pointer to
      the spelling of the type.
  (4) Statements and the exits of blocks.
-/
import BlockCompiler.Proofs.Frames
import BlockCompiler.Proofs.Reachable

namespace BlockCompiler.Target

open Interner (get?_of_lt get_eq_ok)
open TypeTable (StandsFor)
open FunFrame Setup

variable {K : Setup} {prior R : List Nat} {f : FunFrame} {ty : CodeType} {lhs rhs value : Operand} {r w : Nat}
  {rhsTy source operandTy target : TypeId} {t : Ty} {signed : Bool} {op : Operator}

/-! ## (1) Operators -/

theorem knows_int (value : Int) (w : Nat) : K.Knows f (.int value) (.int w) := .of_has fun _ => .int rfl

section

variable (hf : K.Orderly prior f (r :: R)) (hl : K.Knows f lhs ty) (hr : K.Knows f rhs ty) (hty : K.Declares ty)
include hf hl hr hty

theorem emits_compare {op : BinaryOp} {widen : ConvertOp} (hc : op.compares = true)
    (hop : op.Takes ty) (hw : K.strict → widen.Between (.int 1) ty) :
    Emits K prior R (compare (.temp r) op widen ty lhs rhs) f fun o f' => K.Knows f' o ty := by
  unfold compare
  refine emits_newTemp hf fun n f1 hle1 hf1 => ?_
  refine Emits.bind (emits_define hf1 rfl (accepts_binary (hl.before hle1) (hr.before hle1) hty hop) (T := .int 1)
    fun _ => ⟨_, rfl, by rw [hc]; rfl⟩) fun _ f2 _ hf2 hflag => ?_
  exact emits_finish hf2 rfl (accepts_convert hflag (K.declares_int 1) hty hw) fun _ => ⟨_, rfl, rfl⟩

theorem emits_arithmetic {family : OperandFamily} {op : Option BinaryOp}
    (hop : ∃ b, op = some b ∧ b.Takes ty ∧ b.compares = false) :
    Emits K prior R (arithmetic family (.temp r) op ty lhs rhs) f fun o f' => K.Knows f' o ty := by
  obtain ⟨b, rfl, htakes, hc⟩ := hop
  exact emits_finish hf rfl (accepts_binary hl hr hty htakes) fun _ => ⟨_, rfl, by rw [hc]; rfl⟩

end

theorem emits_intBinary (hw : K.strict → 1 < w) (signed : Bool)
    (hop : op ∈ [.eq, .greater, .greaterEq, .less, .lessEq, .star, .div, .add, .sub, .shiftLeft, .shiftRight])
    (hf : K.Orderly prior f (r :: R)) (hl : K.Knows f lhs (.int w)) (hr : K.Knows f rhs (.int w)) :
    Emits K prior R (intBinary (.temp r) signed op (.int w) lhs rhs) f fun o f' => K.Knows f' o (.int w) := by
  have hty := K.declares_int w
  unfold intBinary
  split
  · exact emits_compare hf hl hr hty rfl (.inl rfl) fun hstrict => .zext (hw hstrict)
  · rename_i hnone
    refine emits_arithmetic hf hl hr hty ?_
    revert hop hnone
    cases op <;> cases signed <;> simp [intPredicate?, intOp?, BinaryOp.Takes, CodeType.isInt, BinaryOp.compares]

theorem emits_floatBinary (hfloat : ty.isFloat = true) (hty : K.Declares ty)
    (hop : op ∈ [.eq, .greater, .greaterEq, .less, .lessEq, .star, .div, .add, .sub])
    (hf : K.Orderly prior f (r :: R)) (hl : K.Knows f lhs ty) (hr : K.Knows f rhs ty) :
    Emits K prior R (floatBinary (.temp r) op ty lhs rhs) f fun o f' => K.Knows f' o ty := by
  unfold floatBinary
  split
  · exact emits_compare hf hl hr hty rfl hfloat fun _ => .uitofp hfloat
  · rename_i hnone
    refine emits_arithmetic hf hl hr hty ?_
    revert hop hnone
    cases op <;> simp [floatPredicate?, floatOp?, BinaryOp.Takes, hfloat, BinaryOp.compares]

variable (hK : K.Sound)
include hK

/-- An integer brought to another width. -/
theorem emits_resize {v : TypeId} {goal : Nat} (hf : K.Orderly prior f R) (hst : StandsFor K.table source v)
    (hint : K.table.get? v = some (.int signed w)) (hv : K.Knows f value (K.code source)) :
    Emits K prior R (resize K.src value source (.int goal)) f fun o f' => K.Knows f' o (.int goal) := by
  have hp := hst.proper hK.sound hint (by simp)
  obtain ⟨width, hcode⟩ := exists_code_int hK hst hint
  unfold resize
  refine emits_spell hK hf hp ?_
  rw [hcode] at hv ⊢
  refine emits_ofExcept rfl (emits_ofExcept rfl ?_)
  have finish : ∀ op : ConvertOp, op.Between (.int width) (.int goal) → Emits K prior R (do
      let result ← newTemp
      emit (.convert result op (.int width) value (.int goal))
      return result) f fun o f' => K.Knows f' o (.int goal) := by
    intro op hop
    refine emits_newTemp hf fun n f1 hle1 hf1 => ?_
    exact emits_finish hf1 rfl (accepts_convert (hv.before hle1) (K.declares_int _) (K.declares_int _) fun _ => hop)
      fun _ => ⟨_, rfl, rfl⟩
  split
  · rename_i heq
    exact emits_pure hf (heq ▸ hv)
  · split
    · rename_i hlt
      have hsigned : isSigned K.table source = .ok signed := by
        unfold isSigned
        rw [hst.resolved hint]
        rfl
      refine emits_ask hsigned ?_
      rw [pure_bind]
      refine finish _ ?_
      split
      · exact .sext hlt
      · exact .zext hlt
    · rw [pure_bind]
      exact finish _ (.trunc (by omega))

/-- An integer operand as a 64-bit number. -/
theorem emits_index (hf : K.Orderly prior f R) (hrhs : K.table.get? rhsTy = some (.int signed w))
    (hr : K.Knows f rhs (K.code rhsTy)) :
    Emits K prior R (resize K.src rhs rhsTy (.int 64)) f fun o f' => K.Knows f' o (.int 64) :=
  emits_resize hK hf (.itself hrhs rfl) hrhs hr

theorem emits_pointerStep {pointee : TypeId} (back : Bool) (hf : K.Orderly prior f (r :: R))
    (hp : K.table.Proper pointee) (hl : K.Knows f lhs (K.code pointee).ptr)
    (hrhs : K.table.get? rhsTy = some (.int signed w)) (hr : K.Knows f rhs (K.code rhsTy)) :
    Emits K prior R (pointerStep K.src (.temp r) pointee back (K.code pointee).ptr lhs rhs rhsTy) f
      fun o f' => K.Knows f' o (K.code pointee).ptr := by
  unfold pointerStep
  refine (emits_index hK hf hrhs hr).bind fun index f1 hle1 hf1 hindex => ?_
  have finish : ∀ f2 index, f1.Before f2 → K.Orderly prior f2 (r :: R) → K.Knows f2 index (.int 64) →
      Emits K prior R (do
        let element ← spell K.src pointee
        emit (.offset (.temp r) element (K.code pointee).ptr lhs index)
        return .temp r) f2 fun o f' => K.Knows f' o (K.code pointee).ptr := by
    intro f2 index hle2 hf2 hindex
    refine emits_spell hK hf2 hp ?_
    have hlhs := hl.before (hle1.trans hle2)
    have hty : K.Declares (K.code pointee) := declares_code hK hp
    have hptr : K.Declares (K.code pointee).ptr := hty
    refine emits_finish hf2 rfl ?_ fun _ => ⟨_, rfl, rfl⟩
    exact accepts_of (by simp [Instr.uses, hlhs, hindex]) (by simp [Instr.types, hty, hptr]) fun _ => rfl
  split
  · refine emits_newTemp hf1 fun n f2 hle2 hf2 => ?_
    refine Emits.bind (emits_define hf2 rfl (accepts_binary (knows_int 0 64) (hindex.before hle2)
      (K.declares_int 64) (show BinaryOp.Takes .sub (.int 64) from rfl)) (T := .int 64)
      fun _ => ⟨_, rfl, rfl⟩) fun _ f3 hle3 hf3 hneg => ?_
    rw [pure_bind]
    exact finish f3 _ (hle2.trans hle3) hf3 hneg
  · rw [pure_bind]
    exact finish f1 index (.refl f1) hf1 hindex

theorem emits_pointerEq (hf : K.Orderly prior f (r :: R)) (hty : K.Declares ty) (hptr : ty.isPointer = true)
    (hl : K.Knows f lhs ty) (hp : K.table.Proper rhsTy) (hrptr : (K.code rhsTy).isPointer = true)
    (hr : K.Knows f rhs (K.code rhsTy)) :
    Emits K prior R (pointerEq K.src (.temp r) ty lhs rhs rhsTy) f fun o f' => K.Knows f' o (.int 1) := by
  unfold pointerEq
  refine emits_spell hK hf hp ?_
  have finish : ∀ f1 rhs, f.Before f1 → K.Orderly prior f1 (r :: R) → K.Knows f1 rhs ty → Emits K prior R (do
      emit (.binary (.temp r) (.icmp .eq) ty lhs rhs)
      return .temp r) f1 fun o f' => K.Knows f' o (.int 1) := by
    intro f1 rhs hle1 hf1 hrhs
    have htakes : BinaryOp.Takes (.icmp .eq) ty := .inr hptr
    exact emits_finish hf1 rfl (accepts_binary (hl.before hle1) hrhs hty htakes) fun _ => ⟨_, rfl, rfl⟩
  split
  · rename_i htext
    rw [pure_bind]
    exact finish f rhs (.refl f) hf (hr.of_text fun _ => htext)
  · refine emits_newTemp hf fun n f1 hle1 hf1 => ?_
    refine Emits.bind (emits_define hf1 rfl (accepts_convert (hr.before hle1) (declares_code hK hp) hty
      fun _ => .bitcast hrptr hptr) (T := ty) fun _ => ⟨_, rfl, rfl⟩) fun _ f2 hle2 hf2 hcast => ?_
    rw [pure_bind]
    exact finish f2 _ (hle1.trans hle2) hf2 hcast

/-- An address or an integer as a 64-bit number. -/
theorem emits_number {k : Operand → EmitM Operand} {S : List Nat} {Q : Operand → FunFrame → Prop}
    (hf : K.Orderly prior f R) (hrhs : K.table.get? rhsTy = some t) (hshape : t.isPtr = true ∨ t.isInt = true)
    (hr : K.Knows f rhs (K.code rhsTy))
    (hk : ∀ o f', f.Before f' → K.Orderly prior f' R → K.Knows f' o (.int 64) → Emits K prior S (k o) f' Q) :
    Emits K prior S (do
      let right ← if t.isPtr then do
          let right ← newTemp
          emit (.convert right .ptrtoint (← spell K.src rhsTy) rhs (.int 64))
          pure right
        else resize K.src rhs rhsTy (.int 64)
      k right) f Q := by
  cases t with
  | ptr q =>
    have hp := hK.sound.proper_of_get? hrhs (by simp)
    have hrptr : (K.code rhsTy).isPointer = true := by rw [code_ptr hK hrhs]; rfl
    refine emits_newTemp hf fun m f1 hle1 hf1 => emits_spell hK hf1 hp ?_
    refine Emits.bind (emits_define hf1 rfl (accepts_convert (hr.before hle1) (declares_code hK hp)
      (K.declares_int 64) fun _ => .ptrtoint hrptr) (T := .int 64) fun _ => ⟨_, rfl, rfl⟩)
      fun _ f2 hle2 hf2 hright => ?_
    exact hk _ f2 (hle1.trans hle2) hf2 hright
  | int signed w => exact (emits_index hK hf hrhs hr).bind hk
  | _ => simp [Ty.isPtr, Ty.isInt] at hshape

theorem emits_pointerArithmetic (hop : (addressOp? op).isSome = true) (hf : K.Orderly prior f (r :: R)) (hty : K.Declares ty)
    (hptr : ty.isPointer = true) (hl : K.Knows f lhs ty) (hrhs : K.table.get? rhsTy = some t)
    (hshape : t.isPtr = true ∨ t.isInt = true) (hr : K.Knows f rhs (K.code rhsTy)) :
    Emits K prior R (pointerArithmetic K.src (.temp r) op ty lhs rhs t.isPtr rhsTy) f fun o f' => K.Knows f' o ty := by
  unfold pointerArithmetic
  have h64 := K.declares_int 64
  refine emits_newTemp hf fun n f1 hle1 hf1 => ?_
  refine Emits.bind (emits_define hf1 rfl (accepts_convert (hl.before hle1) hty h64 fun _ => .ptrtoint hptr)
    (T := .int 64) fun _ => ⟨_, rfl, rfl⟩) fun _ f2 hle2 hf2 hleft => ?_
  refine emits_number hK hf2 hrhs hshape (hr.before (hle1.trans hle2)) fun right f3 hle3 hf3 hright => ?_
  obtain ⟨b, hb⟩ := Option.isSome_iff_exists.mp hop
  have htakes : b.Takes (.int 64) ∧ b.compares = false := by cases op <;> cases hb <;> exact ⟨rfl, rfl⟩
  rw [hb]
  refine emits_newTemp hf3 fun m f4 hle4 hf4 => ?_
  refine Emits.bind (emits_define hf4 rfl (accepts_binary (hleft.before (hle3.trans hle4)) (hright.before hle4)
    h64 htakes.1) (T := .int 64) fun _ => ⟨_, rfl, by rw [htakes.2]; rfl⟩) fun _ f5 hle5 hf5 hcombined => ?_
  exact emits_finish hf5 rfl (accepts_convert hcombined h64 hty fun _ => .inttoptr hptr) fun _ => ⟨_, rfl, rfl⟩

theorem emits_binaryCode {lhsTy resultTy : TypeId} {l : Ty} (hf : K.Orderly prior f (r :: R))
    (hop : Operator.Binary K.table lhsTy op rhsTy resultTy) (hlhs : K.table.get? lhsTy = some l)
    (hrhs : K.table.get? rhsTy = some t) (hl : K.Knows f lhs (K.code lhsTy)) (hr : K.Knows f rhs (K.code rhsTy)) :
    Emits K prior R (binaryCode K.src (.temp r) op l t (K.code lhsTy) lhs rhs rhsTy) f
      fun o f' => K.Knows f' o (K.code resultTy) := by
  have hs := hK.sound
  have hbool : K.code .bool = .int 1 := code_bool hK (hs.primitive 8 .bool rfl)
  -- operators between pointers, by what is on the right
  have pointers : ∀ {p : TypeId}, l = .ptr p → t.isPtr = true ∨ t.isInt = true →
      (op = .eq ∧ t.isPtr = true ∧ resultTy = .bool ∨ (addressOp? op).isSome = true ∧ resultTy = lhsTy) →
      Emits K prior R (pointerBinary K.src (.temp r) p op (K.code lhsTy) lhs rhs t rhsTy) f
        fun o f' => K.Knows f' o (K.code resultTy) := by
    intro p hlp hshape hcase
    subst hlp
    have hpointee := hs.proper_mention hlhs rfl (show p ∈ Ty.mentions (.ptr p) from (.head _))
    have hptr : (K.code lhsTy).isPointer = true := by rw [code_ptr hK hlhs]; rfl
    have hdecl := declares_code hK (hs.proper_of_get? hlhs (by simp))
    unfold pointerBinary
    rcases hcase with ⟨rfl, hrp, rfl⟩ | ⟨haddress, rfl⟩
    · rw [if_neg (by simp), if_pos rfl, hbool]
      cases t with
      | ptr q =>
        have hrptr : (K.code rhsTy).isPointer = true := by rw [code_ptr hK hrhs]; rfl
        exact emits_pointerEq hK hf hdecl hptr hl (hs.proper_of_get? hrhs (by simp)) hrptr hr
      | _ => simp [Ty.isPtr] at hrp
    · have hne : op ≠ .eq := by
        rintro rfl
        cases haddress
      split
      · rename_i hstep
        rw [code_ptr hK hlhs] at hl ⊢
        cases t with
        | int signed w => exact emits_pointerStep hK _ hf hpointee hl hrhs hr
        | _ => simp [Ty.isInt] at hstep
      · exact emits_pointerArithmetic hK haddress hf hdecl hptr hl hrhs hshape hr
  cases hop with
  | bools hl' hr' _ =>
    cases hlhs.symm.trans hl'
    rw [code_bool hK hlhs] at hl
    rw [code_bool hK hr'] at hr
    rw [hbool]
    have htakes : (boolOp op).Takes (.int 1) := by cases op <;> first | rfl | exact .inl rfl
    exact emits_finish hf rfl (accepts_binary hl hr (K.declares_int 1) htakes) fun _ => ⟨_, rfl, by split <;> rfl⟩
  | ints hl' hop =>
    cases hlhs.symm.trans hl'
    rw [code_int hK hlhs] at hl hr ⊢
    exact emits_intBinary (fun hstrict => hK.wide hstrict _ _ _ hlhs) _ hop hf hl hr
  | floats hl' hop =>
    cases hlhs.symm.trans hl'
    exact emits_floatBinary (isFloat_code hK hlhs) (declares_code hK (hs.proper_of_get? hlhs (by simp))) hop hf hl hr
  | offset hl' hr' hop =>
    cases hlhs.symm.trans hl'
    cases hrhs.symm.trans hr'
    refine pointers rfl (.inr rfl) (.inr ⟨?_, rfl⟩)
    revert hop
    cases op <;> simp [addressOp?]
  | pointers hl' hr' hop =>
    cases hlhs.symm.trans hl'
    cases hrhs.symm.trans hr'
    refine pointers rfl (.inl rfl) (.inr ⟨?_, rfl⟩)
    revert hop
    cases op <;> simp [addressOp?]
  | samePointer hl' hr' =>
    cases hlhs.symm.trans hl'
    cases hrhs.symm.trans hr'
    exact pointers rfl (.inl rfl) (.inl ⟨rfl, rfl, rfl⟩)

theorem emits_negation (hf : K.Orderly prior f R) (ht : K.table.get? operandTy = some t)
    (hshape : t.isInt = true ∨ t.isFloat = true) (hv : K.Knows f value (K.code operandTy)) :
    Emits K prior R (negation K.src (K.code operandTy) operandTy value) f
      fun o f' => K.Knows f' o (K.code operandTy) := by
  have hdecl := declares_code hK (hK.sound.proper_of_get? ht (by rintro rfl; simp [Ty.isInt, Ty.isFloat] at hshape))
  unfold negation
  refine emits_newTemp hf fun n f1 hle1 hf1 => emits_ask (get_eq_ok.mpr ht) ?_
  have hv1 := hv.before hle1
  cases t with
  | int signed w =>
    rw [code_int hK ht] at hv1 hdecl ⊢
    exact emits_finish hf1 rfl (accepts_binary (knows_int 0 w) hv1 hdecl (show BinaryOp.Takes .sub (.int w) from rfl))
      fun _ => ⟨_, rfl, rfl⟩
  | float double =>
    refine emits_finish hf1 rfl ?_ fun _ => ⟨_, rfl, rfl⟩
    exact accepts_of (by simp [Instr.uses, hv1]) (by simp [Instr.types, hdecl]) fun _ => isFloat_code hK ht
  | _ => simp [Ty.isInt, Ty.isFloat] at hshape

theorem emits_complement (hf : K.Orderly prior f R) (ht : K.table.get? operandTy = some t)
    (hshape : t.isPtr = true ∨ t.isInt = true) (hv : K.Knows f value (K.code operandTy)) :
    Emits K prior R (complement K.src (K.code operandTy) operandTy value) f
      fun o f' => K.Knows f' o (K.code operandTy) := by
  have hdecl := declares_code hK (hK.sound.proper_of_get? ht (by rintro rfl; simp [Ty.isInt, Ty.isPtr] at hshape))
  have h64 := K.declares_int 64
  unfold complement
  refine emits_newTemp hf fun n f1 hle1 hf1 => emits_ask (get_eq_ok.mpr ht) ?_
  have hv1 := hv.before hle1
  cases t with
  | ptr p =>
    have hptr : (K.code operandTy).isPointer = true := by rw [code_ptr hK ht]; rfl
    refine emits_newTemp hf1 fun number f2 hle2 hf2 => emits_newTemp hf2 fun flipped f3 hle3 hf3 => ?_
    refine Emits.bind (emits_define hf3.swap rfl (accepts_convert (hv1.before (hle2.trans hle3)) hdecl h64
      fun _ => .ptrtoint hptr) (T := .int 64) fun _ => ⟨_, rfl, rfl⟩) fun _ f4 _ hf4 hnumber => ?_
    refine Emits.bind (emits_define hf4 rfl (accepts_binary hnumber (knows_int (-1) 64) h64
      (show BinaryOp.Takes .xor (.int 64) from rfl)) (T := .int 64) fun _ => ⟨_, rfl, rfl⟩) fun _ f5 _ hf5 hflipped => ?_
    exact emits_finish hf5 rfl (accepts_convert hflipped h64 hdecl fun _ => .inttoptr hptr) fun _ => ⟨_, rfl, rfl⟩
  | int signed w =>
    rw [code_int hK ht] at hv1 hdecl ⊢
    exact emits_finish hf1 rfl (accepts_binary hv1 (knows_int (-1) w) hdecl (show BinaryOp.Takes .xor (.int w) from rfl))
      fun _ => ⟨_, rfl, rfl⟩
  | _ => simp [Ty.isInt, Ty.isPtr] at hshape

/-! ## (2) Casts and sums -/

omit hK in
theorem emits_respell {source target : CodeType} (hf : K.Orderly prior f (r :: R)) (hs : K.Declares source)
    (ht : K.Declares target) (hv : K.Knows f value source) :
    Emits K prior R (respell (.temp r) value source target) f fun o f' => K.Knows f' o target := by
  unfold respell
  refine (emits_spill hf hv hs).bind fun slot f1 hle1 hf1 hslot => ?_
  refine emits_newTemp hf1 fun n f2 hle2 hf2 => ?_
  have htptr : K.Declares target.ptr := ht
  refine Emits.bind (emits_define hf2 rfl (accepts_convert (hslot.before hle2) hs htptr fun _ => .bitcast rfl rfl)
    (T := target.ptr) fun _ => ⟨_, rfl, rfl⟩) fun _ f3 _ hf3 haddress => ?_
  exact emits_finish hf3 rfl (accepts_load haddress ht ht fun _ => rfl) fun _ => ⟨_, rfl, rfl⟩

omit hK in
/-- Types that convert, integers to integers apart, have an instruction for it. -/
theorem conversion?_isSome {s g : Ty} (hc : Ty.Converts s g) (hints : ¬ (s.isInt && g.isInt) = true) :
    (conversion? s g).isSome = true := by
  cases hc with
  | numbers hs hg => cases s <;> cases g <;> simp_all [Ty.isNumber, Ty.isInt, Ty.isFloat, conversion?]
  | _ => rfl

/-- The conversion that is chosen goes between the spellings of the types. -/
theorem between_of_conversion? {v w : TypeId} {s g : Ty} {op : ConvertOp} (hstrict : K.strict)
    (hs : StandsFor K.table source v) (hg : StandsFor K.table target w) (hsv : K.table.get? v = some s)
    (hgw : K.table.get? w = some g) (hop : conversion? s g = some op)
    (hne : (K.code source).text ≠ (K.code target).text) : op.Between (K.code source) (K.code target) := by
  have hsplain : s.isAggregate = false := by cases s <;> first | rfl | cases hop
  have hgplain : g.isAggregate = false := by cases s <;> cases g <;> first | rfl | cases hop
  rw [hK.transparent hstrict source v s hs hsv hsplain, hK.transparent hstrict target w g hg hgw hgplain] at hne ⊢
  cases s with
  | int signed a =>
    rw [code_int hK hsv] at hne ⊢
    cases g with
    | float double =>
      have hfloat := isFloat_code hK hgw
      cases signed <;> cases hop
      · exact .uitofp hfloat
      · exact .sitofp hfloat
    | ptr p =>
      rw [code_ptr hK hgw]
      cases hop
      exact .inttoptr rfl
    | _ => cases hop
  | float double =>
    rw [code_float hK hsv] at hne ⊢
    cases g with
    | int signed b =>
      rw [code_int hK hgw]
      have hfloat : (if double then CodeType.double else .float).isFloat = true := by cases double <;> rfl
      cases signed <;> cases hop
      · exact .fptoui hfloat
      · exact .fptosi hfloat
    | float double' =>
      rw [code_float hK hgw] at hne ⊢
      cases double <;> cases double' <;> cases hop
      · exact absurd rfl hne
      · exact .fpext
      · exact .fptrunc
      · exact absurd rfl hne
    | _ => cases hop
  | bool =>
    cases g with
    | int signed b =>
      rw [code_bool hK hsv, code_int hK hgw]
      cases hop
      exact .zext (hK.wide hstrict _ _ _ hgw)
    | _ => cases hop
  | ptr p =>
    rw [code_ptr hK hsv]
    cases g with
    | ptr q =>
      rw [code_ptr hK hgw]
      cases hop
      exact .bitcast rfl rfl
    | int signed b =>
      rw [code_int hK hgw]
      cases hop
      exact .ptrtoint rfl
    | _ => cases hop
  | _ => cases hop

theorem emits_castCode (hf : K.Orderly prior f R) (hs : K.table.Proper source) (ht : K.table.Proper target)
    (hv : K.Knows f value (K.code source)) (hc : Converts K.table source target) :
    Emits K prior R (castCode K.src value source target) f fun o f' => K.Knows f' o (K.code target) := by
  have hsdecl := declares_code hK hs
  have htdecl := declares_code hK ht
  unfold castCode
  refine emits_spell hK hf hs (emits_spell hK hf ht ?_)
  split
  · rename_i htext
    exact emits_pure hf (hv.of_text fun _ => htext)
  · rename_i hne
    cases hc with
    | same hsv hgv =>
      obtain ⟨ty, hty, -⟩ := hsv.get?
      refine emits_ask hsv.unwrapAlias (emits_ask hgv.unwrapAlias ?_)
      refine emits_ask (get_eq_ok.mpr hty) (emits_ask (get_eq_ok.mpr hty) ?_)
      refine emits_newTemp hf fun n f1 hle1 hf1 => ?_
      rw [if_pos rfl]
      exact emits_respell hf1 hsdecl htdecl (hv.before hle1)
    | @between v w s g hsv hgw hsty hgty hconv =>
      refine emits_ask hsv.unwrapAlias (emits_ask hgw.unwrapAlias ?_)
      refine emits_ask (get_eq_ok.mpr hsty) (emits_ask (get_eq_ok.mpr hgty) ?_)
      refine emits_newTemp hf fun n f1 hle1 hf1 => ?_
      split
      · exact emits_respell hf1 hsdecl htdecl (hv.before hle1)
      · split
        · -- the temporary stays undefined: integers are resized under a number of their own
          rename_i hints
          obtain ⟨hsint, hgint⟩ := Bool.and_eq_true_iff.mp hints
          cases s with
          | int signed m =>
            cases g with
            | int signed' n =>
              obtain ⟨width, hwidth⟩ := exists_code_int hK hgw hgty
              rw [hwidth]
              exact emits_resize hK hf1.release hsv hsty (hv.before hle1)
            | _ => cases hgint
          | _ => cases hsint
        · rename_i hints
          obtain ⟨op, hop⟩ := Option.isSome_iff_exists.mp (conversion?_isSome hconv hints)
          rw [hop]
          exact emits_finish hf1 rfl (accepts_convert (hv.before hle1) hsdecl htdecl fun hstrict =>
            between_of_conversion? hK hstrict hsv hgw hsty hgty hop hne) fun _ => ⟨_, rfl, rfl⟩

section Sums

variable {sumTy payloadTy id : TypeId} {variants : List TypeId} {address : Operand}
  (hst : StandsFor K.table sumTy id) (hsum : K.table.get? id = some (.sum variants))
include hst hsum

theorem emits_payloadAddress (hf : K.Orderly prior f R) (hp : K.table.Proper payloadTy)
    (ha : K.Knows f address (K.code sumTy).ptr) :
    Emits K prior R (payloadAddress K.src address sumTy payloadTy) f
      fun o f' => K.Knows f' o (K.code payloadTy).ptr := by
  have hsumProper := hst.proper hK.sound hsum (by simp)
  have hfield : K.FieldOf (K.code sumTy) 1 _ := fieldOf_standsFor hK hst hsum rfl (.struct rfl)
  unfold payloadAddress
  refine emits_spell hK hf hsumProper (emits_ask (hst.resolved hsum) ?_)
  refine emits_ask (payloadWords_eq hK.usable hsum) ?_
  refine emits_newTemp hf fun n f1 hle1 hf1 => ?_
  refine Emits.bind (emits_define hf1 rfl (accepts_field (ha.before hle1) (declares_code hK hsumProper) hfield)
    (T := (CodeType.array (words K.table variants) (.int 64)).ptr) fun hs => ⟨_, ⟨_, hfield hs, rfl⟩, rfl⟩)
    fun _ f2 _ hf2 hbytes => ?_
  refine emits_newTemp hf2 fun m f3 hle3 hf3 => emits_spell hK hf3 hp ?_
  have htarget : K.Declares (K.code payloadTy).ptr := declares_code hK hp
  have hsource : K.Declares (CodeType.array (words K.table variants) (.int 64)).ptr := fun _ _ hname => by cases hname
  exact emits_finish hf3 rfl (accepts_convert (hbytes.before hle3) hsource htarget fun _ => .bitcast rfl rfl)
    fun _ => ⟨_, rfl, rfl⟩

theorem emits_injectCode (variant : VariantId) (hf : K.Orderly prior f R) (hp : K.table.Proper payloadTy)
    (hv : K.Knows f value (K.code payloadTy)) :
    Emits K prior R (injectCode K.src variant value payloadTy sumTy) f fun o f' => K.Knows f' o (K.code sumTy) := by
  have hsumProper := hst.proper hK.sound hsum (by simp)
  have hdecl := declares_code hK hsumProper
  have hfield := fieldOf_tag hK hst hsum
  unfold injectCode
  refine emits_spell hK hf hsumProper ((emits_newSpill hf hdecl).bind fun slot f1 hle1 hf1 hslot => ?_)
  refine emits_newTemp hf1 fun n f2 hle2 hf2 => ?_
  refine Emits.bind (emits_define hf2 rfl (accepts_field (hslot.before hle2) hdecl hfield)
    (T := (CodeType.int 32).ptr) fun hs => ⟨_, ⟨_, hfield hs, rfl⟩, rfl⟩) fun _ f3 hle3 hf3 htag => ?_
  refine (emits_store hf3 (knows_int _ 32) htag (K.declares_int 32)).bind fun _ f4 hle4 hf4 _ => ?_
  have hslot4 := hslot.before (hle2.trans (hle3.trans hle4))
  refine (emits_payloadAddress hK hst hsum hf4 hp hslot4).bind fun payload f5 hle5 hf5 hpayload => ?_
  refine emits_spell hK hf5 hp ?_
  have hv5 := hv.before (hle1.trans (hle2.trans (hle3.trans (hle4.trans hle5))))
  refine (emits_store hf5 hv5 hpayload (declares_code hK hp)).bind fun _ f6 hle6 hf6 _ => ?_
  refine emits_newTemp hf6 fun m f7 hle7 hf7 => ?_
  have hslot7 := hslot4.before (hle5.trans (hle6.trans hle7))
  exact emits_finish hf7 rfl (accepts_load hslot7 hdecl hdecl fun _ => rfl) fun _ => ⟨_, rfl, rfl⟩

theorem emits_projectCode (hf : K.Orderly prior f R) (hp : K.table.Proper payloadTy)
    (ha : K.Knows f address (K.code sumTy).ptr) :
    Emits K prior R (projectCode K.src address sumTy payloadTy) f fun o f' => K.Knows f' o (K.code payloadTy) := by
  have hdecl := declares_code hK hp
  unfold projectCode
  refine (emits_payloadAddress hK hst hsum hf hp ha).bind fun payload f1 hle1 hf1 hpayload => ?_
  refine emits_spell hK hf1 hp (emits_newTemp hf1 fun n f2 hle2 hf2 => ?_)
  exact emits_finish hf2 rfl (accepts_load (hpayload.before hle2) hdecl hdecl fun _ => rfl) fun _ => ⟨_, rfl, rfl⟩

end Sums

/-! ## (3) Values -/

omit hK in
theorem emits_requireTyped {α : Type} {id : TypeId} {k : PUnit → EmitM α} {Q : α → FunFrame → Prop}
    (hid : K.table.Proper id) (hk : Emits K prior R (k ⟨⟩) f Q) : Emits K prior R (requireTyped id >>= k) f Q := by
  unfold requireTyped
  rw [if_neg hid.2, pure_bind]
  exact hk

/-- From every orderly frame the step makes code for an operand of this type. -/
def Makes (K : Setup) (act : EmitM Operand) (T : CodeType) : Prop :=
  ∀ prior R f, K.Orderly prior f R → Emits K prior R act f fun o f' => K.Knows f' o T

/-- From every orderly frame the step makes code for an address of this type, or finds that there
is no address. -/
def MakesAddress (K : Setup) (act : EmitM (Option Operand)) (T : CodeType) : Prop :=
  ∀ prior R f, K.Orderly prior f R → Emits K prior R act f fun address f' => ∀ o ∈ address, K.Knows f' o T.ptr

omit hK in
theorem makesAddress_none (T : CodeType) : MakesAddress K (pure none) T :=
  fun _ _ _ hf => emits_pure hf fun _ ho => by cases ho

omit hK in
theorem Makes.address {act : EmitM Operand} {T U : CodeType} (h : Makes K act U) (hU : U = T.ptr) :
    MakesAddress K (some <$> act) T := by
  intro prior R f hf
  rw [← bind_pure_comp]
  refine (h prior R f hf).bind fun o f1 _ hf1 ho => emits_pure hf1 fun o' ho' => ?_
  cases ho'
  exact hU ▸ ho

theorem emits_emitArgs : ∀ {args : List Value}, (∀ v ∈ args, Makes K (emitValue K.src v) (K.code v.ty)) →
    (∀ v ∈ args, K.table.Proper v.ty) → ∀ {f : FunFrame}, K.Orderly prior f R →
    Emits K prior R (emitArgs K.src args) f fun operands f' =>
      operands.map (·.1) = args.map (fun v => K.code v.ty) ∧ ∀ a ∈ operands, K.Knows f' a.2 a.1
  | [], _, _, _, hf => emits_pure hf ⟨rfl, fun _ ha => by cases ha⟩
  | v :: rest, hv, hp, f, hf => by
    rw [emitArgs]
    obtain ⟨hv, hrest⟩ := List.forall_mem_cons.mp hv
    obtain ⟨hp, hproper⟩ := List.forall_mem_cons.mp hp
    refine (hv _ _ _ hf).bind fun value f1 hle1 hf1 hvalue => emits_spell hK hf1 hp ?_
    refine (emits_emitArgs hrest hproper hf1).bind fun operands f2 hle2 hf2 h2 => ?_
    obtain ⟨htypes, hknown⟩ := h2
    refine emits_pure hf2 ⟨?_, List.forall_mem_cons.mpr ⟨hvalue.before hle2, hknown⟩⟩
    rw [List.map_cons, List.map_cons, htypes]

/-- A typed value is known under the spelling of its type, and its address, if it has one, as a
pointer to that. -/
theorem emits_emitValue {v : Value} (hv : v.Typed (K.src.context.site K.params)) :
    Makes K (emitValue K.src v) (K.code v.ty) ∧ MakesAddress K (emitAddress K.src v) (K.code v.ty) := by
  have hs := hK.sound
  have proper : ∀ {w : Value}, w.Typed (K.src.context.site K.params) → K.table.Proper w.ty := fun hw => hw.proper hs
  have hty := proper hv
  -- a value without an address of its own is put into a slot
  have spilled : ∀ {w : Value}, K.table.Proper w.ty → Makes K (emitValue K.src w) (K.code w.ty) →
      Makes K (do
        let operandTy ← spell K.src w.ty
        let value ← emitValue K.src w
        spill value operandTy) (K.code w.ty).ptr := by
    intro w hp hmake prior R f hf
    refine emits_spell hK hf hp ((hmake _ _ _ hf).bind fun value f1 _ hf1 hvalue => ?_)
    exact emits_spill hf1 hvalue (declares_code hK hp)
  induction hv with
  | @int n ty span signed width hint =>
    refine ⟨fun prior R f hf => ?_, makesAddress_none _⟩
    rw [emitValue]
    refine emits_requireTyped hty ?_
    unfold intLiteral
    have hcode : K.code ty = .int width := code_int hK hint
    exact emits_spell hK hf hty (emits_ofExcept (by rw [hcode]; rfl) (emits_pure hf (hcode ▸ knows_int _ width)))
  | @float bits ty span double hfloat =>
    refine ⟨fun prior R f hf => ?_, makesAddress_none _⟩
    rw [emitValue]
    refine emits_requireTyped hty ?_
    unfold floatLiteral
    exact emits_ask ((StandsFor.itself hfloat rfl).resolved hfloat)
      (emits_pure hf (.of_has fun _ => .float (isFloat_code hK hfloat)))
  | bool =>
    refine ⟨fun prior R f hf => ?_, makesAddress_none _⟩
    rw [emitValue]
    have hbool : K.code .bool = .int 1 := code_bool hK (hs.primitive 8 .bool rfl)
    exact emits_requireTyped hty (emits_pure hf (hbool ▸ .of_has fun _ => .bool))
  | unit =>
    refine ⟨fun prior R f hf => ?_, makesAddress_none _⟩
    rw [emitValue]
    have hunit : K.code .unit = .struct [] := code_eq hK hty (hs.primitive 9 .unit rfl) rfl
    exact emits_requireTyped hty (emits_pure hf (hunit ▸ .of_has fun _ => .zero))
  | @var v var span hvar _ _ =>
    have hslot : Makes K (slotOf K.src v) (K.code var.ty).ptr := fun _ _ _ hf => emits_slotOf hK hf hvar hty
    have hdecl := declares_code hK hty
    refine ⟨fun prior R f hf => ?_, hslot.address rfl⟩
    rw [emitValue]
    refine emits_requireTyped hty ((hslot _ _ _ hf).bind fun slot f1 _ hf1 hslot1 => emits_spell hK hf1 hty ?_)
    refine emits_newTemp hf1 fun n f2 hle2 hf2 => ?_
    exact emits_finish hf2 rfl (accepts_load (hslot1.before hle2) hdecl hdecl fun _ => rfl) fun _ => ⟨_, rfl, rfl⟩
  | @arg i p span hp _ =>
    refine ⟨fun prior R f hf => ?_, makesAddress_none _⟩
    rw [emitValue]
    refine emits_requireTyped hty (emits_pure hf (.of_has fun _ => .arg ?_))
    change (K.params.map fun p => K.code p.ty)[i]? = some (K.code p.ty)
    have hp' : K.params[i]? = some p := hp
    rw [List.getElem?_map, hp']
    rfl
  | @func fn g ty span hg hfunc =>
    refine ⟨fun prior R f hf => ?_, makesAddress_none _⟩
    rw [emitValue]
    refine emits_requireTyped hty (emits_ask (Arena.get_eq_ok.mpr hg) (emits_pure hf (.of_has fun hclosed => .global ?_)))
    change (g.name, K.code ty) ∈ K.funs
    rw [code_func hK hfunc]
    exact hK.funs hclosed fn g hg
  | @binary l r op ty span hl hr hop ihl ihr =>
    refine ⟨fun prior R f hf => ?_, makesAddress_none _⟩
    obtain ⟨lt, hlt⟩ := get?_of_lt (proper hl).1
    obtain ⟨rt, hrt⟩ := get?_of_lt (proper hr).1
    rw [emitValue]
    refine emits_requireTyped hty (emits_ask (get_eq_ok.mpr hlt) (emits_ask (get_eq_ok.mpr hrt) ?_))
    refine emits_spell hK hf (proper hl) ?_
    refine ((ihl (proper hl)).1 _ _ _ hf).bind fun left f1 _ hf1 hleft => ?_
    refine ((ihr (proper hr)).1 _ _ _ hf1).bind fun right f2 hle2 hf2 hright => ?_
    refine emits_newTemp hf2 fun n f3 hle3 hf3 => ?_
    exact emits_binaryCode hK hf3 hop hlt hrt (hleft.before (hle2.trans hle3)) (hright.before hle3)
  | @unary v op ty span hv hop ih =>
    obtain ⟨hvalue, haddress⟩ := ih (proper hv)
    constructor
    · intro prior R f hf
      rw [emitValue]
      refine emits_requireTyped hty (emits_spell hK hf hty ?_)
      cases hop with
      | deref hx =>
        refine (hvalue _ _ _ hf).bind fun address f1 _ hf1 haddress1 => ?_
        refine emits_newTemp hf1 fun n f2 hle2 hf2 => emits_spell hK hf2 (proper hv) ?_
        have htext : (K.code v.ty).text = (K.code ty).text ++ "*" := by rw [code_ptr hK hx]; rfl
        exact emits_finish hf2 rfl (accepts_load (haddress1.before hle2) (declares_code hK hty)
          (declares_code hK (proper hv)) fun _ => htext) fun _ => ⟨_, rfl, rfl⟩
      | address hr =>
        have hptr : K.code ty = (K.code v.ty).ptr := code_ptr hK hr
        change Emits K prior R _ f fun o f' => K.Knows f' o (K.code ty)
        rw [hptr]
        refine (haddress _ _ _ hf).bind fun address f1 _ hf1 haddress1 => ?_
        cases address with
        | some address => exact emits_pure hf1 (haddress1 address rfl)
        | none => exact spilled (proper hv) hvalue _ _ _ hf1
      | negateInt hx => exact (hvalue _ _ _ hf).bind fun _ _ _ hf1 => emits_negation hK hf1 hx (.inl rfl)
      | negateFloat hx => exact (hvalue _ _ _ hf).bind fun _ _ _ hf1 => emits_negation hK hf1 hx (.inr rfl)
      | complement hx => exact (hvalue _ _ _ hf).bind fun _ _ _ hf1 => emits_complement hK hf1 hx (.inr rfl)
      | complementPointer hx => exact (hvalue _ _ _ hf).bind fun _ _ _ hf1 => emits_complement hK hf1 hx (.inl rfl)
    · cases hop with
      | deref hx => exact hvalue.address (code_ptr hK hx)
      | _ => exact makesAddress_none _
  | @cast v ty span hv hc _ ih =>
    refine ⟨fun prior R f hf => ?_, makesAddress_none _⟩
    rw [emitValue]
    refine emits_requireTyped hty (((ih (proper hv)).1 _ _ _ hf).bind fun value f1 _ hf1 hvalue => ?_)
    exact emits_castCode hK hf1 (proper hv) hty hvalue hc
  | @member base i s fields field span hb hst hfields hi ih =>
    have hfield := fieldOf_struct hK hst hfields hi
    have hdecl := declares_code hK (proper hb)
    obtain ⟨hvalue, haddress⟩ := ih (proper hb)
    refine ⟨fun prior R f hf => ?_, fun prior R f hf => ?_⟩
    · rw [emitValue]
      refine emits_requireTyped hty ((hvalue _ _ _ hf).bind fun value f1 _ hf1 hvalue1 => ?_)
      refine emits_newTemp hf1 fun n f2 hle2 hf2 => emits_spell hK hf2 (proper hb) ?_
      exact emits_finish hf2 rfl (accepts_extract (hvalue1.before hle2) hdecl hfield) fun hs => ⟨_, hfield hs, rfl⟩
    · rw [emitAddress]
      refine (haddress _ _ _ hf).bind fun address f1 _ hf1 haddress1 => ?_
      cases address with
      | none => exact emits_pure hf1 fun _ ho => by cases ho
      | some address =>
        refine emits_spell hK hf1 (proper hb) (emits_newTemp hf1 fun n f2 hle2 hf2 => ?_)
        have hbase := (haddress1 address rfl).before hle2
        refine Emits.bind (emits_define hf2 rfl (accepts_field hbase hdecl hfield) (T := (K.code field.ty).ptr)
          fun hs => ⟨_, ⟨_, hfield hs, rfl⟩, rfl⟩) fun _ f3 _ hf3 hresult => emits_pure hf3 fun o ho => ?_
        cases ho
        exact hresult
  | @call callee args s signature span hcallee hargs hst hsig htypes ihcallee ihargs =>
    refine ⟨fun prior R f hf => ?_, makesAddress_none _⟩
    rw [emitValue]
    refine emits_requireTyped hty (((ihcallee (proper hcallee)).1 _ _ _ hf).bind fun callee' f1 _ hf1 hcallee1 => ?_)
    have hargs' := emits_emitArgs hK (fun a ha => (ihargs a ha (proper (hargs a ha))).1)
      (fun a ha => proper (hargs a ha)) hf1
    refine hargs'.bind fun operands f2 hle2 hf2 h2 => ?_
    obtain ⟨hmap, hknown⟩ := h2
    refine emits_newTemp hf2 fun n f3 hle3 hf3 => emits_spell hK hf3 hty ?_
    have hparams : operands.map (·.1) = signature.params.map fun p => K.code p.ty := by
      have hmap' := congrArg (List.map K.code) htypes
      rw [List.map_map, List.map_map] at hmap'
      exact hmap.trans hmap'
    have hcallee3 : K.Knows f3 callee' (.func (K.code signature.result) (operands.map (·.1))) := by
      refine (hcallee1.before (hle2.trans hle3)).of_text fun hstrict => ?_
      rw [hK.transparent hstrict _ s _ hst hsig rfl, code_func hK hsig, hparams]
      rfl
    have hdecl : ∀ a ∈ operands, K.Declares a.1 := by
      intro a ha
      have hmem : a.1 ∈ args.map fun v => K.code v.ty := hmap ▸ List.mem_map_of_mem ha
      obtain ⟨v, hv, hva⟩ := List.mem_map.mp hmem
      exact hva ▸ declares_code hK (proper (hargs v hv))
    exact emits_finish hf3 rfl (accepts_call hcallee3 (fun a ha => (hknown a ha).before hle3) (declares_code hK hty) hdecl)
      fun _ => ⟨_, rfl, rfl⟩
  | @inject d payload ty s variants span hv hst hsum _ ih =>
    refine ⟨fun prior R f hf => ?_, makesAddress_none _⟩
    rw [emitValue]
    exact emits_requireTyped hty (((ih (proper hv)).1 _ _ _ hf).bind fun _ _ _ hf1 =>
      emits_injectCode hK hst hsum d hf1 (proper hv))
  | @project sum d ty s variants span hv hst hsum _ ih =>
    obtain ⟨hvalue, haddress⟩ := ih (proper hv)
    refine ⟨fun prior R f hf => ?_, makesAddress_none _⟩
    rw [emitValue]
    refine emits_requireTyped hty ((haddress _ _ _ hf).bind fun address f1 _ hf1 haddress1 => ?_)
    cases address with
    | some address =>
      simp only [pure_bind]
      exact emits_projectCode hK hst hsum hf1 hty (haddress1 address rfl)
    | none =>
      refine emits_spell hK hf1 (proper hv) ((hvalue _ _ _ hf1).bind fun value f2 _ hf2 hvalue2 => ?_)
      refine (emits_spill hf2 hvalue2 (declares_code hK (proper hv))).bind fun slot f3 _ hf3 hslot => ?_
      exact emits_projectCode hK hst hsum hf3 hty hslot

omit hK in
/-- From every frame a typed value has an operand, and the question for its address has an answer. -/
theorem emitValue_ends {src : Source} (hu : src.types.Usable) {params : List Parameter} {v : Value}
    (hv : v.Typed (src.context.site params)) (f : FunFrame) :
    Ends (emitValue src v) f (fun _ _ => True) ∧ Ends (emitAddress src v) f fun _ _ => True := by
  -- nothing is asked of the code
  let K : Setup :=
    { closed := False, strict := False, closed_of_strict := id, src, marks := f.expanding, params, types := [], funs := [] }
  have hK : K.Sound := ⟨hu, False.elim, False.elim, False.elim, False.elim⟩
  have hf : K.Orderly [] f [] := ⟨rfl, False.elim⟩
  obtain ⟨hvalue, haddress⟩ := emits_emitValue hK hv
  exact ⟨(hvalue _ _ _ hf).mono fun _ _ _ => trivial, (haddress _ _ _ hf).mono fun _ _ _ => trivial⟩

/-! ## (4) Blocks -/

theorem emits_emitStmt {x : BlockStmt} (hx : x.Typed (K.src.context.site K.params)) (hf : K.Orderly prior f R) :
    Emits K prior R (emitStmt K.src x) f fun _ _ => True := by
  cases x with
  | live v =>
    obtain ⟨var, hvar, hp⟩ := hx
    unfold emitStmt
    refine (emits_slotOf hK hf hvar hp).bind fun _ f1 _ hf1 _ => ?_
    exact emits_ask (Arena.get_eq_ok.mpr hvar) (emits_comment hf1 ⟨v, var, hvar, .inr rfl⟩)
  | store v value =>
    obtain ⟨var, hvar, hvalue, hty⟩ := hx
    have hp : K.table.Proper var.ty := hty ▸ hvalue.proper hK.sound
    unfold emitStmt
    refine ((emits_emitValue hK hvalue).1 _ _ _ hf).bind fun operand f1 _ hf1 hoperand => ?_
    refine (emits_slotOf hK hf1 hvar hp).bind fun slot f2 hle2 hf2 hslot => ?_
    refine emits_ask (Arena.get_eq_ok.mpr hvar) (emits_spell hK hf2 hp ?_)
    rw [hty] at hoperand
    exact emits_store hf2 (hoperand.before hle2) hslot (declares_code hK hp)

theorem emits_emitStmts {l : List BlockStmt} (hl : ∀ x ∈ l, x.Typed (K.src.context.site K.params))
    (hf : K.Orderly prior f R) : Emits K prior R (l.forM (emitStmt K.src)) f fun _ _ => True := by
  induction l generalizing f with
  | nil => exact emits_pure hf trivial
  | cons x l ih =>
    refine (emits_emitStmt hK (hl x (.head _)) hf).bind fun _ f1 _ hf1 _ => ?_
    exact ih (fun y hy => hl y (.tail _ hy)) hf1

theorem emits_conditionBit {id : TypeId} (ht : K.table.get? id = some t) (hc : t.IsCondition)
    (hf : K.Orderly prior f R) (hv : K.Knows f value (K.code id)) :
    Emits K prior R (conditionBit K.src id value) f fun o f' => K.Knows f' o (.int 1) := by
  have hs := hK.sound
  unfold conditionBit
  refine emits_ask (get_eq_ok.mpr ht) ?_
  cases hc with
  | bool => exact emits_pure hf (code_bool hK ht ▸ hv)
  | @int signed w =>
    have hp := hs.proper_of_get? ht (by simp)
    refine emits_spell hK hf hp (emits_newTemp hf fun n f1 hle1 hf1 => ?_)
    rw [code_int hK ht] at hv ⊢
    exact emits_finish hf1 rfl (accepts_binary (hv.before hle1) (knows_int 0 w) (K.declares_int w)
      (show BinaryOp.Takes (.icmp .ne) (.int w) from .inl rfl)) fun _ => ⟨_, rfl, rfl⟩
  | @float double =>
    have hp := hs.proper_of_get? ht (by simp)
    have hfloat := isFloat_code hK ht
    refine emits_spell hK hf hp (emits_newTemp hf fun n f1 hle1 hf1 => ?_)
    exact emits_finish hf1 rfl (accepts_binary (hv.before hle1) (.of_has fun _ => .floatZero hfloat) (declares_code hK hp)
      (show BinaryOp.Takes (.fcmp .une) (K.code id) from hfloat)) fun _ => ⟨_, rfl, rfl⟩

/-- The exit uses known operands, is written with types that are defined, and returns a value
of this type. -/
structure Setup.AcceptsExit (K : Setup) (result : CodeType) (slots : List Alloca) (code : List Instr) (x : Exit) :
    Prop where
  known : K.closed → ∀ u ∈ x.uses, u.1.Known K.scene slots code
  fits : K.strict → ∀ u ∈ x.uses, u.1.Fits K.scene slots code u.2
  types : ∀ T ∈ x.types, K.Declares T ∧ T = result

omit hK in
theorem acceptsExit_of {x : Exit} {result : CodeType} (hu : ∀ u ∈ x.uses, K.Knows f u.1 u.2)
    (ht : ∀ T ∈ x.types, K.Declares T ∧ T = result) :
    K.AcceptsExit result f.slots.toList f.code.toList x :=
  ⟨fun hclosed u hmem => (hu u hmem).1 hclosed, fun hstrict u hmem => (hu u hmem).2 hstrict, ht⟩

theorem emits_emitExit {result : TypeId} {t : Terminator} (ht : t.Typed (K.src.context.site K.params) result)
    (hf : K.Orderly prior f R) : Emits K prior R (emitExit K.src t) f fun x f' =>
      K.AcceptsExit (K.code result) f'.slots.toList f'.code.toList x ∧ x.targets = t.successors := by
  have hs := hK.sound
  cases t with
  | ret v =>
    obtain ⟨hv, hty⟩ := ht
    have hp : K.table.Proper v.ty := hv.proper hs
    unfold emitExit
    refine ((emits_emitValue hK hv).1 _ _ _ hf).bind fun operand f1 _ hf1 hoperand => ?_
    refine emits_spell hK hf1 hp (emits_pure hf1 ⟨acceptsExit_of ?_ ?_, rfl⟩)
    · simpa [Exit.uses] using hoperand
    · simpa [Exit.types, hty] using declares_code hK (hty ▸ hp)
  | jump target =>
    exact emits_pure hf ⟨acceptsExit_of (by simp [Exit.uses]) (by simp [Exit.types]), rfl⟩
  | branch condition ifTrue ifFalse =>
    obtain ⟨hv, ty, hty, hc⟩ := ht
    unfold emitExit
    refine ((emits_emitValue hK hv).1 _ _ _ hf).bind fun operand f1 _ hf1 hoperand => ?_
    refine (emits_conditionBit hK hty hc hf1 hoperand).bind fun bit f2 _ hf2 hbit => ?_
    exact emits_pure hf2 ⟨acceptsExit_of (by simpa [Exit.uses] using hbit) (by simp [Exit.types]), rfl⟩
  | switch scrutinee targets fallback =>
    obtain ⟨hv, id, variants, hst, hsum, -⟩ := ht
    have hp : K.table.Proper scrutinee.ty := hv.proper hs
    have hfield := fieldOf_tag hK hst hsum
    unfold emitExit
    refine ((emits_emitValue hK hv).1 _ _ _ hf).bind fun operand f1 _ hf1 hoperand => ?_
    refine emits_newTemp hf1 fun n f2 hle2 hf2 => emits_spell hK hf2 hp ?_
    refine Emits.bind (emits_define hf2 rfl (accepts_extract (hoperand.before hle2) (declares_code hK hp) hfield)
      (T := .int 32) fun hs => ⟨_, hfield hs, rfl⟩) fun _ f3 _ hf3 htag => ?_
    exact emits_pure hf3 ⟨acceptsExit_of (by simpa [Exit.uses] using htag) (by simp [Exit.types]), rfl⟩

end BlockCompiler.Target
