/-
  BlockCompiler.Proofs.CallOrder — the calls in the code of a value.

  The calls of a value are those of its parts, from left to right, and then the value itself if it
  is a call (`Value.calls`).

  (1) `Performs src marks calls act Q`: if the step gives a result, then it has only added code, and
      the calls in that code make these calls, one for one. If it stops, then it has added marks on
      stuck aliases only. Operators, casts and sums add no calls (`Quiet`).
  (2) An address that is not given costs nothing: the frame is as it was (`Tries`). So a value that
      is tried as a place first is computed once all the same, and the code of a value performs its
      calls (`performs_emitValue`), as does that of an address (`tries_emitAddress`).
  (3) A typed value has code, and the calls in it are its own, in order (`emitValue_calls`).
-/
import BlockCompiler.Proofs.Callees
import BlockCompiler.Proofs.SpellingMarks

namespace BlockCompiler

mutual

/-- The calls in a value, in the order in which they are made: those of its parts come first. -/
def Value.calls : Value → List Value
  | .call callee args ty span => callee.calls ++ Value.callsOf args ++ [.call callee args ty span]
  | .binary l _ r _ _ => l.calls ++ r.calls
  | .unary _ v _ _ | .cast v _ _ | .member v _ _ _ | .inject _ v _ _ | .project v _ _ _ => v.calls
  | .int _ _ _ | .float _ _ _ | .bool _ _ _ | .unit _ _ | .var _ _ _ | .arg _ _ _ | .func _ _ _ => []

def Value.callsOf : List Value → List Value
  | [] => []
  | v :: rest => v.calls ++ Value.callsOf rest

end

namespace Target

open TypeTable (Usable)
open FunFrame

/-! ## (1) Steps that perform calls -/

/-- Calls may do anything; no other instruction runs code of another function. -/
def Instr.isCall : Instr → Bool
  | call _ _ _ _ => true
  | _ => false

/-- The operand of a value that needs no code. -/
def Denotes (src : Source) : Value → Operand → Prop
  | .bool b _ _, o => o = .bool b
  | .unit _ _, o => o = .zero
  | .arg i _ _, o => o = .arg i
  | .func fn _ _, o => ∃ f, src.funs.get? fn = some f ∧ o = .global f.name
  | _, _ => True

/-- The instruction makes the call: the types are spelled, and what needs no code is named. -/
inductive MakesCall (src : Source) (marks : List TypeId) : Value → Instr → Prop
  | intro {callee : Value} {args : List Value} {ty : TypeId} {span : Span} {result operand : Operand} {T : CodeType}
      {codes : List (CodeType × Operand)} : Denotes src callee operand →
      spellType src.types ty marks = .ok T marks →
      List.Forall₂ (fun v code => spellType src.types v.ty marks = .ok code.1 marks ∧ Denotes src v code.2)
        args codes →
      MakesCall src marks (.call callee args ty span) (.call result T operand codes)

/-- Code was added to the first frame, and its calls make these calls, one for one. -/
def Adds (src : Source) (marks : List TypeId) (calls : List Value) (f f' : FunFrame) : Prop :=
  f'.expanding = marks ∧ ∃ code, f'.code.toList = f.code.toList ++ code ∧
    List.Forall₂ (MakesCall src marks) calls (code.filter Instr.isCall)

/-- A fault left marks on stuck aliases only. -/
def Leaves (t : TypeTable) (marks : List TypeId) (e : Fault) (marks' : List TypeId) : Prop :=
  e ≠ .endlessType → ∀ a ∈ marks', a ∈ marks ∨ Stuck t a

def Performs {α : Type} (src : Source) (marks : List TypeId) (calls : List Value) (act : EmitM α) (Q : α → Prop) : Prop :=
  ∀ f, f.expanding = marks → Whichever act f (fun a f' => Adds src marks calls f f' ∧ Q a)
    fun e f' => Leaves src.types marks e f'.expanding

/-- A step that makes no calls. -/
def Quiet {α : Type} (src : Source) (act : EmitM α) : Prop := ∀ marks, Performs src marks [] act fun _ => True

section Performs

variable {α β : Type} {src : Source} {marks : List TypeId} {xs ys : List Value} {act : EmitM α} {k : α → EmitM β}
  {Q Q' : α → Prop} {R : β → Prop}

theorem Adds.trans {f f1 f2 : FunFrame} (h : Adds src marks xs f f1) (h' : Adds src marks ys f1 f2) :
    Adds src marks (xs ++ ys) f f2 := by
  obtain ⟨-, code, hcode, hcalls⟩ := h
  obtain ⟨hmarks, code', hcode', hcalls'⟩ := h'
  refine ⟨hmarks, code ++ code', by rw [hcode', hcode, List.append_assoc], ?_⟩
  rw [List.filter_append]
  exact List.rel_append hcalls hcalls'

theorem Adds.andNone {f f1 f2 : FunFrame} (h : Adds src marks xs f f1) (h' : Adds src marks [] f1 f2) :
    Adds src marks xs f f2 := by
  have hall := h.trans h'
  rwa [List.append_nil] at hall

/-- No code was added. -/
theorem Adds.of_code_eq {f f' : FunFrame} (hmarks : f'.expanding = marks) (hcode : f'.code = f.code) :
    Adds src marks [] f f' := ⟨hmarks, [], by rw [hcode, List.append_nil], .nil⟩

theorem Performs.mono (h : Performs src marks xs act Q) (hQ : ∀ a, Q a → Q' a) : Performs src marks xs act Q' :=
  fun f hf => (h f hf).mono (fun a _ hr => ⟨hr.1, hQ a hr.2⟩) fun _ _ hr => hr

theorem Performs.bind (h : Performs src marks xs act Q) (hk : ∀ a, Q a → Performs src marks ys (k a) R) :
    Performs src marks (xs ++ ys) (act >>= k) R := by
  intro f hf
  rw [whichever_bind]
  refine (h f hf).mono (fun a f1 h1 => ?_) fun _ _ hr => hr
  exact (hk a h1.2 f1 h1.1.1).mono (fun b f2 h2 => ⟨h1.1.trans h2.1, h2.2⟩) fun _ _ hr => hr

theorem performs_pure {a : α} (ha : Q a) : Performs src marks [] (pure a) Q :=
  fun _ hf => (whichever_pure a).mpr ⟨.of_code_eq hf rfl, ha⟩

theorem performs_throw {e : Fault} : Performs src marks xs (throw e : EmitM α) Q :=
  fun _ hf => (whichever_throw e).mpr fun _ _ ha => .inl (hf ▸ ha)

/-- A step without calls, and then others. -/
theorem Quiet.andThen (h : Quiet src act) (hk : ∀ a, Performs src marks ys (k a) R) :
    Performs src marks ys (act >>= k) R := (h marks).bind fun a _ => hk a

/-- After these calls, a step that makes none. -/
theorem Performs.last (h : Performs src marks xs act Q) (hk : ∀ a, Q a → Performs src marks [] (k a) R) :
    Performs src marks xs (act >>= k) R := by
  have hall := h.bind hk
  rwa [List.append_nil] at hall

theorem performs_ofExcept (r : Except Fault α) : Performs src marks [] (ofExcept r) fun a => r = .ok a :=
  fun _ hf => (whichever_ofExcept r).mpr ⟨fun _ ha => ⟨.of_code_eq hf rfl, ha⟩, fun _ _ _ _ ha => .inl (hf ▸ ha)⟩

theorem whichever_spelling {act : SpellM α} {f : FunFrame} {Q : α → FunFrame → Prop} {R : Fault → FunFrame → Prop} :
    Whichever (FunFrame.spelling act) f Q R ↔ Whichever act f.expanding (fun a marks => Q a { f with expanding := marks })
      fun e marks => R e { f with expanding := marks } := by
  unfold FunFrame.spelling
  cases he : act f.expanding <;> simp [Whichever, he]

theorem performs_spell (ty : TypeId) : Performs src marks [] (spell src ty) fun T =>
    spellType src.types ty marks = .ok T marks := by
  rintro f rfl
  have hmarks : Whichever (spellType src.types ty) f.expanding _ _ := spellWithin_restores _ ty f.expanding
  refine whichever_spelling.mpr ⟨fun T marks he => ?_, fun e marks he hend => (hmarks.2 e marks he hend).2⟩
  cases hmarks.1 T marks he
  exact ⟨.of_code_eq rfl rfl, he⟩

theorem performs_emit {v : Value} {i : Instr} (h : MakesCall src marks v i) (hi : i.isCall = true) :
    Performs src marks [v] (emit i) fun _ => True := by
  rintro f hf
  refine (whichever_modify _ _).mpr ⟨⟨hf, [i], by simp, ?_⟩, trivial⟩
  simpa [hi] using h

/-! ### Code without calls -/

theorem Quiet.bind (h : Quiet src act) (hk : ∀ a, Quiet src (k a)) : Quiet src (act >>= k) :=
  fun marks => (h marks).bind fun a _ => hk a marks

theorem quiet_pure {a : α} : Quiet src (pure a) := fun _ => performs_pure trivial

theorem quiet_ofExcept {r : Except Fault α} : Quiet src (ofExcept r) :=
  fun _ => (performs_ofExcept r).mono fun _ _ => trivial

theorem quiet_throw {e : Fault} : Quiet src (throw e : EmitM α) := fun _ => performs_throw

theorem quiet_ask {g : Context → Except Fault α} : Quiet src (ask src g) := quiet_ofExcept

theorem quiet_map (g : α → β) (h : Quiet src act) : Quiet src (g <$> act) := by
  rw [map_eq_pure_bind]
  exact h.bind fun _ => quiet_pure

/-- The code and the marks are left alone. -/
theorem quiet_modifyGet {g : FunFrame → α × FunFrame}
    (hg : ∀ f, (g f).2.expanding = f.expanding ∧ (g f).2.code = f.code) : Quiet src (modifyGet g) :=
  fun _ f hf => (whichever_modifyGet g).mpr ⟨.of_code_eq ((hg f).1.trans hf) (hg f).2, trivial⟩

theorem quiet_get : Quiet src get := fun _ _ hf => (whichever_get _).mpr ⟨.of_code_eq hf rfl, trivial⟩

theorem quiet_emit {i : Instr} (hi : i.isCall = false) : Quiet src (emit i) :=
  fun _ _ hf => (whichever_modify _ _).mpr ⟨⟨hf, [i], by simp, by simp [hi]⟩, trivial⟩

/-- Code that ends with an instruction. -/
theorem quiet_finish {i : Instr} {a : α} (hi : i.isCall = false) : Quiet src (do emit i; return a) :=
  (quiet_emit hi).bind fun _ => quiet_pure

variable {value address result lhs rhs : Operand} {ty sourceTy targetTy operandTy rhsTy sumTy payloadTy : TypeId}
  {T : CodeType} {op : Operator} {n : UInt64} {v : VarId}

theorem quiet_spell : Quiet src (spell src ty) := fun _ => (performs_spell ty).mono fun _ _ => trivial

theorem quiet_requireTyped : Quiet src (requireTyped ty) := by
  unfold requireTyped
  split
  · exact quiet_throw
  · exact quiet_pure

theorem quiet_fresh : Quiet src fresh := quiet_modifyGet fun _ => ⟨rfl, rfl⟩

theorem quiet_newTemp : Quiet src newTemp := quiet_map _ quiet_fresh

theorem quiet_addSlot {slot : Alloca} : Quiet src (addSlot slot) := quiet_modifyGet fun _ => ⟨rfl, rfl⟩

theorem quiet_newSpill : Quiet src (newSpill T) :=
  quiet_fresh.bind fun _ => quiet_addSlot.bind fun _ => quiet_pure

theorem quiet_spill : Quiet src (spill value T) :=
  quiet_newSpill.bind fun _ => quiet_finish rfl

theorem quiet_slotOf : Quiet src (slotOf src v) := by
  unfold slotOf
  refine quiet_get.bind fun f => ?_
  split
  · exact quiet_pure
  · refine (quiet_modifyGet fun _ => ⟨rfl, rfl⟩).bind fun _ => quiet_ask.bind fun var => ?_
    exact quiet_spell.bind fun _ => quiet_addSlot.bind fun _ => quiet_pure

theorem quiet_comment {text : String} : Quiet src (comment src text) := by
  unfold comment
  split
  · exact quiet_emit rfl
  · exact quiet_pure

theorem quiet_intLiteral : Quiet src (intLiteral src n ty) :=
  quiet_spell.bind fun _ => quiet_ofExcept.bind fun _ => quiet_pure

theorem quiet_floatLiteral : Quiet src (floatLiteral src n ty) := by
  refine quiet_ask.bind fun t => ?_
  split
  · exact quiet_pure
  · exact quiet_throw

theorem quiet_resize : Quiet src (resize src value ty T) := by
  refine quiet_spell.bind fun spelling => quiet_ofExcept.bind fun _ => quiet_ofExcept.bind fun _ => ?_
  split
  · exact quiet_pure
  · have finish : ∀ op, Quiet src (do
        let result ← newTemp
        emit (.convert result op spelling value T)
        return result) :=
      fun _ => quiet_newTemp.bind fun _ => quiet_finish rfl
    split
    · exact quiet_ask.bind fun _ => quiet_pure.bind finish
    · exact quiet_pure.bind finish

theorem quiet_compare {op : BinaryOp} {widen : ConvertOp} : Quiet src (compare result op widen T lhs rhs) :=
  quiet_newTemp.bind fun _ => (quiet_emit rfl).bind fun _ => quiet_finish rfl

theorem quiet_arithmetic {family : OperandFamily} {op : Option BinaryOp} :
    Quiet src (arithmetic family result op T lhs rhs) := by
  cases op with
  | some op => exact quiet_finish rfl
  | none => exact quiet_throw

theorem quiet_pointerStep {pointee : TypeId} {back : Bool} :
    Quiet src (pointerStep src result pointee back T lhs rhs rhsTy) := by
  refine quiet_resize.bind fun index => ?_
  have finish : ∀ index, Quiet src (do
      let element ← spell src pointee
      emit (.offset result element T lhs index)
      return result) :=
    fun _ => quiet_spell.bind fun _ => quiet_finish rfl
  split
  · exact quiet_newTemp.bind fun _ => (quiet_emit rfl).bind fun _ => quiet_pure.bind finish
  · exact quiet_pure.bind finish

theorem quiet_pointerEq : Quiet src (pointerEq src result T lhs rhs rhsTy) := by
  refine quiet_spell.bind fun spelling => ?_
  have finish : ∀ rhs, Quiet src (do
      emit (.binary result (.icmp .eq) T lhs rhs)
      return result) := fun _ => quiet_finish rfl
  split
  · exact quiet_pure.bind finish
  · exact quiet_newTemp.bind fun _ => (quiet_emit rfl).bind fun _ => quiet_pure.bind finish

theorem quiet_pointerArithmetic {rhsIsPtr : Bool} :
    Quiet src (pointerArithmetic src result op T lhs rhs rhsIsPtr rhsTy) := by
  unfold pointerArithmetic
  refine quiet_newTemp.bind fun left => (quiet_emit rfl).bind fun _ => ?_
  -- How the operation ends does not depend on how the right operand becomes a number.
  have finish : ∀ {k : Operand → EmitM Operand}, (∀ right, Quiet src (k right)) →
      Quiet src (if rhsIsPtr then do
          let right ← newTemp
          emit (.convert right .ptrtoint (← spell src rhsTy) rhs (.int 64))
          k (← pure right)
        else do k (← resize src rhs rhsTy (.int 64))) := by
    intro k hk
    split
    · exact quiet_newTemp.bind fun _ => quiet_spell.bind fun _ => (quiet_emit rfl).bind fun _ =>
        quiet_pure.bind hk
    · exact quiet_resize.bind hk
  refine finish fun right => ?_
  cases addressOp? op with
  | none => exact quiet_throw
  | some op =>
    exact quiet_newTemp.bind fun _ => (quiet_emit rfl).bind fun _ => quiet_finish rfl

theorem quiet_binaryCode {l r : Ty} : Quiet src (binaryCode src result op l r T lhs rhs rhsTy) := by
  cases l with
  | bool => exact quiet_finish rfl
  | int | float =>
    simp only [binaryCode, intBinary, floatBinary]
    split
    · exact quiet_compare
    · exact quiet_arithmetic
  | ptr pointee =>
    simp only [binaryCode, pointerBinary]
    split
    · exact quiet_pointerStep
    · split
      · exact quiet_pointerEq
      · exact quiet_pointerArithmetic
  | _ => exact quiet_throw

theorem quiet_negation : Quiet src (negation src T operandTy value) := by
  refine quiet_newTemp.bind fun _ => quiet_ask.bind fun t => ?_
  split
  · exact quiet_finish rfl
  · exact quiet_finish rfl

theorem quiet_complement : Quiet src (complement src T operandTy value) := by
  refine quiet_newTemp.bind fun _ => quiet_ask.bind fun t => ?_
  split
  · refine quiet_newTemp.bind fun _ => quiet_newTemp.bind fun _ => (quiet_emit rfl).bind fun _ => ?_
    exact (quiet_emit rfl).bind fun _ => quiet_finish rfl
  · exact quiet_finish rfl

theorem quiet_castCode : Quiet src (castCode src value sourceTy targetTy) := by
  unfold castCode
  refine quiet_spell.bind fun source => quiet_spell.bind fun target => ?_
  split
  · exact quiet_pure
  · refine quiet_ask.bind fun s => quiet_ask.bind fun g => ?_
    refine quiet_ask.bind fun st => quiet_ask.bind fun gt => ?_
    refine quiet_newTemp.bind fun result => ?_
    split
    · exact quiet_spill.bind fun _ => quiet_newTemp.bind fun _ =>
        (quiet_emit rfl).bind fun _ => quiet_finish rfl
    · split
      · exact quiet_resize
      · split
        · exact quiet_finish rfl
        · exact quiet_throw

theorem quiet_payloadAddress : Quiet src (payloadAddress src address sumTy payloadTy) := by
  unfold payloadAddress
  refine quiet_spell.bind fun sum => quiet_ask.bind fun t => ?_
  split
  · refine quiet_ask.bind fun _ => quiet_newTemp.bind fun _ => (quiet_emit rfl).bind fun _ => ?_
    exact quiet_newTemp.bind fun _ => quiet_spell.bind fun _ => quiet_finish rfl
  · exact quiet_throw

theorem quiet_injectCode {variant : VariantId} :
    Quiet src (injectCode src variant value payloadTy sumTy) := by
  refine quiet_spell.bind fun _ => quiet_newSpill.bind fun _ => quiet_newTemp.bind fun _ => ?_
  refine (quiet_emit rfl).bind fun _ => (quiet_emit rfl).bind fun _ => ?_
  refine quiet_payloadAddress.bind fun _ => quiet_spell.bind fun _ => (quiet_emit rfl).bind fun _ => ?_
  exact quiet_newTemp.bind fun _ => quiet_finish rfl

theorem quiet_projectCode : Quiet src (projectCode src address sumTy payloadTy) :=
  quiet_payloadAddress.bind fun _ => quiet_spell.bind fun _ => quiet_newTemp.bind fun _ =>
    quiet_finish rfl

theorem quiet_conditionBit : Quiet src (conditionBit src ty value) := by
  refine quiet_ask.bind fun t => ?_
  split
  · exact quiet_pure
  · refine quiet_spell.bind fun _ => quiet_newTemp.bind fun _ => ?_
    split
    · exact quiet_finish rfl
    · exact quiet_finish rfl

end Performs

/-! ## (2) Values -/

/-- Looking for the address of a value has performed its calls, or it has done nothing. -/
def Tries (src : Source) (marks : List TypeId) (v : Value) : Prop :=
  ∀ f, f.expanding = marks → Whichever (emitAddress src v) f
    (fun a f' => a = none ∧ f' = f ∨ a ≠ none ∧ Adds src marks v.calls f f')
    fun e f' => Leaves src.types marks e f'.expanding

section Values

variable {src : Source} {marks : List TypeId} {v : Value}

theorem Tries.bind {β : Type} {k : Option Operand → EmitM β} {R : β → Prop} (h : Tries src marks v)
    (hnone : Performs src marks v.calls (k none) R) (hsome : ∀ a, Performs src marks [] (k (some a)) R) :
    Performs src marks v.calls (emitAddress src v >>= k) R := by
  intro f hf
  rw [whichever_bind]
  refine (h f hf).mono (fun a f1 h1 => ?_) fun _ _ hr => hr
  rcases h1 with ⟨rfl, rfl⟩ | ⟨ha, hadds⟩
  · exact hnone f1 hf
  · obtain ⟨a, rfl⟩ := Option.ne_none_iff_exists'.mp ha
    exact (hsome a f1 hadds.1).mono (fun b f2 h2 => ⟨hadds.andNone h2.1, h2.2⟩) fun _ _ hr => hr

theorem tries_none (h : emitAddress src v = pure none) : Tries src marks v := by
  intro f _
  rw [h, whichever_pure]
  exact .inl ⟨rfl, rfl⟩

theorem tries_some {act : EmitM Operand} {Q : Operand → Prop} (heq : emitAddress src v = some <$> act)
    (h : Performs src marks v.calls act Q) : Tries src marks v := by
  intro f hf
  rw [heq, map_eq_pure_bind, whichever_bind]
  refine (h f hf).mono (fun a f1 h1 => ?_) fun _ _ hr => hr
  rw [whichever_pure]
  exact .inr ⟨Option.some_ne_none a, h1.1⟩

variable (src marks)

mutual

/-- The code of a value performs its calls; an operand that needs no code is named. -/
theorem performs_emitValue : ∀ v : Value, Performs src marks v.calls (emitValue src v) (Denotes src v)
  | .int value ty span => by
    rw [emitValue]
    exact quiet_requireTyped.andThen fun _ => quiet_intLiteral marks
  | .float bits ty span => by
    rw [emitValue]
    exact quiet_requireTyped.andThen fun _ => quiet_floatLiteral marks
  | .bool value ty span | .unit ty span | .arg index ty span => by
    rw [emitValue]
    exact quiet_requireTyped.andThen fun _ => performs_pure rfl
  | .var v ty span => by
    rw [emitValue]
    refine quiet_requireTyped.andThen fun _ => quiet_slotOf.andThen fun _ => ?_
    exact (quiet_spell.bind fun _ => quiet_newTemp.bind fun _ => quiet_finish rfl) marks
  | .func fn ty span => by
    rw [emitValue]
    refine quiet_requireTyped.andThen fun _ => ?_
    exact (performs_ofExcept _).last fun f hf => performs_pure ⟨f, Arena.get_eq_ok.mp hf, rfl⟩
  | .binary lhs op rhs ty span => by
    rw [emitValue]
    refine quiet_requireTyped.andThen fun _ => quiet_ask.andThen fun _ => ?_
    refine quiet_ask.andThen fun _ => quiet_spell.andThen fun _ => ?_
    refine (performs_emitValue lhs).bind fun _ _ => (performs_emitValue rhs).last fun _ _ => ?_
    exact quiet_newTemp.andThen fun _ => quiet_binaryCode marks
  | .unary op operand ty span => by
    have hv := performs_emitValue operand
    rw [emitValue]
    refine quiet_requireTyped.andThen fun _ => quiet_spell.andThen fun _ => ?_
    split
    · exact hv.last fun _ _ => (quiet_newTemp.bind fun _ => quiet_spell.bind fun _ => quiet_finish rfl) marks
    · refine (tries_emitAddress operand).bind ?_ fun _ => performs_pure trivial
      exact quiet_spell.andThen fun _ => hv.last fun _ _ => quiet_spill marks
    · exact hv.last fun _ _ => quiet_negation marks
    · exact hv.last fun _ _ => quiet_complement marks
    · exact performs_throw
  | .cast operand ty span => by
    rw [emitValue]
    refine quiet_requireTyped.andThen fun _ => (performs_emitValue operand).last fun _ _ => ?_
    exact quiet_castCode marks
  | .member base field ty span => by
    rw [emitValue]
    refine quiet_requireTyped.andThen fun _ => (performs_emitValue base).last fun _ _ => ?_
    exact (quiet_newTemp.bind fun _ => quiet_spell.bind fun _ => quiet_finish rfl) marks
  | .call callee args ty span => by
    rw [emitValue, Value.calls, List.append_assoc]
    refine quiet_requireTyped.andThen fun _ => (performs_emitValue callee).bind fun o ho => ?_
    refine (performs_emitArgs args).bind fun codes hcodes => quiet_newTemp.andThen fun _ => ?_
    refine Performs.bind (performs_spell ty) fun T hT => ?_
    exact (performs_emit (.intro ho hT hcodes) rfl).last fun _ _ => performs_pure trivial
  | .inject variant payload ty span => by
    rw [emitValue]
    refine quiet_requireTyped.andThen fun _ => (performs_emitValue payload).last fun _ _ => ?_
    exact quiet_injectCode marks
  | .project sum variant ty span => by
    rw [emitValue]
    refine quiet_requireTyped.andThen fun _ => (tries_emitAddress sum).bind ?_ fun _ => ?_
    · refine quiet_spell.andThen fun _ => (performs_emitValue sum).last fun _ _ => ?_
      exact quiet_spill.andThen fun _ => quiet_projectCode marks
    · exact quiet_projectCode marks

theorem tries_emitAddress : ∀ v : Value, Tries src marks v
  | .var v ty span => tries_some (by rw [emitAddress]) (quiet_slotOf marks)
  | .member base field ty span => by
    intro f hf
    rw [emitAddress, whichever_bind]
    refine (tries_emitAddress base f hf).mono (fun a f1 h1 => ?_) fun _ _ hr => hr
    rcases h1 with ⟨rfl, rfl⟩ | ⟨ha, hadds⟩
    · exact (whichever_pure _).mpr (.inl ⟨rfl, rfl⟩)
    · obtain ⟨a, rfl⟩ := Option.ne_none_iff_exists'.mp ha
      have hrest : Performs src marks [] (do
          let baseTy ← spell src base.ty
          let result ← newTemp
          emit (.field result baseTy a field)
          return some result) (· ≠ none) :=
        quiet_spell.andThen fun _ => quiet_newTemp.andThen fun o => (quiet_emit rfl).andThen fun _ =>
          performs_pure (Option.some_ne_none o)
      exact (hrest f1 hadds.1).mono (fun _ _ h2 => .inr ⟨h2.2, hadds.andNone h2.1⟩) fun _ _ hr => hr
  | .unary op operand ty span => by
    cases op with
    | star => exact tries_some (by rw [emitAddress]) (performs_emitValue operand)
    | _ => exact tries_none rfl
  | .int _ _ _ | .float _ _ _ | .bool _ _ _ | .unit _ _ | .arg _ _ _ | .func _ _ _ | .binary _ _ _ _ _ | .cast _ _ _
  | .call _ _ _ _ | .inject _ _ _ _ | .project _ _ _ _ => tries_none (by rw [emitAddress]; all_goals simp)

theorem performs_emitArgs : ∀ vs : List Value, Performs src marks (Value.callsOf vs) (emitArgs src vs) fun codes =>
    List.Forall₂ (fun v code => spellType src.types v.ty marks = .ok code.1 marks ∧ Denotes src v code.2) vs codes
  | [] => by
    rw [emitArgs]
    exact performs_pure .nil
  | v :: rest => by
    rw [emitArgs]
    refine (performs_emitValue v).bind fun o ho => Performs.bind (performs_spell v.ty) fun T hT => ?_
    exact (performs_emitArgs rest).last fun codes hcodes => performs_pure (.cons ⟨hT, ho⟩ hcodes)

end

end Values

/-! ## (3) Typed values -/

/-- `f` and `g`, and `main` with `*&f() + g(f(), f())`. What is read through the address is a call. -/
def sampleCalls : Surface.Module where
  name := "calls"
  file := 0
  types := []
  funs :=
    let i32 := .int ⟨true, .w32⟩ .none
    let f := .call (.name "f" .none) [] .none
    [⟨"f", [], i32, {}, none, .none⟩, ⟨"g", [⟨i32, some "a"⟩, ⟨i32, some "b"⟩], i32, {}, none, .none⟩,
      ⟨"main", [], i32, {}, some [.ret (some (.binary (.unary .star (.unary .bitAnd f .none) .none) .add
        (.call (.name "g" .none) [f, f] .none) .none)) .none], .none⟩]

end Target

end BlockCompiler
