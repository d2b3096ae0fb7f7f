/-
  BlockCompiler.Proofs.Frames — what a frame keeps while code is made.

  A frame is tidy (`Setup.Tidy`) if its instructions are closed, and typed where that is
  asked for, and if no number is used twice: not by temporaries, not by spill slots, and not by
  those temporaries that were handed out but are not defined yet. They are reserved. Some of them
  never are defined, so a reservation may be given up (`Orderly.release`). Where nothing is asked
  for, a frame only has to have the marks of the setup (`Setup.Orderly`).

  (1) What code is made from: the setup, and what holds of spellings in it (`Setup.Sound`).
  (2) Orderly frames, and how they change.
  (3) `Emits K R act f Q`: the step gives a result, it has only added to the frame, the
      frame is orderly again with the numbers `R` reserved, and `Q` holds of both. One rule for
      each step on frames (`emits_define`, `emits_newTemp`, `emits_slotOf`).
-/
import BlockCompiler.Proofs.TargetTyping

namespace BlockCompiler.Target

open Array (toList_push)
open List (append_assoc map_cons map_nil mem_append mem_cons mem_map mem_singleton)
open List.Perm (append_left)
open TypeTable (StandsFor Usable)
open FunFrame

variable {i n : Nat} {T ty : CodeType}

/-! ## (1) Setups -/

/-- What the code of a function is made from, the marks on aliases while it is made, and the named
types and functions of the module around it. `closed`: whether what is used is to be defined.
`strict`: whether types are to agree. -/
structure Setup where
  closed : Prop
  strict : Prop
  closed_of_strict : strict → closed
  src : Source
  marks : List TypeId
  params : List Parameter
  types : List (String × CodeType)
  funs : List (String × CodeType)

namespace Setup

variable {double signed : Bool}

abbrev table (K : Setup) : TypeTable := K.src.types

def code (K : Setup) (id : TypeId) : CodeType := spelling K.table K.marks id

/-- The type of a function, as a pointer. -/
def signatureCode (K : Setup) (signature : Signature) : CodeType :=
  .func (K.code signature.result) (signature.params.map fun p => K.code p.ty)

def scene (K : Setup) : Scene := { types := K.types, funs := K.funs, params := K.params.map fun p => K.code p.ty }

/-- All named types in the type are defined, if what is used is to be defined. -/
def Declares (K : Setup) (T : CodeType) : Prop := K.closed → K.scene.Declares T

theorem declares_int (K : Setup) (w : Nat) : K.Declares (.int w) := fun _ => K.scene.declares_int w

/-- The type of a field, if types are to agree. -/
def FieldOf (K : Setup) (T : CodeType) (i : Nat) (F : CodeType) : Prop := K.strict → HasField K.types T i F

/-- Aliases of structs and sums are defined in the module and functions are declared in it. If types
are to agree, no other alias has a spelling of its own, and integers are wider than a bit. -/
structure Sound (K : Setup) : Prop extends usable : K.table.Usable where
  named : K.closed → ∀ id name u v ty, K.table.get? id = some (.named name u) → StandsFor K.table id v →
    K.table.get? v = some ty → ty.isAggregate = true → (name, codeOf K.table K.code ty) ∈ K.types
  funs : K.closed → ∀ fn f, K.src.funs.get? fn = some f → (f.name, K.signatureCode f.signature) ∈ K.funs
  transparent : K.strict → ∀ id v ty, StandsFor K.table id v → K.table.get? v = some ty →
    ty.isAggregate = false → K.code id = K.code v
  wide : K.strict → ∀ id signed w, K.table.get? id = some (.int signed w) → 1 < w

variable {K : Setup} (hK : K.Sound) {id v : TypeId} {ty : Ty}
include hK

theorem code_eq (hid : K.table.Proper id) (hty : K.table.get? id = some ty) (hnn : ty.isNamed = false) :
    K.code id = codeOf K.table K.code ty := spelling_eq hK.usable hid hty hnn K.marks

theorem declares_code (hid : K.table.Proper id) : K.Declares (K.code id) := by
  intro hclosed name hname
  obtain ⟨a, u, ha, hagg⟩ := named_of_mem_names hK.usable hid K.marks hname
  obtain ⟨-, v, ty, hv, hty, hshape⟩ := isNamedAggregate_true hagg
  obtain ⟨v', hv', hst⟩ := hK.sound.whole.unwrapAlias_standsFor hK.acyclic (Interner.get?_lt ha)
  obtain rfl : v' = v := by
    rw [hv] at hv'
    exact (Except.ok.inj hv').symm
  have hshape' : ty.isAggregate = true := by
    rcases hshape with ⟨fields, rfl⟩ | ⟨variants, rfl⟩ <;> rfl
  exact mem_map.mpr ⟨_, hK.named hclosed a name u v' ty ha hst hty hshape', rfl⟩

/-- A type that stands for a struct or sum is spelled as it, or by a name that is defined as it. -/
theorem fieldOf_standsFor (hst : StandsFor K.table id v) (hv : K.table.get? v = some ty)
    (hagg : ty.isAggregate = true) (hf : HasField K.types (codeOf K.table K.code ty) i T) :
    K.FieldOf (K.code id) i T := by
  intro hstrict
  have hnn : ty.isNamed = false := by cases ty <;> first | rfl | cases hagg
  have hne : ty ≠ .invalid := by rintro rfl; cases hagg
  cases hst with
  | itself he _ =>
    rw [code_eq hK (hK.sound.proper_of_get? hv hne) hv hnn]
    exact hf
  | through he hst =>
    have hnamed := isNamedAggregate_eq he (.through he hst) hv
    rw [hagg] at hnamed
    rw [code, spelling_aggregate hK.usable he hnamed]
    exact .named (hK.named (K.closed_of_strict hstrict) _ _ _ v ty he (.through he hst) hv hagg) hf

theorem fieldOf_struct {fields : List Field} {field : Field} (hst : StandsFor K.table id v)
    (hv : K.table.get? v = some (.struct fields)) (hi : fields[i]? = some field) :
    K.FieldOf (K.code id) i (K.code field.ty) := by
  refine fieldOf_standsFor hK hst hv rfl (.struct ?_)
  rw [List.getElem?_map, hi]
  rfl

theorem fieldOf_tag {variants : List TypeId} (hst : StandsFor K.table id v)
    (hv : K.table.get? v = some (.sum variants)) : K.FieldOf (K.code id) 0 (.int 32) :=
  fieldOf_standsFor hK hst hv rfl (.struct rfl)

theorem code_int {w : Nat} (hty : K.table.get? id = some (.int signed w)) : K.code id = .int w :=
  code_eq hK (hK.sound.proper_of_get? hty (by simp)) hty rfl

/-- What stands for an integer is spelled as one. -/
theorem exists_code_int {w : Nat} (hst : StandsFor K.table id v) (hv : K.table.get? v = some (.int signed w))
    : ∃ width, K.code id = .int width :=
  (spelled_spelling hK.usable (hst.proper hK.sound hv (by simp)) K.marks).spells v signed w hst hv

theorem code_float (hty : K.table.get? id = some (.float double)) : K.code id = if double then .double else .float :=
  code_eq hK (hK.sound.proper_of_get? hty (by simp)) hty rfl

theorem isFloat_code (hty : K.table.get? id = some (.float double)) : (K.code id).isFloat = true := by
  rw [code_float hK hty]
  split <;> rfl

theorem code_bool (hty : K.table.get? id = some .bool) : K.code id = .int 1 :=
  code_eq hK (hK.sound.proper_of_get? hty (by simp)) hty rfl

theorem code_ptr {p : TypeId} (hty : K.table.get? id = some (.ptr p)) : K.code id = .ptr (K.code p) :=
  code_eq hK (hK.sound.proper_of_get? hty (by simp)) hty rfl

theorem code_func {signature : Signature} (hty : K.table.get? id = some (.func signature)) :
    K.code id = K.signatureCode signature :=
  code_eq hK (hK.sound.proper_of_get? hty (by simp)) hty rfl

end Setup

/-! ## (2) Frames -/

/-- The number in the name of a temporary or spill slot. -/
def Operand.number? : Operand → Option Nat
  | temp n | spill n => some n
  | _ => none

def Instr.number? (i : Instr) : Option Nat := i.result?.bind Operand.number?

def Alloca.number? (a : Alloca) : Option Nat := a.slot.number?

namespace FunFrame

/-- The numbers that are used in a frame. -/
def numbers (f : FunFrame) : List Nat :=
  f.code.toList.filterMap Instr.number? ++ f.slots.toList.filterMap Alloca.number?

/-- The second frame has what the first has, and perhaps more. -/
structure Before (f f' : FunFrame) : Prop where
  slots : f.slots.toList ⊆ f'.slots.toList
  code : f.code.toList ⊆ f'.code.toList

theorem Before.refl (f : FunFrame) : f.Before f := ⟨fun _ h => h, fun _ h => h⟩

theorem Before.trans {f g h : FunFrame} (hfg : f.Before g) (hgh : g.Before h) : f.Before h :=
  ⟨fun _ ha => hgh.slots (hfg.slots ha), fun _ hi => hgh.code (hfg.code hi)⟩

end FunFrame

namespace Setup

/-- The instruction is as closed and typed as it is to be. -/
def Accepts (K : Setup) (slots : List Alloca) (code : List Instr) (i : Instr) : Prop :=
  (K.closed → i.Closed K.scene slots code) ∧ (K.strict → i.Typed K.scene slots code)

/-- The operand is defined if it is to be, with this type if types are to agree. -/
def Knows (K : Setup) (f : FunFrame) (o : Operand) (T : CodeType) : Prop :=
  (K.closed → o.Known K.scene f.slots.toList f.code.toList) ∧
    (K.strict → o.Fits K.scene f.slots.toList f.code.toList T)

/-- What comments say: the name of a variable, or where its life starts. -/
def Notes (K : Setup) (note : String) : Prop :=
  ∃ v var, K.src.vars.get? v = some var ∧ (note = var.name ∨ note = "live " ++ var.name)

/-- The slot is that of a variable, with its type, or a spill slot. -/
def Owns (K : Setup) (a : Alloca) : Prop :=
  (∃ v var, a.slot = .slot v ∧ K.src.vars.get? v = some var ∧ a.ty = K.code var.ty) ∨ ∃ n, a.slot = .spill n

/-- `prior`: the numbers of the temporaries in earlier blocks. -/
structure Tidy (K : Setup) (prior : List Nat) (f : FunFrame) (reserved : List Nat) : Prop where
  distinct : (prior ++ f.numbers ++ reserved).Nodup
  below : ∀ n ∈ prior ++ f.numbers ++ reserved, n < f.counter
  placed : ∀ v, v ∈ f.placed ↔ .slot v ∈ f.slots.toList.map (·.slot)
  slots : (f.slots.toList.map (·.slot)).Nodup
  owned : ∀ a ∈ f.slots.toList, K.Owns a ∧ K.scene.Declares a.ty ∧ ∀ note ∈ a.comment, K.Notes note
  results : ∀ i ∈ f.code.toList, ∀ o, i.result? = some o → ∃ n, o = .temp n
  notes : ∀ note, .comment note ∈ f.code.toList → K.Notes note
  code : ∀ k i, f.code.toList[k]? = some i → K.Accepts f.slots.toList (f.code.toList.take k) i

/-- The frame has the marks of the setup, and is tidy if what is used is to be defined. -/
structure Orderly (K : Setup) (prior : List Nat) (f : FunFrame) (reserved : List Nat) : Prop where
  marks : f.expanding = K.marks
  tidy : K.closed → K.Tidy prior f reserved

variable {K : Setup} {prior R : List Nat} {f f' : FunFrame} {o : Operand} {T : CodeType}

theorem Accepts.mono {slots slots' : List Alloca} {code code' : List Instr} {i : Instr} (hs : slots ⊆ slots')
    (hc : code ⊆ code') (h : K.Accepts slots code i) : K.Accepts slots' code' i :=
  ⟨fun hclosed => (h.1 hclosed).mono hs hc, fun hstrict => (h.2 hstrict).mono hs hc⟩

theorem Knows.before (h : K.Knows f o T) (hle : f.Before f') : K.Knows f' o T :=
  ⟨fun hclosed => (h.1 hclosed).mono hle.slots hle.code, fun hstrict => (h.2 hstrict).mono hle.slots hle.code⟩

theorem Knows.of_has (h : K.closed → o.Has K.scene f.slots.toList f.code.toList T) : K.Knows f o T :=
  ⟨fun hclosed => (h hclosed).known, fun hstrict => ⟨T, h (K.closed_of_strict hstrict), rfl⟩⟩

theorem Knows.of_text {U : CodeType} (h : K.Knows f o T) (ht : K.strict → T.text = U.text) : K.Knows f o U := by
  refine ⟨h.1, fun hstrict => ?_⟩
  obtain ⟨V, hV, hVt⟩ := h.2 hstrict
  exact ⟨V, hV, hVt.trans (ht hstrict)⟩

/-- An instruction whose operands are known and whose types go together is accepted. -/
theorem accepts_of {i : Instr} (hu : ∀ u ∈ i.uses, K.Knows f u.1 u.2) (ht : ∀ T ∈ i.types, K.Declares T)
    (hp : K.strict → i.Proper K.types) : K.Accepts f.slots.toList f.code.toList i :=
  ⟨fun hclosed => ⟨fun u hmem => (hu u hmem).1 hclosed, fun T hT => ht T hT hclosed⟩,
    fun hstrict => ⟨fun u hmem => (hu u hmem).2 hstrict, hp hstrict⟩⟩

section Accepts

variable {ty : CodeType} {result value address lhs rhs : Operand}

theorem accepts_store (hv : K.Knows f value ty) (ha : K.Knows f address ty.ptr) (hty : K.Declares ty) :
    K.Accepts f.slots.toList f.code.toList (.store ty value address) :=
  accepts_of (by simp [Instr.uses, hv, ha]) (by simp [Instr.types, hty]) fun _ => trivial

theorem accepts_load {addressTy : CodeType} (ha : K.Knows f address addressTy) (hty : K.Declares ty)
    (haty : K.Declares addressTy) (ht : K.strict → addressTy.text = ty.text ++ "*") :
    K.Accepts f.slots.toList f.code.toList (.load result ty addressTy address) :=
  accepts_of (by simp [Instr.uses, ha]) (by simp [Instr.types, hty, haty]) ht

theorem accepts_extract (hv : K.Knows f value ty) (hty : K.Declares ty) (hf : K.FieldOf ty i T) :
    K.Accepts f.slots.toList f.code.toList (.extract result ty value i) :=
  accepts_of (by simp [Instr.uses, hv]) (by simp [Instr.types, hty]) fun hstrict => ⟨T, hf hstrict⟩

theorem accepts_field (ha : K.Knows f address ty.ptr) (hty : K.Declares ty) (hf : K.FieldOf ty i T) :
    K.Accepts f.slots.toList f.code.toList (.field result ty address i) :=
  accepts_of (by simp [Instr.uses, ha]) (by simp [Instr.types, hty]) fun hstrict => ⟨T, hf hstrict⟩

theorem accepts_binary {op : BinaryOp} (hl : K.Knows f lhs ty) (hr : K.Knows f rhs ty) (hty : K.Declares ty)
    (hop : op.Takes ty) : K.Accepts f.slots.toList f.code.toList (.binary result op ty lhs rhs) :=
  accepts_of (by simp [Instr.uses, hl, hr]) (by simp [Instr.types, hty]) fun _ => hop

theorem accepts_convert {op : ConvertOp} {target : CodeType} (hv : K.Knows f value ty) (hty : K.Declares ty)
    (htarget : K.Declares target) (hop : K.strict → op.Between ty target) :
    K.Accepts f.slots.toList f.code.toList (.convert result op ty value target) :=
  accepts_of (by simp [Instr.uses, hv]) (by simp [Instr.types, hty, htarget]) hop

theorem accepts_call {callee : Operand} {args : List (CodeType × Operand)}
    (hcallee : K.Knows f callee (.func ty (args.map (·.1)))) (hargs : ∀ a ∈ args, K.Knows f a.2 a.1)
    (hty : K.Declares ty) (htys : ∀ a ∈ args, K.Declares a.1) :
    K.Accepts f.slots.toList f.code.toList (.call result ty callee args) := by
  refine accepts_of (fun u hu => ?_) (fun T hT => ?_) fun _ => trivial
  · rcases mem_cons.mp hu with rfl | hu
    · exact hcallee
    · obtain ⟨a, ha, rfl⟩ := mem_map.mp hu
      exact hargs a ha
  · rcases mem_cons.mp hT with rfl | hT
    · exact hty
    · obtain ⟨a, ha, rfl⟩ := mem_map.mp hT
      exact htys a ha

end Accepts

namespace Tidy

theorem release (h : K.Tidy prior f (n :: R)) : K.Tidy prior f R where
  distinct := h.distinct.sublist (List.Sublist.append_left (List.sublist_cons_self n R) _)
  below m hm := h.below m (by simp only [mem_append, mem_cons] at hm ⊢; tauto)
  placed := h.placed
  slots := h.slots
  owned := h.owned
  results := h.results
  notes := h.notes
  code := h.code

theorem swap {m : Nat} (h : K.Tidy prior f (m :: n :: R)) : K.Tidy prior f (n :: m :: R) where
  distinct := (append_left _ (List.Perm.swap n m R)).nodup h.distinct
  below k hk := h.below k (by simp only [mem_append, mem_cons] at hk ⊢; tauto)
  placed := h.placed
  slots := h.slots
  owned := h.owned
  results := h.results
  notes := h.notes
  code := h.code

theorem reserve (h : K.Tidy prior f R) : K.Tidy prior { f with counter := f.counter + 1 } (f.counter :: R) where
  distinct := by
    have hnew : f.counter ∉ prior ++ f.numbers ++ R := fun hmem => Nat.lt_irrefl _ (h.below _ hmem)
    exact List.perm_middle.symm.nodup (List.nodup_cons.mpr ⟨hnew, h.distinct⟩)
  below n hn := by
    rw [List.perm_middle.mem_iff, mem_cons] at hn
    rcases hn with rfl | hn
    · exact Nat.lt_succ_self _
    · exact Nat.lt_succ_of_lt (h.below n hn)
  placed := h.placed
  slots := h.slots
  owned := h.owned
  results := h.results
  notes := h.notes
  code := h.code

/-- An instruction may be added if it is accepted and the number it defines was reserved. -/
theorem push {i : Instr} (h : K.Tidy prior f (i.number?.toList ++ R))
    (hres : ∀ o, i.result? = some o → ∃ n, o = .temp n) (hnote : ∀ note, i = .comment note → K.Notes note)
    (hok : K.Accepts f.slots.toList f.code.toList i) : K.Tidy prior { f with code := f.code.push i } R := by
  have hperm : (prior ++ f.numbers ++ (i.number?.toList ++ R)).Perm
      (prior ++ FunFrame.numbers { f with code := f.code.push i } ++ R) := by
    simp only [FunFrame.numbers, toList_push, List.filterMap_append, append_assoc]
    refine append_left _ (append_left _ ?_)
    have hsingle : List.filterMap Instr.number? [i] = i.number?.toList := by
      cases hn : i.number? <;> simp [hn]
    rw [hsingle, ← append_assoc, ← append_assoc]
    exact List.Perm.append_right _ List.perm_append_comm
  refine ⟨hperm.nodup h.distinct, fun n hn => h.below n (hperm.mem_iff.mpr hn), h.placed, h.slots,
    h.owned, fun j hj => ?_, fun note hj => ?_, fun k j hj => ?_⟩
  · rw [toList_push, mem_append, mem_singleton] at hj
    rcases hj with hj | rfl
    · exact h.results j hj
    · exact hres
  · rw [toList_push, mem_append, mem_singleton] at hj
    rcases hj with hj | hj
    · exact h.notes note hj
    · exact hnote note hj.symm
  · rw [toList_push] at hj ⊢
    by_cases hk : k < f.code.toList.length
    · rw [List.getElem?_append_left hk] at hj
      rw [List.take_append_of_le_length hk.le]
      exact h.code k j hj
    · rw [List.getElem?_append_right (Nat.le_of_not_lt hk)] at hj
      obtain ⟨hlt, rfl⟩ := List.getElem?_eq_some_iff.mp hj
      have hk' : k = f.code.toList.length := by simp only [List.length_singleton] at hlt; omega
      subst hk'
      simpa using hok

/-- A slot may be added if it is new and its number, if it has one, was reserved. -/
theorem addSlot {a : Alloca} {placed : List VarId} (h : K.Tidy prior f (a.number?.toList ++ R))
    (hplaced : ∀ v, v ∈ placed ↔ v ∈ f.placed ∨ a.slot = .slot v) (hnew : a.slot ∉ f.slots.toList.map (·.slot))
    (howned : K.Owns a) (hty : K.scene.Declares a.ty) (hnote : ∀ note ∈ a.comment, K.Notes note) :
    K.Tidy prior { f with slots := f.slots.push a, placed } R := by
  have hperm : (prior ++ f.numbers ++ (a.number?.toList ++ R)).Perm
      (prior ++ FunFrame.numbers { f with slots := f.slots.push a, placed } ++ R) := by
    simp only [FunFrame.numbers, toList_push, List.filterMap_append, append_assoc]
    refine append_left _ (append_left _ (append_left _ ?_))
    have hsingle : List.filterMap Alloca.number? [a] = a.number?.toList := by
      cases hn : a.number? <;> simp [hn]
    rw [hsingle]
  have hsubset : f.slots.toList ⊆ (f.slots.push a).toList := by simp
  refine ⟨hperm.nodup h.distinct, fun n hn => h.below n (hperm.mem_iff.mpr hn), fun v => ?_, ?_,
    fun b hb => ?_, h.results, h.notes, fun k j hj => (h.code k j hj).mono hsubset fun _ hi => hi⟩
  · simp only [hplaced v, h.placed v, toList_push, List.map_append, mem_append, map_cons,
      map_nil, mem_singleton]
    exact or_congr_right eq_comm
  · simp only [toList_push, List.map_append, map_cons, map_nil]
    exact List.perm_append_comm.nodup (List.nodup_cons.mpr ⟨hnew, h.slots⟩)
  · rw [toList_push, mem_append, mem_singleton] at hb
    rcases hb with hb | rfl
    · exact h.owned b hb
    · exact ⟨howned, hty, hnote⟩

end Tidy

theorem Orderly.release (h : K.Orderly prior f (n :: R)) : K.Orderly prior f R :=
  ⟨h.marks, fun hclosed => (h.tidy hclosed).release⟩

theorem Orderly.swap {m : Nat} (h : K.Orderly prior f (m :: n :: R)) : K.Orderly prior f (n :: m :: R) :=
  ⟨h.marks, fun hclosed => (h.tidy hclosed).swap⟩

end Setup

/-! ## (3) Steps -/

open Setup

/-- The step gives a result, has only added to the frame, and `Q` holds of both. -/
def Emits {α : Type} (K : Setup) (prior R : List Nat) (act : EmitM α) (f : FunFrame) (Q : α → FunFrame → Prop) : Prop :=
  Ends act f fun a f' => f.Before f' ∧ K.Orderly prior f' R ∧ Q a f'

section Steps

variable {α β : Type} {K : Setup} {prior R R' : List Nat} {act : EmitM α} {k : α → EmitM β} {f : FunFrame}
  {Q : α → FunFrame → Prop} {Q' : β → FunFrame → Prop} {value : Operand}

theorem Emits.bind (h : Emits K prior R act f Q)
    (hk : ∀ a f', f.Before f' → K.Orderly prior f' R → Q a f' → Emits K prior R' (k a) f' Q') :
    Emits K prior R' (act >>= k) f Q' := by
  unfold Emits
  rw [ends_bind]
  refine Ends.mono h fun a f1 h1 => ?_
  obtain ⟨hle, hf1, hq⟩ := h1
  exact Ends.mono (hk a f1 hle hf1 hq) fun b f2 h2 => ⟨hle.trans h2.1, h2.2⟩

theorem emits_pure {a : α} (hf : K.Orderly prior f R) (hq : Q a f) : Emits K prior R (pure a) f Q :=
  (ends_pure a).mpr ⟨.refl f, hf, hq⟩

/-- A step that only looks at the frame or at the context. -/
theorem emits_read {a : α} (hact : act f = .ok a f) (hk : Emits K prior R (k a) f Q') :
    Emits K prior R (act >>= k) f Q' := by
  unfold Emits
  rw [ends_bind, ends_iff_of_eq hact]
  exact hk

theorem emits_ofExcept {r : Except Fault α} {a : α} (ha : r = .ok a) (hk : Emits K prior R (k a) f Q') :
    Emits K prior R ((ofExcept r : EmitM α) >>= k) f Q' := by
  subst ha
  exact emits_read rfl hk

theorem emits_ask {g : Context → Except Fault α} {a : α} (ha : g K.src.context = .ok a)
    (hk : Emits K prior R (k a) f Q') : Emits K prior R (ask K.src g >>= k) f Q' := emits_ofExcept ha hk

theorem emits_newTemp {k : Operand → EmitM β} (hf : K.Orderly prior f R)
    (hk : ∀ n f', f.Before f' → K.Orderly prior f' (n :: R) → Emits K prior R' (k (.temp n)) f' Q') :
    Emits K prior R' (newTemp >>= k) f Q' := by
  have hnew : Emits K prior (f.counter :: R) newTemp f fun o _ => o = .temp f.counter :=
    (ends_iff_of_eq rfl).mpr ⟨⟨fun _ ha => ha, fun _ hi => hi⟩, ⟨hf.marks, fun hclosed => (hf.tidy hclosed).reserve⟩, rfl⟩
  refine hnew.bind fun o f' hle hf' ho => ?_
  subst ho
  exact hk f.counter f' hle hf'

section Emit

variable {i : Instr}

theorem before_push (f : FunFrame) (i : Instr) : f.Before { f with code := f.code.push i } :=
  ⟨fun _ ha => ha, by simp⟩

/-- An instruction that defines nothing. -/
theorem emits_emit (hf : K.Orderly prior f R) (hres : i.result? = none)
    (hnote : ∀ note, i = .comment note → K.Notes note) (hok : K.Accepts f.slots.toList f.code.toList i) :
    Emits K prior R (emit i) f fun _ _ => True := by
  have hnumber : i.number? = none := by rw [Instr.number?, hres, Option.bind_none]
  refine (ends_modify _ _).mpr ⟨before_push f i, ⟨hf.marks, fun hclosed => Tidy.push ?_ ?_ hnote hok⟩, trivial⟩
  · rw [hnumber]
    exact hf.tidy hclosed
  · rw [hres]
    exact fun _ ho => by cases ho

theorem emits_store {address : Operand} (hf : K.Orderly prior f R) (hv : K.Knows f value ty)
    (ha : K.Knows f address ty.ptr) (hty : K.Declares ty) :
    Emits K prior R (emit (.store ty value address)) f fun _ _ => True :=
  emits_emit hf rfl (fun _ he => by cases he) (accepts_store hv ha hty)

section

variable (hf : K.Orderly prior f (n :: R)) (hres : i.result? = some (.temp n))
  (hok : K.Accepts f.slots.toList f.code.toList i) (hT : K.strict → ∃ U, i.Gives K.types U ∧ U.text = T.text)
include hf hres hok hT

/-- An instruction that defines a temporary. -/
theorem emits_define
    : Emits K prior R (emit i) f fun _ f' => K.Knows f' (.temp n) T := by
  have hnumber : i.number? = some n := by rw [Instr.number?, hres]; rfl
  have hmem : i ∈ (f.code.push i).toList := by simp
  refine (ends_modify _ _).mpr ⟨before_push f i, ⟨hf.marks, fun hclosed => Tidy.push ?_ ?_ ?_ hok⟩,
    fun _ => ⟨i, hmem, hres⟩, fun hstrict => ?_⟩
  · rw [hnumber]
    exact hf.tidy hclosed
  · rw [hres]
    exact fun _ ho => ⟨n, (Option.some.inj ho).symm⟩
  · intro note hi
    rw [hi] at hres
    cases hres
  · obtain ⟨U, hU, ht⟩ := hT hstrict
    exact ⟨U, .temp hmem hres hU, ht⟩

/-- The last instruction of some code, which defines the operand that is its result. -/
theorem emits_finish
    : Emits K prior R (emit i >>= fun _ => pure (Operand.temp n)) f fun o f' => K.Knows f' o T :=
  (emits_define hf hres hok hT).bind fun _ _ _ hf' hknown => emits_pure hf' hknown

end

theorem emits_comment (hf : K.Orderly prior f R) {note : String} (hnote : K.Notes note) :
    Emits K prior R (comment K.src note) f fun _ _ => True := by
  unfold comment
  split
  · refine emits_emit hf rfl (fun _ he => Instr.comment.inj he ▸ hnote) (accepts_of ?_ ?_ fun _ => trivial)
    · simp [Instr.uses]
    · simp [Instr.types]
  · exact emits_pure hf trivial

end Emit

theorem emits_newSpill (hf : K.Orderly prior f R) (hty : K.Declares ty) :
    Emits K prior R (newSpill ty) f fun o f' => K.Knows f' o ty.ptr := by
  let slot : Operand := .spill f.counter
  let a : Alloca := { slot, ty, comment := none }
  have hmem : a ∈ (f.slots.push a).toList := by simp
  have hnew : newSpill ty f = .ok slot { f with counter := f.counter + 1, slots := f.slots.push a } := rfl
  refine (ends_iff_of_eq hnew).mpr ⟨⟨by simp, fun _ hi => hi⟩, ⟨hf.marks, fun hclosed => ?_⟩,
    .of_has fun _ => .spill hmem rfl⟩
  have htidy := hf.tidy hclosed
  -- the number is new, so no slot has it
  have hslot : a.slot ∉ f.slots.toList.map (·.slot) := by
    intro hin
    obtain ⟨b, hb, hbs⟩ := mem_map.mp hin
    have hnumber : f.counter ∈ f.numbers :=
      List.mem_append_right _ (List.mem_filterMap.mpr ⟨b, hb, by rw [Alloca.number?, hbs]; rfl⟩)
    exact Nat.lt_irrefl _ (htidy.below _ (List.mem_append_left _ (List.mem_append_right _ hnumber)))
  exact Tidy.addSlot (f := { f with counter := f.counter + 1 }) (a := a) htidy.reserve (by simp [a, slot]) hslot
    (.inr ⟨_, rfl⟩) (hty hclosed) fun _ hnote => by cases hnote

theorem emits_spill (hf : K.Orderly prior f R) (hvalue : K.Knows f value ty) (hty : K.Declares ty)
    : Emits K prior R (spill value ty) f fun o f' => K.Knows f' o ty.ptr := by
  refine (emits_newSpill hf hty).bind fun slot f1 hle hf1 hslot => ?_
  refine (emits_store hf1 (hvalue.before hle) hslot hty).bind fun _ f2 hle2 hf2 _ => ?_
  exact emits_pure hf2 (hslot.before hle2)

section Context

variable (hK : K.Sound)
include hK

theorem spell_marked {ty : TypeId} (hmarks : f.expanding = K.marks) (hty : K.table.Proper ty) :
    spell K.src ty f = .ok (K.code ty) f := by
  unfold spell FunFrame.spelling
  rw [spellType_eq hK.usable hty, Setup.code, ← hmarks]

theorem emits_spell {ty : TypeId} {k : CodeType → EmitM β} (hf : K.Orderly prior f R) (hty : K.table.Proper ty)
    (hk : Emits K prior R' (k (K.code ty)) f Q') : Emits K prior R' (spell K.src ty >>= k) f Q' :=
  emits_read (spell_marked hK hf.marks hty) hk

theorem emits_slotOf {v : VarId} {var : Variable} (hf : K.Orderly prior f R)
    (hvar : K.src.vars.get? v = some var) (hty : K.table.Proper var.ty) :
    Emits K prior R (slotOf K.src v) f fun o f' => K.Knows f' o (K.code var.ty).ptr := by
  unfold slotOf
  refine emits_read (a := f) rfl ?_
  split
  · rename_i hplaced
    refine emits_pure hf (.of_has fun hclosed => ?_)
    obtain ⟨a, ha, hslot⟩ := mem_map.mp (((hf.tidy hclosed).placed v).mp hplaced)
    -- the slot was made for this variable
    obtain ⟨⟨w, var', hw, hvar', hcode⟩ | ⟨n, hn⟩, -⟩ := (hf.tidy hclosed).owned a ha
    · rw [hslot] at hw
      cases hw
      cases hvar.symm.trans hvar'
      exact hcode ▸ .slot ha hslot
    · rw [hslot] at hn
      cases hn
  · rename_i hplaced
    let a : Alloca :=
      { slot := .slot v, ty := K.code var.ty, comment := if K.src.comments then some var.name else none }
    have hmem : a ∈ (f.slots.push a).toList := by simp
    have hspell := spell_marked hK (f := { f with placed := v :: f.placed }) hf.marks hty
    simp only [Emits, ends_bind, ends_modify, ask, ends_ofExcept]
    refine ⟨var, Arena.get_eq_ok.mpr hvar, (ends_iff_of_eq hspell).mpr ?_⟩
    refine (ends_modify _ _).mpr ((ends_pure _).mpr ⟨⟨by simp, fun _ hi => hi⟩, ⟨hf.marks, fun hclosed => ?_⟩,
      .of_has fun _ => .slot hmem rfl⟩)
    have htidy := hf.tidy hclosed
    refine Tidy.addSlot (f := f) (a := a) htidy (fun w => ?_) (fun hin => hplaced ((htidy.placed v).mpr hin))
      (.inl ⟨v, var, rfl, hvar, rfl⟩) (declares_code hK hty hclosed) fun note hnote => ?_
    · simp only [mem_cons, a, Operand.slot.injEq]
      rw [or_comm, eq_comm (a := w)]
    · simp only [a, Option.mem_def] at hnote
      split at hnote <;> cases hnote
      exact ⟨v, var, hvar, .inl rfl⟩

end Context

end Steps

end BlockCompiler.Target
