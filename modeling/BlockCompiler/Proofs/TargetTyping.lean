/-
  BlockCompiler.Proofs.TargetTyping — what typed target code is.

  Types of the target language are compared by how they are spelled.

  (1) The types that instructions apply to and what they give: fields of aggregates, with named
      types looked up (`HasField`), operators and conversions (`BinaryOp.Takes`,
      `ConvertOp.Between`).
  (2) Each operand is defined in one place: a temporary by an instruction before it in its block,
      a slot among the slots of the function, a parameter or a function by its declaration
      (`Operand.Known`). This place gives it a type (`Operand.Has`).
  (3) Code is closed if all that it uses is defined, and typed if every operand is used with the
      type of its definition (`Instr.Closed`, `Instr.Typed`).
  (4) The same for blocks, functions and modules, and that nothing in a module is defined twice
      (`ModuleCode.Closed`, `ModuleCode.Typed`, `ModuleCode.Distinct`).
-/
import BlockCompiler.Proofs.Expansion

namespace BlockCompiler.Target

/-! ## (1) Types and instructions -/

/-- The type of a field of an aggregate. -/
inductive HasField (types : List (String × CodeType)) : CodeType → Nat → CodeType → Prop
  | struct {fields : List CodeType} {i : Nat} {T : CodeType} : fields[i]? = some T →
      HasField types (.struct fields) i T
  | named {name : String} {body : CodeType} {i : Nat} {T : CodeType} : (name, body) ∈ types →
      HasField types body i T → HasField types (.named name) i T

namespace CodeType

def isInt : CodeType → Bool
  | int _ => true
  | _ => false

def isFloat : CodeType → Bool
  | float | double => true
  | _ => false

def isPointer : CodeType → Bool
  | ptr _ | func _ _ => true
  | _ => false

end CodeType

def BinaryOp.compares : BinaryOp → Bool
  | icmp _ | fcmp _ => true
  | _ => false

/-- The operation applies to operands of this type. -/
def BinaryOp.Takes : BinaryOp → CodeType → Prop
  | fadd, T | fsub, T | fmul, T | fdiv, T | fcmp _, T => T.isFloat = true
  | icmp _, T => T.isInt = true ∨ T.isPointer = true
  | and, T | or, T | xor, T | add, T | sub, T | mul, T | sdiv, T | udiv, T | shl, T | ashr, T | lshr, T =>
    T.isInt = true

/-- The conversion goes from the first type to the second. -/
inductive ConvertOp.Between : ConvertOp → CodeType → CodeType → Prop
  | trunc {a b : Nat} : b < a → Between .trunc (.int a) (.int b)
  | sext {a b : Nat} : a < b → Between .sext (.int a) (.int b)
  | zext {a b : Nat} : a < b → Between .zext (.int a) (.int b)
  | sitofp {a : Nat} {T : CodeType} : T.isFloat = true → Between .sitofp (.int a) T
  | uitofp {a : Nat} {T : CodeType} : T.isFloat = true → Between .uitofp (.int a) T
  | fptosi {a : Nat} {T : CodeType} : T.isFloat = true → Between .fptosi T (.int a)
  | fptoui {a : Nat} {T : CodeType} : T.isFloat = true → Between .fptoui T (.int a)
  | fpext : Between .fpext .float .double
  | fptrunc : Between .fptrunc .double .float
  | bitcast {T U : CodeType} : T.isPointer = true → U.isPointer = true → Between .bitcast T U
  | ptrtoint {a : Nat} {T : CodeType} : T.isPointer = true → Between .ptrtoint T (.int a)
  | inttoptr {a : Nat} {T : CodeType} : T.isPointer = true → Between .inttoptr (.int a) T

namespace Instr

/-- The operand that an instruction defines. -/
def result? : Instr → Option Operand
  | store _ _ _ | comment _ => none
  | load result _ _ _ | extract result _ _ _ | field result _ _ _ | offset result _ _ _ _ | binary result _ _ _ _
  | negate result _ _ | convert result _ _ _ _ | call result _ _ _ => some result

def note? : Instr → Option String
  | comment text => some text
  | _ => none

/-- The operands that an instruction uses, each with the type that it is used with. A call uses
its callee with the type that the call is written with. -/
def uses : Instr → List (Operand × CodeType)
  | store ty value address => [(value, ty), (address, ty.ptr)]
  | load _ _ addressTy address => [(address, addressTy)]
  | extract _ ty value _ => [(value, ty)]
  | field _ ty address _ => [(address, ty.ptr)]
  | offset _ _ addressTy address index => [(address, addressTy), (index, .int 64)]
  | binary _ _ ty lhs rhs => [(lhs, ty), (rhs, ty)]
  | negate _ ty value => [(value, ty)]
  | convert _ _ source value _ => [(value, source)]
  | call _ ty callee args => (callee, .func ty (args.map (·.1))) :: args.map fun a => (a.2, a.1)
  | comment _ => []

/-- The types that an instruction is written with. -/
def types : Instr → List CodeType
  | store ty _ _ | extract _ ty _ _ | field _ ty _ _ | binary _ _ ty _ _ | negate _ ty _ => [ty]
  | load _ ty addressTy _ => [ty, addressTy]
  | offset _ element addressTy _ _ => [element, addressTy]
  | convert _ _ source _ target => [source, target]
  | call _ ty _ args => ty :: args.map (·.1)
  | comment _ => []

/-- The type of what an instruction defines. -/
def Gives (types : List (String × CodeType)) : Instr → CodeType → Prop
  | load _ ty _ _, T | negate _ ty _, T | convert _ _ _ _ ty, T | call _ ty _ _, T => T = ty
  | extract _ ty _ i, T => HasField types ty i T
  | field _ ty _ i, T => ∃ F, HasField types ty i F ∧ T = F.ptr
  | offset _ element _ _ _, T => T = element.ptr
  | binary _ op ty _ _, T => T = if op.compares then .int 1 else ty
  | store _ _ _, _ | comment _, _ => False

/-- The types of an instruction go together. -/
def Proper (types : List (String × CodeType)) : Instr → Prop
  | load _ ty addressTy _ => addressTy.text = ty.text ++ "*"
  | offset _ element addressTy _ _ => addressTy.text = element.text ++ "*"
  | extract _ ty _ i | field _ ty _ i => ∃ F, HasField types ty i F
  | binary _ op ty _ _ => op.Takes ty
  | negate _ ty _ => ty.isFloat = true
  | convert _ op source _ target => op.Between source target
  | store _ _ _ | call _ _ _ _ | comment _ => True

end Instr

namespace Exit

def uses : Exit → List (Operand × CodeType)
  | ret ty value => [(value, ty)]
  | jump _ => []
  | branch condition _ _ => [(condition, .int 1)]
  | switch tag _ _ => [(tag, .int 32)]

def types : Exit → List CodeType
  | ret ty _ => [ty]
  | jump _ | branch _ _ _ | switch _ _ _ => []

def targets : Exit → List BlockId
  | ret _ _ => []
  | jump target => [target]
  | branch _ ifTrue ifFalse => [ifTrue, ifFalse]
  | switch _ fallback targets => targets.map (·.2) ++ [fallback]

end Exit

/-! ## (2) Operands -/

/-- What code of a function may refer to, apart from its slots: the named types, the functions
with their types as pointers, and the types of the parameters. -/
structure Scene where
  types : List (String × CodeType)
  funs : List (String × CodeType)
  params : List CodeType

/-- All named types in the type are defined. -/
def Scene.Declares (S : Scene) (T : CodeType) : Prop := ∀ name ∈ T.names, name ∈ S.types.map (·.1)

theorem Scene.declares_int (S : Scene) (w : Nat) : S.Declares (.int w) := fun _ hname => by cases hname

namespace Operand

/-- The operand is a constant, or it is defined among these slots, by this code or around it. -/
def Known (S : Scene) (slots : List Alloca) (code : List Instr) : Operand → Prop
  | temp n => ∃ i ∈ code, i.result? = some (temp n)
  | slot v => slot v ∈ slots.map (·.slot)
  | spill n => spill n ∈ slots.map (·.slot)
  | arg i => i < S.params.length
  | global name => name ∈ S.funs.map (·.1)
  | int _ | float _ | floatZero | bool _ | zero => True

/-- The type that the definition of an operand gives it. A constant has any type of its kind. -/
inductive Has (S : Scene) (slots : List Alloca) (code : List Instr) : Operand → CodeType → Prop
  | temp {n : Nat} {i : Instr} {T : CodeType} : i ∈ code → i.result? = some (.temp n) → i.Gives S.types T →
      Has S slots code (.temp n) T
  | slot {v : VarId} {a : Alloca} : a ∈ slots → a.slot = .slot v → Has S slots code (.slot v) a.ty.ptr
  | spill {n : Nat} {a : Alloca} : a ∈ slots → a.slot = .spill n → Has S slots code (.spill n) a.ty.ptr
  | arg {i : Nat} {T : CodeType} : S.params[i]? = some T → Has S slots code (.arg i) T
  | global {name : String} {T : CodeType} : (name, T) ∈ S.funs → Has S slots code (.global name) T
  | int {value : Int} {T : CodeType} : T.isInt = true → Has S slots code (.int value) T
  | float {bits : UInt64} {T : CodeType} : T.isFloat = true → Has S slots code (.float bits) T
  | floatZero {T : CodeType} : T.isFloat = true → Has S slots code .floatZero T
  | bool {value : Bool} : Has S slots code (.bool value) (.int 1)
  | zero : Has S slots code .zero (.struct [])

/-- The operand has a type that is spelled like this one. -/
def Fits (S : Scene) (slots : List Alloca) (code : List Instr) (o : Operand) (T : CodeType) : Prop :=
  ∃ U, o.Has S slots code U ∧ U.text = T.text

variable {S : Scene} {slots slots' : List Alloca} {code code' : List Instr} {o : Operand} {T : CodeType}

theorem Has.known (h : o.Has S slots code T) : o.Known S slots code := by
  cases h with
  | temp hi hr _ => exact ⟨_, hi, hr⟩
  | slot ha he | spill ha he => exact List.mem_map.mpr ⟨_, ha, he⟩
  | arg hp => exact (List.getElem?_eq_some_iff.mp hp).1
  | global hf => exact List.mem_map.mpr ⟨_, hf, rfl⟩
  | _ => trivial

section

variable (hs : slots ⊆ slots') (hc : code ⊆ code')
include hs hc

theorem Known.mono (h : o.Known S slots code) : o.Known S slots' code' := by
  cases o with
  | temp n =>
    obtain ⟨i, hi, hr⟩ := h
    exact ⟨i, hc hi, hr⟩
  | slot | spill => exact List.map_subset _ hs h
  | _ => exact h

theorem Has.mono (h : o.Has S slots code T) : o.Has S slots' code' T := by
  cases h with
  | temp hi hr hT => exact .temp (hc hi) hr hT
  | slot ha he => exact .slot (hs ha) he
  | spill ha he => exact .spill (hs ha) he
  | arg hp => exact .arg hp
  | global hf => exact .global hf
  | int hT => exact .int hT
  | float hT => exact .float hT
  | floatZero hT => exact .floatZero hT
  | bool => exact .bool
  | zero => exact .zero

theorem Fits.mono (h : o.Fits S slots code T) : o.Fits S slots' code' T := by
  obtain ⟨U, hU, ht⟩ := h
  exact ⟨U, hU.mono hs hc, ht⟩

end

end Operand

/-! ## (3) Code -/

namespace Instr

variable {S : Scene} {slots slots' : List Alloca} {code code' : List Instr} {i : Instr}

/-- What the instruction uses is defined. -/
def Closed (S : Scene) (slots : List Alloca) (code : List Instr) (i : Instr) : Prop :=
  (∀ u ∈ i.uses, u.1.Known S slots code) ∧ ∀ T ∈ i.types, S.Declares T

/-- What the instruction uses has the type that it is used with. -/
def Typed (S : Scene) (slots : List Alloca) (code : List Instr) (i : Instr) : Prop :=
  (∀ u ∈ i.uses, u.1.Fits S slots code u.2) ∧ i.Proper S.types

theorem Closed.mono (hs : slots ⊆ slots') (hc : code ⊆ code') (h : i.Closed S slots code) : i.Closed S slots' code' :=
  ⟨fun u hu => (h.1 u hu).mono hs hc, h.2⟩

theorem Typed.mono (hs : slots ⊆ slots') (hc : code ⊆ code') (h : i.Typed S slots code) : i.Typed S slots' code' :=
  ⟨fun u hu => (h.1 u hu).mono hs hc, h.2⟩

end Instr

/-! ## (4) Modules -/

namespace CodeBlock

/-- An instruction uses what is defined before it in the block. -/
structure Closed (S : Scene) (slots : List Alloca) (b : CodeBlock) : Prop where
  code : ∀ (k : Nat) (i : Instr), b.code[k]? = some i → i.Closed S slots (b.code.take k)
  results : ∀ i ∈ b.code, ∀ o, i.result? = some o → ∃ n, o = .temp n
  exit : ∀ u ∈ b.exit.uses, u.1.Known S slots b.code
  types : ∀ T ∈ b.exit.types, S.Declares T

/-- `result`: the type that the function returns. -/
structure Typed (S : Scene) (slots : List Alloca) (result : CodeType) (b : CodeBlock) : Prop where
  code : ∀ (k : Nat) (i : Instr), b.code[k]? = some i → i.Typed S slots (b.code.take k)
  exit : ∀ u ∈ b.exit.uses, u.1.Fits S slots b.code u.2
  result : ∀ T ∈ b.exit.types, T.text = result.text

variable {S : Scene} {slots slots' : List Alloca} {result : CodeType} {b : CodeBlock}

theorem Closed.mono (hs : slots ⊆ slots') (h : b.Closed S slots) : b.Closed S slots' :=
  ⟨fun k i hi => (h.code k i hi).mono hs fun _ hj => hj, h.results, fun u hu => (h.exit u hu).mono hs fun _ hj => hj,
    h.types⟩

theorem Typed.mono (hs : slots ⊆ slots') (h : b.Typed S slots result) : b.Typed S slots' result :=
  ⟨fun k i hi => (h.code k i hi).mono hs fun _ hj => hj, fun u hu => (h.exit u hu).mono hs fun _ hj => hj, h.result⟩

/-- The temporaries that the block defines. -/
def results (b : CodeBlock) : List Operand := b.code.filterMap Instr.result?

def notes (b : CodeBlock) : List String := b.code.filterMap Instr.note?

end CodeBlock

namespace FunCode

def name : FunCode → String
  | declare _ name _ | define _ name _ _ _ _ _ => name

def result : FunCode → CodeType
  | declare result _ _ | define result _ _ _ _ _ _ => result

def params : FunCode → List CodeType
  | declare _ _ params | define _ _ params _ _ _ _ => params

/-- The type of a function, as a pointer. -/
def type (f : FunCode) : CodeType := .func f.result f.params

def slots : FunCode → List Alloca
  | declare _ _ _ => []
  | define _ _ _ _ slots _ _ => slots

def blocks : FunCode → List CodeBlock
  | declare _ _ _ => []
  | define _ _ _ _ _ _ blocks => blocks

/-- Where control goes after the slots are made. -/
def entry? : FunCode → Option BlockId
  | declare _ _ _ => none
  | define _ _ _ _ _ entry _ => some entry

def labels (f : FunCode) : List BlockId := f.blocks.map (·.label)

/-- What a function defines for itself: its parameters, slots and temporaries. -/
def locals (f : FunCode) : List Operand :=
  (List.range f.params.length).map .arg ++ f.slots.map (·.slot) ++ f.blocks.flatMap CodeBlock.results

/-- What the comments in a function say. -/
def notes (f : FunCode) : List String := f.slots.filterMap (·.comment) ++ f.blocks.flatMap CodeBlock.notes

/-- What the function and its blocks use is defined, and control stays in the function. -/
structure Closed (S : Scene) (f : FunCode) : Prop where
  type : S.Declares f.type
  slots : ∀ a ∈ f.slots, ((∃ v, a.slot = .slot v) ∨ ∃ n, a.slot = .spill n) ∧ S.Declares a.ty
  blocks : ∀ b ∈ f.blocks, b.Closed S f.slots
  entry : ∀ b ∈ f.entry?, b ∈ f.labels
  targets : ∀ b ∈ f.blocks, ∀ target ∈ b.exit.targets, target ∈ f.labels

end FunCode

namespace ModuleCode

def signatures (m : ModuleCode) : List (String × CodeType) := m.funs.map fun f => (f.name, f.type)

/-- What the code of a function may refer to. -/
def scene (m : ModuleCode) (f : FunCode) : Scene := { types := m.types, funs := m.signatures, params := f.params }

structure Closed (m : ModuleCode) : Prop where
  types : ∀ d ∈ m.types, ∀ name ∈ d.2.names, name ∈ m.types.map (·.1)
  funs : ∀ f ∈ m.funs, f.Closed (m.scene f)

/-- Nothing is defined twice. -/
structure Distinct (m : ModuleCode) : Prop where
  types : (m.types.map (·.1)).Nodup
  funs : (m.funs.map (·.name)).Nodup
  locals : ∀ f ∈ m.funs, f.locals.Nodup
  labels : ∀ f ∈ m.funs, f.labels.Nodup

/-- Every operand is used with the type that its definition gives it. -/
def Typed (m : ModuleCode) : Prop := ∀ f ∈ m.funs, ∀ b ∈ f.blocks, b.Typed (m.scene f) f.slots f.result

end ModuleCode

end BlockCompiler.Target
