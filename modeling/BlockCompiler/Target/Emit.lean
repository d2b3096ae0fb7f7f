/-
  BlockCompiler.Target.Emit — code for values.

  Every value gives one operand. Variables, fields of places and dereferenced pointers also
  have addresses, which `&` and payloads use. A comparison gives 1 or 0 in the type of its
  left operand.
-/
import BlockCompiler.Target.FunFrame
import BlockCompiler.Text.Double

namespace BlockCompiler.Target

open FunFrame

/-! ### Literals and conversions -/

/-- An integer constant as a signed number of so many bits, at most 64. -/
def signedConstant (width : Nat) (value : UInt64) : Int :=
  (value.toNat : Int).bmod (Nat.pow 2 (min width 64))

def intLiteral (src : Source) (value : UInt64) (ty : TypeId) : EmitM Operand := do
  let width ← ofExcept (← spell src ty).width
  return .int (signedConstant width value)

def floatLiteral (src : Source) (bits : UInt64) (ty : TypeId) : EmitM Operand := do
  match ← ask src (·.types.resolved ty) with
  | .float double => return .float (if double then bits else Double.throughSingle bits)
  | _ => throw .wrongShape

def isSigned (t : TypeTable) (ty : TypeId) : Except Fault Bool := do
  match ← t.resolved ty with
  | .int signed _ => return signed
  | _ => return false

/-- Brings an integer of the type `source` to the width of `target`. -/
def resize (src : Source) (value : Operand) (source : TypeId) (target : CodeType) :
    EmitM Operand := do
  let spelling ← spell src source
  let width ← ofExcept spelling.width
  let goal ← ofExcept target.width
  if width = goal then return value
  else
    let op ← if width < goal then do
        pure (if ← ask src (isSigned ·.types source) then .sext else .zext)
      else pure .trunc
    let result ← newTemp
    emit (.convert result op spelling value target)
    return result

/-! ### Operators -/

def boolOp : Operator → BinaryOp
  | .logicalAnd => .and
  | .logicalOr => .or
  | .logicalNot => .xor
  | _ => .icmp .eq

def intPredicate? (signed : Bool) : Operator → Option IntPredicate
  | .eq => some .eq
  | .greater => some (if signed then .sgt else .ugt)
  | .greaterEq => some (if signed then .sge else .uge)
  | .less => some (if signed then .slt else .ult)
  | .lessEq => some (if signed then .sle else .ule)
  | _ => none

def intOp? (signed : Bool) : Operator → Option BinaryOp
  | .add => some .add
  | .sub => some .sub
  | .star => some .mul
  | .div => some (if signed then .sdiv else .udiv)
  | .shiftLeft => some .shl
  | .shiftRight => some (if signed then .ashr else .lshr)
  | _ => none

def floatPredicate? : Operator → Option FloatPredicate
  | .eq => some .oeq
  | .greater => some .ogt
  | .greaterEq => some .oge
  | .less => some .olt
  | .lessEq => some .ole
  | _ => none

def floatOp? : Operator → Option BinaryOp
  | .add => some .fadd
  | .sub => some .fsub
  | .star => some .fmul
  | .div => some .fdiv
  | _ => none

def addressOp? : Operator → Option BinaryOp
  | .add => some .add
  | .sub => some .sub
  | .shiftLeft => some .shl
  | .shiftRight => some .lshr
  | _ => none

/-- A comparison, brought to the type of its operands. -/
def compare (result : Operand) (op : BinaryOp) (widen : ConvertOp) (ty : CodeType)
    (lhs rhs : Operand) : EmitM Operand := do
  let flag ← newTemp
  emit (.binary flag op ty lhs rhs)
  emit (.convert result widen (.int 1) flag ty)
  return result

/-- An instruction, if the operand family has one for the operator. -/
def arithmetic (family : OperandFamily) (result : Operand) (op : Option BinaryOp) (ty : CodeType)
    (lhs rhs : Operand) : EmitM Operand := do
  match op with
  | some op =>
    emit (.binary result op ty lhs rhs)
    return result
  | none => throw (.unsupported family)

def intBinary (result : Operand) (signed : Bool) (op : Operator) (ty : CodeType)
    (lhs rhs : Operand) : EmitM Operand :=
  match intPredicate? signed op with
  | some p => compare result (.icmp p) .zext ty lhs rhs
  | none => arithmetic .integer result (intOp? signed op) ty lhs rhs

def floatBinary (result : Operand) (op : Operator) (ty : CodeType) (lhs rhs : Operand) :
    EmitM Operand :=
  match floatPredicate? op with
  | some p => compare result (.fcmp p) .uitofp ty lhs rhs
  | none => arithmetic .float result (floatOp? op) ty lhs rhs

/-- A pointer moved by a number of elements. -/
def pointerStep (src : Source) (result : Operand) (pointee : TypeId) (back : Bool) (ty : CodeType)
    (lhs rhs : Operand) (rhsTy : TypeId) : EmitM Operand := do
  let index ← resize src rhs rhsTy (.int 64)
  let index ← if back then do
      let negated ← newTemp
      emit (.binary negated .sub (.int 64) (.int 0) index)
      pure negated
    else pure index
  let element ← spell src pointee
  emit (.offset result element ty lhs index)
  return result

def pointerEq (src : Source) (result : Operand) (ty : CodeType) (lhs rhs : Operand)
    (rhsTy : TypeId) : EmitM Operand := do
  let rhsSpelling ← spell src rhsTy
  let rhs ← if rhsSpelling.text = ty.text then pure rhs
    else do
      let cast ← newTemp
      emit (.convert cast .bitcast rhsSpelling rhs ty)
      pure cast
  emit (.binary result (.icmp .eq) ty lhs rhs)
  return result

/-- An operator on addresses as 64-bit numbers. -/
def pointerArithmetic (src : Source) (result : Operand) (op : Operator) (ty : CodeType)
    (lhs rhs : Operand) (rhsIsPtr : Bool) (rhsTy : TypeId) : EmitM Operand := do
  let left ← newTemp
  emit (.convert left .ptrtoint ty lhs (.int 64))
  let right ← if rhsIsPtr then do
      let right ← newTemp
      emit (.convert right .ptrtoint (← spell src rhsTy) rhs (.int 64))
      pure right
    else resize src rhs rhsTy (.int 64)
  match addressOp? op with
  | none => throw (.unsupported .pointer)
  | some op =>
    let combined ← newTemp
    emit (.binary combined op (.int 64) left right)
    emit (.convert result .inttoptr (.int 64) combined ty)
    return result

def pointerBinary (src : Source) (result : Operand) (pointee : TypeId) (op : Operator)
    (ty : CodeType) (lhs rhs : Operand) (r : Ty) (rhsTy : TypeId) : EmitM Operand :=
  if r.isInt ∧ (op = .add ∨ op = .sub) then
    pointerStep src result pointee (op = .sub) ty lhs rhs rhsTy
  else if op = .eq then pointerEq src result ty lhs rhs rhsTy
  else pointerArithmetic src result op ty lhs rhs r.isPtr rhsTy

/-- The code of `lhs op rhs`, where `l` and `r` are the operands' types. -/
def binaryCode (src : Source) (result : Operand) (op : Operator) (l r : Ty) (ty : CodeType)
    (lhs rhs : Operand) (rhsTy : TypeId) : EmitM Operand :=
  match l with
  | .bool => do
    emit (.binary result (boolOp op) (.int 1) lhs rhs)
    return result
  | .int signed _ => intBinary result signed op ty lhs rhs
  | .float _ => floatBinary result op ty lhs rhs
  | .ptr pointee => pointerBinary src result pointee op ty lhs rhs r rhsTy
  | _ => throw .wrongShape

def negation (src : Source) (ty : CodeType) (operandTy : TypeId) (value : Operand) :
    EmitM Operand := do
  let result ← newTemp
  let t ← ask src (·.types.get operandTy)
  if t.isFloat then emit (.negate result ty value)
  else emit (.binary result .sub ty (.int 0) value)
  return result

def complement (src : Source) (ty : CodeType) (operandTy : TypeId) (value : Operand) :
    EmitM Operand := do
  let result ← newTemp
  let t ← ask src (·.types.get operandTy)
  if t.isPtr then
    let number ← newTemp
    let flipped ← newTemp
    emit (.convert number .ptrtoint ty value (.int 64))
    emit (.binary flipped .xor (.int 64) number (.int (-1)))
    emit (.convert result .inttoptr (.int 64) flipped ty)
  else emit (.binary result .xor ty value (.int (-1)))
  return result

/-! ### Casts -/

/-- The conversion between two types that are no aliases, integers to integers apart. -/
def conversion? : Ty → Ty → Option ConvertOp
  | .int signed _, .float _ => some (if signed then .sitofp else .uitofp)
  | .float _, .int signed _ => some (if signed then .fptosi else .fptoui)
  | .float _, .float double => some (if double then .fpext else .fptrunc)
  | .bool, .int _ _ => some .zext
  | .ptr _, .ptr _ => some .bitcast
  | .ptr _, .int _ _ => some .ptrtoint
  | .int _ _, .ptr _ => some .inttoptr
  | _, _ => none

/-- One type under two spellings: the value goes through memory. -/
def respell (result value : Operand) (source target : CodeType) : EmitM Operand := do
  let slot ← spill value source
  let address ← newTemp
  emit (.convert address .bitcast source.ptr slot target.ptr)
  emit (.load result target target.ptr address)
  return result

def castCode (src : Source) (value : Operand) (sourceTy targetTy : TypeId) : EmitM Operand := do
  let source ← spell src sourceTy
  let target ← spell src targetTy
  if source.text = target.text then return value
  else
    let s ← ask src (·.types.unwrapAlias sourceTy)
    let g ← ask src (·.types.unwrapAlias targetTy)
    let st ← ask src (·.types.get s)
    let gt ← ask src (·.types.get g)
    let result ← newTemp
    if s = g then respell result value source target
    else if st.isInt && gt.isInt then resize src value sourceTy target
    else
      match conversion? st gt with
      | some op =>
        emit (.convert result op source value target)
        return result
      | none => throw (.noConversion source.text target.text)

/-! ### Sums -/

/-- The address of the payload of the sum at an address. -/
def payloadAddress (src : Source) (address : Operand) (sumTy payloadTy : TypeId) :
    EmitM Operand := do
  let sum ← spell src sumTy
  match ← ask src (·.types.resolved sumTy) with
  | .sum variants =>
    let words ← ask src (·.types.payloadWords variants)
    let field ← newTemp
    emit (.field field sum address 1)
    let payload ← newTemp
    let ty ← spell src payloadTy
    emit (.convert payload .bitcast (.ptr (.array words (.int 64))) field ty.ptr)
    return payload
  | _ => throw .wrongShape

/-- A sum value with the given tag and payload. -/
def injectCode (src : Source) (variant : VariantId) (value : Operand)
    (payloadTy sumTy : TypeId) : EmitM Operand := do
  let sum ← spell src sumTy
  let slot ← newSpill sum
  let tag ← newTemp
  emit (.field tag sum slot 0)
  emit (.store (.int 32) (.int variant.index) tag)
  let payload ← payloadAddress src slot sumTy payloadTy
  let ty ← spell src payloadTy
  emit (.store ty value payload)
  let result ← newTemp
  emit (.load result sum sum.ptr slot)
  return result

def projectCode (src : Source) (address : Operand) (sumTy payloadTy : TypeId) :
    EmitM Operand := do
  let payload ← payloadAddress src address sumTy payloadTy
  let ty ← spell src payloadTy
  let result ← newTemp
  emit (.load result ty ty.ptr payload)
  return result

/-! ### Values -/

/-- A value that failed to type has no code. -/
def requireTyped (ty : TypeId) : EmitM Unit :=
  if ty = TypeId.invalid then throw .untypedValue else return ()

mutual

def emitValue (src : Source) : Value → EmitM Operand
  | .int value ty _ => do
    requireTyped ty
    intLiteral src value ty
  | .float bits ty _ => do
    requireTyped ty
    floatLiteral src bits ty
  | .bool value ty _ => do
    requireTyped ty
    return .bool value
  | .unit ty _ => do
    requireTyped ty
    return .zero
  | .var v ty _ => do
    requireTyped ty
    let slot ← slotOf src v
    let spelling ← spell src ty
    let result ← newTemp
    emit (.load result spelling spelling.ptr slot)
    return result
  | .arg index ty _ => do
    requireTyped ty
    return .arg index
  | .func fn ty _ => do
    requireTyped ty
    return .global (← ask src (·.funs.get fn)).name
  | .binary lhs op rhs ty _ => do
    requireTyped ty
    let l ← ask src (·.types.get lhs.ty)
    let r ← ask src (·.types.get rhs.ty)
    let spelling ← spell src lhs.ty
    let left ← emitValue src lhs
    let right ← emitValue src rhs
    let result ← newTemp
    binaryCode src result op l r spelling left right rhs.ty
  | .unary op operand ty _ => do
    requireTyped ty
    let spelling ← spell src ty
    match op with
    | .star =>
      let address ← emitValue src operand
      let result ← newTemp
      let addressTy ← spell src operand.ty
      emit (.load result spelling addressTy address)
      return result
    | .bitAnd =>
      match ← emitAddress src operand with
      | some address => return address
      | none =>
        let operandTy ← spell src operand.ty
        let value ← emitValue src operand
        spill value operandTy
    | .sub =>
      let value ← emitValue src operand
      negation src spelling operand.ty value
    | .bitNot =>
      let value ← emitValue src operand
      complement src spelling operand.ty value
    | _ => throw (.unsupported .unary)
  | .cast operand ty _ => do
    requireTyped ty
    let value ← emitValue src operand
    castCode src value operand.ty ty
  | .member base field ty _ => do
    requireTyped ty
    let value ← emitValue src base
    let result ← newTemp
    let baseTy ← spell src base.ty
    emit (.extract result baseTy value field)
    return result
  | .call callee args ty _ => do
    requireTyped ty
    let callee ← emitValue src callee
    let args ← emitArgs src args
    let result ← newTemp
    let spelling ← spell src ty
    emit (.call result spelling callee args)
    return result
  | .inject variant payload ty _ => do
    requireTyped ty
    let value ← emitValue src payload
    injectCode src variant value payload.ty ty
  | .project sum _ ty _ => do
    requireTyped ty
    let address ← match ← emitAddress src sum with
      | some address => pure address
      | none => do
        let sumTy ← spell src sum.ty
        let value ← emitValue src sum
        spill value sumTy
    projectCode src address sum.ty ty

/-- The address of a value that has one. -/
def emitAddress (src : Source) : Value → EmitM (Option Operand)
  | .var v _ _ => some <$> slotOf src v
  | .member base field _ _ => do
    match ← emitAddress src base with
    | none => return none
    | some address =>
      let baseTy ← spell src base.ty
      let result ← newTemp
      emit (.field result baseTy address field)
      return some result
  | .unary .star operand _ _ => some <$> emitValue src operand
  | _ => return none

def emitArgs (src : Source) : List Value → EmitM (List (CodeType × Operand))
  | [] => return []
  | v :: rest => do
    let value ← emitValue src v
    let ty ← spell src v.ty
    return (ty, value) :: (← emitArgs src rest)

end

end BlockCompiler.Target
