/-
  BlockCompiler.Target.Print — modules of the target language as text.
-/
import BlockCompiler.Target.Code
import BlockCompiler.Text.Double

namespace BlockCompiler.Target

def Operand.text : Operand → String
  | temp n => s!"%t{n}"
  | slot v => s!"%var{v.index}"
  | spill n => s!"%spill{n}"
  | arg n => s!"%arg{n}"
  | global name => "@\"" ++ name ++ "\""
  | int value => toString value
  | float bits => "0x" ++ Double.hexText bits
  | floatZero => "0.0"
  | bool value => if value then "true" else "false"
  | zero => "zeroinitializer"

def IntPredicate.text : IntPredicate → String
  | eq => "eq"
  | ne => "ne"
  | sgt => "sgt"
  | ugt => "ugt"
  | sge => "sge"
  | uge => "uge"
  | slt => "slt"
  | ult => "ult"
  | sle => "sle"
  | ule => "ule"

def FloatPredicate.text : FloatPredicate → String
  | oeq => "oeq"
  | ogt => "ogt"
  | oge => "oge"
  | olt => "olt"
  | ole => "ole"
  | une => "une"

def BinaryOp.text : BinaryOp → String
  | and => "and"
  | or => "or"
  | xor => "xor"
  | add => "add"
  | sub => "sub"
  | mul => "mul"
  | sdiv => "sdiv"
  | udiv => "udiv"
  | shl => "shl"
  | ashr => "ashr"
  | lshr => "lshr"
  | fadd => "fadd"
  | fsub => "fsub"
  | fmul => "fmul"
  | fdiv => "fdiv"
  | icmp p => "icmp " ++ p.text
  | fcmp p => "fcmp " ++ p.text

def ConvertOp.text : ConvertOp → String
  | trunc => "trunc"
  | sext => "sext"
  | zext => "zext"
  | sitofp => "sitofp"
  | uitofp => "uitofp"
  | fptosi => "fptosi"
  | fptoui => "fptoui"
  | fpext => "fpext"
  | fptrunc => "fptrunc"
  | bitcast => "bitcast"
  | ptrtoint => "ptrtoint"
  | inttoptr => "inttoptr"

def labelText (b : BlockId) : String := s!"bb{b.index}"

/-- A type and an operand of it. -/
def typed (ty : CodeType) (o : Operand) : String := ty.text ++ " " ++ o.text

def Instr.text : Instr → String
  | store ty value address => "store " ++ typed ty value ++ ", " ++ typed ty.ptr address
  | load result ty addressTy address =>
    result.text ++ " = load " ++ ty.text ++ ", " ++ typed addressTy address
  | extract result ty value index =>
    result.text ++ " = extractvalue " ++ typed ty value ++ s!", {index}"
  | field result ty address index =>
    result.text ++ " = getelementptr inbounds " ++ ty.text ++ ", " ++ typed ty.ptr address ++
      s!", i32 0, i32 {index}"
  | offset result element addressTy address index =>
    result.text ++ " = getelementptr " ++ element.text ++ ", " ++ typed addressTy address ++
      ", i64 " ++ index.text
  | binary result op ty lhs rhs =>
    result.text ++ " = " ++ op.text ++ " " ++ typed ty lhs ++ ", " ++ rhs.text
  | negate result ty value => result.text ++ " = fneg " ++ typed ty value
  | convert result op source value target =>
    result.text ++ " = " ++ op.text ++ " " ++ typed source value ++ " to " ++ target.text
  | call result ty callee args =>
    result.text ++ " = call " ++ typed ty callee ++ "(" ++
      ", ".intercalate (args.map fun (ty, value) => typed ty value) ++ ")"
  | comment text => "; " ++ text

def Exit.text : Exit → String
  | ret ty value => "ret " ++ typed ty value
  | jump target => "br label %" ++ labelText target
  | branch condition ifTrue ifFalse =>
    "br i1 " ++ condition.text ++ ", label %" ++ labelText ifTrue ++ ", label %" ++
      labelText ifFalse
  | switch tag fallback targets =>
    "switch i32 " ++ tag.text ++ ", label %" ++ labelText fallback ++ " [" ++
      String.join (targets.map fun (variant, target) =>
        s!" i32 {variant.index}, label %" ++ labelText target) ++ " ]"

/-- A line inside a block. -/
def indented (text : String) : String := "    " ++ text ++ "\n"

def CodeBlock.text (b : CodeBlock) : String :=
  "\n" ++ labelText b.label ++ ":\n" ++ String.join (b.code.map fun i => indented i.text) ++
    indented b.exit.text

def Alloca.text (a : Alloca) : String :=
  a.slot.text ++ " = alloca " ++ a.ty.text ++
    match a.comment with
    | some name => " ; " ++ name
    | none => ""

def FunCode.text : FunCode → String
  | declare result name params =>
    "declare " ++ typed result (.global name) ++ "(" ++
      ", ".intercalate (params.map CodeType.text) ++ ")\n\n"
  | define result name params inlineHint slots entry blocks =>
    "define " ++ typed result (.global name) ++ "(" ++
      ", ".intercalate (params.zipIdx.map fun (ty, i) => typed ty (.arg i)) ++ ")" ++
      (if inlineHint then " inlinehint" else "") ++ " \x7b\nentry:\n" ++
      String.join (slots.map fun a => indented a.text) ++ indented (Exit.jump entry).text ++
      String.join (blocks.map CodeBlock.text) ++ "\x7d\n\n"

def ModuleCode.text (m : ModuleCode) : String :=
  "; ModuleID = '" ++ m.name ++ "'\nsource_filename = \"" ++ m.name ++ "\"\n" ++
    (if m.triple.isEmpty then "" else "target triple = \"" ++ m.triple ++ "\"\n") ++ "\n" ++
    String.join (m.types.map fun (name, ty) =>
      (CodeType.named name).text ++ " = type " ++ ty.text ++ "\n") ++
    (if m.types.isEmpty then "" else "\n") ++ String.join (m.funs.map FunCode.text)

end BlockCompiler.Target
