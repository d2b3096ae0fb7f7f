/-
  BlockCompiler.Graph.Print — functions and blocks as text.

      fun add(i32 a, i32 b) -> i32 {
      bb0:
          live %0 a: i32
          %0 = arg0
          return (%0 + %0)
      }

  Only reachable blocks are printed, breadth first. A function defined elsewhere is one
  line.
-/
import BlockCompiler.Graph.Reachable
import BlockCompiler.Text.Double

namespace BlockCompiler.Context

mutual

def printValue (c : Context) : Value → Except Fault String
  | .int value _ _ => return toString value
  | .float bits _ _ => return Double.generalText bits
  | .bool value _ _ => return if value then "true" else "false"
  | .unit _ _ => return "()"
  | .var v _ _ => return s!"%{v.index}"
  | .arg index _ _ => return s!"arg{index}"
  | .func fn _ _ => return "@" ++ (← c.funs.get fn).name
  | .binary lhs op rhs _ _ => do
    let l ← printValue c lhs
    let r ← printValue c rhs
    return "(" ++ l ++ " " ++ op.spelling ++ " " ++ r ++ ")"
  | .unary op operand _ _ => return "(" ++ op.spelling ++ (← printValue c operand) ++ ")"
  | .cast operand ty _ => do
    let e ← printValue c operand
    return "(" ++ e ++ " as " ++ (← c.typeName ty) ++ ")"
  | .member base field _ _ => return (← printValue c base) ++ s!".{field}"
  | .call callee args _ _ => do
    let f ← printValue c callee
    return f ++ "(" ++ ", ".intercalate (← printValues c args) ++ ")"
  | .inject variant payload _ _ =>
    return s!"variant{variant.index}(" ++ (← printValue c payload) ++ ")"
  | .project sum variant _ _ =>
    return s!"payload{variant.index}(" ++ (← printValue c sum) ++ ")"

def printValues (c : Context) : List Value → Except Fault (List String)
  | [] => return []
  | v :: rest => do
    let text ← printValue c v
    return text :: (← printValues c rest)

end

def printStmt (c : Context) : BlockStmt → Except Fault String
  | .live v => do
    let var ← c.vars.get v
    return s!"live %{v.index} {var.name}: " ++ (← c.typeName var.ty)
  | .store v value => return s!"%{v.index} = " ++ (← printValue c value)

def printTerminator (c : Context) : Terminator → Except Fault String
  | .ret value => return "return " ++ (← printValue c value)
  | .jump target => return s!"jmp bb{target.index}"
  | .branch condition ifTrue ifFalse =>
    return "jmpif " ++ (← printValue c condition) ++
      s!", bb{ifTrue.index}, bb{ifFalse.index}"
  | .switch scrutinee targets fallback => do
    let e ← printValue c scrutinee
    let parts ← targets.mapM fun (variant, target) => do
      let ty ← c.types.variantType scrutinee.ty variant
      return (← c.typeName ty) ++ s!" -> bb{target.index}"
    return "match " ++ e ++ " [" ++ ", ".intercalate parts ++ s!"], default bb{fallback.index}"

def printBlock (c : Context) (b : BlockId) : Except Fault String := do
  let block ← c.blocks.get b
  let stmts ← block.stmts.toList.mapM fun s => return "    " ++ (← printStmt c s) ++ "\n"
  let last ← match block.terminator with
    | some t => do pure ("    " ++ (← printTerminator c t) ++ "\n")
    | none => pure "    ; no terminator\n"
  return s!"bb{b.index}:\n" ++ String.join stmts ++ last

def printParam (c : Context) (p : Parameter) : Except Fault String := do
  let ty ← c.typeName p.ty
  match p.name with
  | some name => return ty ++ " " ++ name
  | none => return ty

def printFun (c : Context) (fn : FunId) : Except Fault String := do
  let f ← c.funs.get fn
  let params ← f.signature.params.mapM (printParam c)
  let result ← c.typeName f.signature.result
  let head := "fun " ++ f.name ++ "(" ++ ", ".intercalate params ++ ") -> " ++ result
  match f.body with
  | none => return "extern " ++ head ++ "\n"
  | some body =>
    let blocks ← (c.reachableFrom body.entry).mapM (printBlock c)
    return head ++ " \x7b\n" ++ String.join blocks ++ "\x7d\n"

/-- All functions, in the order in which they were declared. -/
def print (c : Context) : Except Fault String := do
  let texts ← c.funs.handles.mapM fun fn => return (← printFun c fn) ++ "\n"
  return String.join texts

end BlockCompiler.Context
