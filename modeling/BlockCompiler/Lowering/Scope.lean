/-
  BlockCompiler.Lowering.Scope — names in force.

  Scopes nest; a name is looked up in the innermost scope that has it, and a later binding
  in a scope hides an earlier one. Functions are found after all variables.
-/
import BlockCompiler.Graph.Context
import BlockCompiler.Log.Filter

namespace BlockCompiler

/-- The bindings of one scope, latest first. -/
abbrev Scope := List (String × VarId)

/-- What an expression can see: the names in force and what they name. -/
structure Env where
  gate : Log.Gate
  file : FileId
  /-- Innermost first. -/
  scopes : List Scope
  functions : List (String × FunId)
  vars : Arena .variable Variable
  funs : Arena .function Function

namespace Scope

/-- The variable that a name stands for, innermost scope first. -/
def lookup? (scopes : List Scope) (name : String) : Option VarId :=
  scopes.findSome? (List.lookup name)

end Scope

namespace Env

def local? (env : Env) (name : String) : Option VarId := Scope.lookup? env.scopes name

def function? (env : Env) (name : String) : Option FunId := env.functions.lookup name

/-- All names in force: the outermost scope first, functions last. -/
def names (env : Env) : List String :=
  (env.scopes.reverse.flatMap (·.map (·.1))) ++ env.functions.map (·.1)

end Env

end BlockCompiler
