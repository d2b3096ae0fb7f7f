/-
  BlockCompiler.Log.Options — the command line's and the environment's say on logging.

  Levels come from `--log-level=`, `-q` and `--quiet`, the last one winning; without them
  the largest verbosity of `--verbose`, `-v`, `-vv`, ... decides. The environment counts
  only where the command line sets neither a level nor a filter. Arguments that are no log
  options are passed over. An argument, like the environment's value, ends at its first NUL
  character.
-/
import BlockCompiler.Log.Logger

namespace BlockCompiler.Log

namespace Options

/-- One argument of the command line. -/
inductive Argument where
  | level (level : Level)
  | filter (spec : String)
  | file (path : String)
  | format (format : Format)
  | verbose (count : Nat)
  | other
  deriving DecidableEq, Repr

def Argument.read (arg : String) : Argument :=
  let arg := Text.untilNul arg
  let after (lead : String) : Option String :=
    (Text.after? lead.toList arg.toList).map String.ofList
  if let some name := after "--log-level=" then .level (Level.parse name)
  else if let some spec := after "--log-filter=" then .filter spec
  else if let some path := after "--log-file=" then .file path
  else if let some name := after "--log-format=" then
    .format (if name = "json" ∨ name = "JSON" then .json else .text)
  else if arg = "-q" ∨ arg = "--quiet" then .level .error
  else if arg = "--verbose" then .verbose 1
  else match arg.toList with
    | '-' :: 'v' :: rest => if rest.all (· = 'v') then .verbose (rest.length + 1) else .other
    | _ => .other

/-- What the arguments read so far ask for. -/
structure Request where
  level : Option Level := none
  filter : Option String := none
  file : String := ""
  format : Format := .text
  verbosity : Nat := 0
  deriving DecidableEq, Repr

def Request.add (r : Request) : Argument → Request
  | .level level => { r with level := some level }
  | .filter spec => { r with filter := some spec }
  | .file path => { r with file := path }
  | .format format => { r with format := format }
  | .verbose count => { r with verbosity := max r.verbosity count }
  | .other => r

def verbosityLevel (count : Nat) : Option Level :=
  match count with
  | 0 => none
  | 1 => some .info
  | 2 => some .debug
  | _ => some .trace

/-- A value of the environment is a filter spec if it names areas, and a level otherwise. -/
def withEnvironment (c : Config) (value : String) : Config :=
  let value := Text.untilNul value
  if value.isEmpty then c
  else if value.toList.contains '=' || value.toList.contains ',' then
    { c with filterSpec := value }
  else { c with level := Level.parse value }

end Options

/-- The set-up that the environment alone asks for. -/
def Config.ofEnvironment (env : Option String) : Config :=
  match env with
  | some value => Options.withEnvironment { level := .warn } value
  | none => { level := .warn }

/-- The set-up that a command line, without the program's name, and the environment ask for. -/
def Config.ofArguments (args : List String) (env : Option String) : Config :=
  let r := (args.map Options.Argument.read).foldl Options.Request.add {}
  let level := r.level <|> Options.verbosityLevel r.verbosity
  let c : Config :=
    { level := level.getD .warn, format := r.format, filterSpec := r.filter.getD "",
      logFile := r.file }
  match level, r.filter, env with
  | none, none, some value => Options.withEnvironment c value
  | _, _, _ => c

end BlockCompiler.Log
