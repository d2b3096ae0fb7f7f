/-
  BlockCompiler.Log.Place — where paths lead.

  A path is a row of steps between slashes; the last one is a name, the others lead from
  folder to folder. It starts at the root if its first character is a slash, and else at the
  working folder, which lies somewhere under `/tmp` and has no name that a path could use.
  Steps `.` stay, steps `..` go up, and links count as the folder they lead to. No folder is
  ever made.

  Files can be opened in the working folder and in the folders for temporary files. Devices
  can be opened, take what is written to them and hold nothing. The console has names, too.
-/
import BlockCompiler.Text.Split

namespace BlockCompiler.Log

inductive Folder where
  | working
  /-- A folder of the system, known by the names on the way from the root. -/
  | system (names : List String)
  deriving DecidableEq, Repr

namespace Folder

def root : Folder := system []

def temporary : Folder := system ["tmp"]

/-- The system's folders below the root. -/
def known : List (List String) :=
  [["boot"], ["dev"], ["etc"], ["home"], ["media"], ["mnt"], ["opt"], ["proc"], ["root"],
    ["run"], ["srv"], ["sys"], ["tmp"], ["usr"], ["var"],
    ["dev", "pts"], ["dev", "shm"],
    ["proc", "self"], ["proc", "self", "fd"], ["proc", "self", "task"], ["proc", "sys"],
    ["usr", "bin"], ["usr", "include"], ["usr", "lib"], ["usr", "lib64"], ["usr", "local"],
    ["usr", "local", "bin"], ["usr", "local", "lib"], ["usr", "sbin"], ["usr", "share"],
    ["usr", "src"],
    ["var", "cache"], ["var", "lib"], ["var", "log"], ["var", "tmp"]]

/-- Names that lead to a folder elsewhere. -/
def links : List (List String × Folder) :=
  [(["bin"], system ["usr", "bin"]), (["lib"], system ["usr", "lib"]),
    (["lib64"], system ["usr", "lib64"]), (["sbin"], system ["usr", "sbin"]),
    (["dev", "fd"], system ["proc", "self", "fd"]),
    (["proc", "self", "cwd"], working), (["proc", "self", "root"], root),
    (["var", "run"], system ["run"])]

/-- The system's folders in which files can be made. -/
def writable : List (List String) := [["tmp"], ["dev", "shm"], ["var", "tmp"]]

def parent : Folder → Folder
  | working => temporary
  | system names => system names.dropLast

/-- The folder inside a folder that has this name. -/
def child? (folder : Folder) (name : String) : Option Folder :=
  match folder with
  | working => none
  | system names =>
    let names := names ++ [name]
    if names ∈ known then some (system names) else links.lookup names

/-- The folder to which one step leads. -/
def enter? (folder : Folder) (step : String) : Option Folder :=
  if step = "" ∨ step = "." then some folder
  else if step = ".." then some folder.parent
  else folder.child? step

end Folder

/-- What a path can open. -/
inductive Place where
  | file (folder : Folder) (name : String)
  | device
  | console
  deriving DecidableEq, Repr

namespace Place

/-- The devices of `/dev`. -/
def devices : List String := ["null", "zero", "full", "random", "urandom"]

/-- The most bytes that a name can have. -/
def maxName : Nat := 255

/-- The most bytes that a path can have. -/
def maxPath : Nat := 4095

/-- What can be opened under a name in a folder. -/
def inFolder? (folder : Folder) (name : String) : Option Place :=
  if name = "" ∨ name = "." ∨ name = ".." ∨ maxName < name.utf8ByteSize then none
  else if (folder.child? name).isSome then none
  else
    match folder with
    | .working => some (file folder name)
    | .system names =>
      if names ∈ Folder.writable then some (file folder name)
      else if names = ["dev"] ∧ name ∈ devices then some device
      else if (names, name) ∈ [(["dev"], "stderr"), (["proc", "self", "fd"], "2")] then
        some console
      else none

/-- What a path opens. -/
def ofPath? (path : String) : Option Place :=
  let path := Text.untilNul path
  let steps := (Text.split '/' path.toList).map String.ofList
  let start := if path.toList.head? = some '/' then Folder.root else .working
  if maxPath < path.utf8ByteSize then none
  else
    (steps.dropLast.foldlM Folder.enter? start).bind fun folder =>
      inFolder? folder (steps.getLast?.getD "")

end Place

end BlockCompiler.Log
