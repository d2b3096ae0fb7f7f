/-
  BlockCompiler.Log.Outside — what sinks write to: the console and the files.

  The console can be written to as a file, under the names that lead to it.
-/
import BlockCompiler.Log.Place
import BlockCompiler.Text.Bytes

namespace BlockCompiler.Log

structure Outside where
  console : String := ""
  files : List (Place × Bytes) := []
  deriving DecidableEq, Repr

namespace Outside

/-- What a place holds; nothing if there is no such file. -/
def content (o : Outside) : Place → Bytes
  | .device => []
  | .console => Bytes.ofString o.console
  | place => (o.files.lookup place).getD []

/-- What is read under a path. -/
def contentAt (o : Outside) (path : String) : Bytes :=
  match Place.ofPath? path with
  | some place => o.content place
  | none => []

def setContent (o : Outside) (place : Place) (content : Bytes) : Outside :=
  match place with
  | .device => o
  | .console => { o with console := content.toString }
  | place => { o with files := (place, content) :: o.files.filter (·.1 ≠ place) }

def print (o : Outside) (text : String) : Outside := { o with console := o.console ++ text }

end Outside

/-- Overwrites `content` from `position` on; a gap before it is filled with zeros. -/
def writeAt (content : Bytes) (position : Nat) (data : Bytes) : Bytes :=
  content.take position ++ List.replicate (position - content.length) 0 ++ data ++
    content.drop (position + data.length)

end BlockCompiler.Log
