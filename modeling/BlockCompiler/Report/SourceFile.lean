/-
  BlockCompiler.Report.SourceFile — source texts and positions in them.

  Lines are divided by newline bytes and counted from 1, columns count bytes from 1. The
  lines of a file start at 0 and after each newline, so the last line may be empty.
-/
import BlockCompiler.Fault
import BlockCompiler.Span
import BlockCompiler.Text.Bytes

namespace BlockCompiler

structure Location where
  line : Nat
  column : Nat
  deriving DecidableEq, Repr

structure SourceFile where
  name : String
  content : Bytes
  deriving DecidableEq, Repr

namespace SourceFile

/-- The positions that follow a newline, where `position` is that of the first byte. -/
def startsAfterNewlines (position : Nat) : Bytes → List Nat
  | [] => []
  | b :: rest =>
    if b = Bytes.newline then (position + 1) :: startsAfterNewlines (position + 1) rest
    else startsAfterNewlines (position + 1) rest

/-- Where each line starts. -/
def lineStarts (f : SourceFile) : List Nat := 0 :: startsAfterNewlines 0 f.content

/-- The line and column of a byte; a position past the end counts as the end. -/
def location (f : SourceFile) (offset : Nat) : Location :=
  let offset := min offset f.content.length
  let starts := f.lineStarts.takeWhile (· ≤ offset)
  { line := starts.length, column := offset - starts.getLast?.getD 0 + 1 }

/-- A line without its newline; empty where there is no such line. -/
def lineText (f : SourceFile) (line : Nat) : Bytes :=
  match line with
  | 0 => []
  | n + 1 =>
    match f.lineStarts[n]? with
    | some start => (f.content.drop start).takeWhile (· ≠ Bytes.newline)
    | none => []

end SourceFile

/-- The files of a compilation; a file's number is its position. -/
structure SourceFiles where
  files : Array SourceFile := #[]
  deriving Repr

namespace SourceFiles

def size (s : SourceFiles) : Nat := s.files.size

/-- The number that the next file gets. -/
def next (s : SourceFiles) : FileId := s.files.size

def add (s : SourceFiles) (f : SourceFile) : SourceFiles := ⟨s.files.push f⟩

def get (s : SourceFiles) (file : FileId) : Except Fault SourceFile :=
  match s.files[file]? with
  | some f => .ok f
  | none => .error (.unknownFile file)

end SourceFiles

end BlockCompiler
