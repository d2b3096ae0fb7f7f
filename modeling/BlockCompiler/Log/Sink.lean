/-
  BlockCompiler.Log.Sink — where records go.

  A console shows a record at once. A file sink collects the pieces of its lines and hands
  them over when it is flushed, which a record of level `error` or above does by itself, or
  when they no longer fit. A sink opened to append writes at the end of the file; another
  one empties the file and goes on at its own position. A memory sink keeps the records. A
  sink of several sinks writes to each in turn.
-/
import BlockCompiler.Log.Outside
import BlockCompiler.Log.Record

namespace BlockCompiler.Log

structure FileSink where
  /-- The path as it was given. -/
  path : String
  format : Format := .text
  /-- What is open; none if the path could not be opened. -/
  place : Option Place
  /-- The next position to write at; none for a sink that appends. -/
  position : Option Nat
  pending : Bytes := []
  deriving DecidableEq, Repr

namespace FileSink

/-- Opens a file, which is created, or emptied unless the sink appends. -/
def start (path : String) (append : Bool) (format : Format) (o : Outside) : FileSink × Outside :=
  let place := Place.ofPath? path
  let position := if append then none else some 0
  let opened := match place with
    | some p => o.setContent p (if append then o.content p else [])
    | none => o
  ({ path, format, place, position }, opened)

def isOpen (s : FileSink) : Bool := s.place.isSome

/-- The most bytes that a sink collects. -/
def capacity : Nat := 8191

/-- A piece of this many bytes is handed over even where it would fit. -/
def largePiece : Nat := 1024

/-- How many more bytes the sink can collect. -/
def room (s : FileSink) : Nat := capacity - s.pending.length

/-- Hands `data` over to the file and leaves nothing pending. -/
def deliver (s : FileSink) (data : Bytes) (o : Outside) : FileSink × Outside :=
  match s.place, s.position with
  | none, _ => (s, o)
  | some place, none =>
    ({ s with pending := [] }, o.setContent place (o.content place ++ data))
  | some place, some p =>
    ({ s with pending := [], position := some (p + data.length) },
      o.setContent place (writeAt (o.content place) p data))

def flush (s : FileSink) (o : Outside) : FileSink × Outside :=
  if s.pending.isEmpty then (s, o) else s.deliver s.pending o

/-- Collects a piece. If it is large or takes all the room that is left, it is handed over
at once, behind what was pending. -/
def put (s : FileSink) (piece : Bytes) (o : Outside) : FileSink × Outside :=
  if piece.length < min largePiece s.room then
    ({ s with pending := s.pending ++ piece }, o)
  else s.deliver (s.pending ++ piece) o

/-- Collects `count` blanks, one at a time. A blank that finds no room is handed over at once,
behind what was pending. -/
def putBlanks (s : FileSink) (o : Outside) : (count : Nat) → FileSink × Outside
  | 0 => (s, o)
  | count + 1 =>
    let pending := s.pending ++ [Bytes.space]
    let (s, o) := if 0 < s.room then ({ s with pending }, o) else s.deliver pending o
    s.putBlanks o count

def putPiece (s : FileSink) (o : Outside) : Piece → FileSink × Outside
  | .text t => s.put (Bytes.ofString t) o
  | .blanks count => s.putBlanks o count

def write (s : FileSink) (now : Moment) (r : Record) (o : Outside) : FileSink × Outside :=
  if s.isOpen then
    let (s, o) := (r.pieces now none s.format).foldl (fun (s, o) p => putPiece s o p) (s, o)
    if Level.error ≤ r.level then s.flush o else (s, o)
  else (s, o)

end FileSink

inductive Sink where
  | console (colors : Bool) (format : Format)
  | file (sink : FileSink)
  /-- A memory sink; the number tells it from other memory sinks. -/
  | memory (number : Nat) (records : Array Record)
  | null
  | several (sinks : List Sink)

namespace Sink

mutual

def write (now : Moment) (r : Record) : Sink → Outside → Sink × Outside
  | console colors format, o =>
    (console colors format,
      o.print (r.line now (if colors then some r.level.paint else none) format))
  | file s, o =>
    let (s, o) := s.write now r o
    (file s, o)
  | memory number records, o => (memory number (records.push r), o)
  | null, o => (null, o)
  | several sinks, o =>
    let (sinks, o) := writeAll now r sinks o
    (several sinks, o)

/-- Writes to each sink in turn. -/
def writeAll (now : Moment) (r : Record) : List Sink → Outside → List Sink × Outside
  | [], o => ([], o)
  | s :: rest, o =>
    let (s, o) := write now r s o
    let (rest, o) := writeAll now r rest o
    (s :: rest, o)

end

mutual

def flush : Sink → Outside → Sink × Outside
  | file s, o =>
    let (s, o) := s.flush o
    (file s, o)
  | several sinks, o =>
    let (sinks, o) := flushAll sinks o
    (several sinks, o)
  | s, o => (s, o)

/-- Flushes each sink in turn. -/
def flushAll : List Sink → Outside → List Sink × Outside
  | [], o => ([], o)
  | s :: rest, o =>
    let (s, o) := flush s o
    let (rest, o) := flushAll rest o
    (s :: rest, o)

end

mutual

/-- The records of the memory sink with this number. -/
def records? (number : Nat) : Sink → Option (Array Record)
  | memory n records => if n = number then some records else none
  | several sinks => recordsAmong? number sinks
  | _ => none

def recordsAmong? (number : Nat) : List Sink → Option (Array Record)
  | [] => none
  | s :: rest => records? number s <|> recordsAmong? number rest

end

mutual

/-- Empties the memory sink with this number. -/
def forget (number : Nat) : Sink → Sink
  | memory n records => memory n (if n = number then #[] else records)
  | several sinks => several (forgetAmong number sinks)
  | s => s

def forgetAmong (number : Nat) : List Sink → List Sink
  | [] => []
  | s :: rest => forget number s :: forgetAmong number rest

end

end Sink

end BlockCompiler.Log
