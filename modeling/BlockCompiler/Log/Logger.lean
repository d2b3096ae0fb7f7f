/-
  BlockCompiler.Log.Logger — the gate and the sinks behind it.

  A message is written only if the gate lets its level through for its area (`message`);
  a finished record goes to every sink untested (`write`). Setting the logger up anew drops
  its sinks, which hand over what they still hold.
-/
import BlockCompiler.Log.Sink
import BlockCompiler.Terminal

namespace BlockCompiler.Log

/-- How a logger is set up. -/
structure Config where
  level : Level := .info
  format : Format := .text
  filterSpec : String := ""
  /-- The path of the log file; empty for none. -/
  logFile : String := ""
  console : Bool := true
  colors : Bool := true
  deriving DecidableEq, Repr

structure Logger where
  gate : Gate := {}
  sinks : List Sink := []
  outside : Outside := {}

namespace Logger

def allows (l : Logger) (level : Level) (area : Bytes) : Bool := l.gate.allows level area

/-- Hands a record to every sink. -/
def write (l : Logger) (now : Moment) (r : Record) : Logger :=
  let (sinks, outside) := Sink.writeAll now r l.sinks l.outside
  { l with sinks, outside }

/-- Writes a message that the gate lets through. -/
def message (l : Logger) (now : Moment) (level : Level) (area text : String) : Logger :=
  if l.allows level area then l.write now { level, area, text, time := now.millis } else l

/-- Announces a fault. -/
def fault (l : Logger) (now : Moment) (f : Fault) : Logger :=
  match Record.ofFault? f with
  | some r => l.message now r.level r.area r.text
  | none => l

def flush (l : Logger) : Logger :=
  let (sinks, outside) := Sink.flushAll l.sinks l.outside
  { l with sinks, outside }

def clearSinks (l : Logger) : Logger := { l.flush with sinks := [] }

def addSink (l : Logger) (s : Sink) : Logger := { l with sinks := l.sinks ++ [s] }

/-- Opens a file sink, which is not yet one of the logger's. -/
def openFile (l : Logger) (path : String) (append : Bool) (format : Format) :
    FileSink × Logger :=
  let (s, outside) := FileSink.start path append format l.outside
  (s, { l with outside })

def setLevel (l : Logger) (level : Level) : Logger := { l with gate := l.gate.setLevel level }

def setFilter (l : Logger) (spec : String) : Logger := { l with gate := l.gate.setFilter spec }

/-- Sets the logger up: the gate, then a console, then the log file. A file that cannot be
opened is left out, with a warning. -/
def configure (l : Logger) (terminal : Terminal) (now : Moment) (c : Config) : Logger :=
  let l := l.clearSinks
  let l := { l with gate := l.gate.configure c.level c.filterSpec }
  let l := if c.console then
      l.addSink (.console (c.colors && terminal.supportsColors) c.format)
    else l
  if c.logFile.isEmpty then l
  else
    let (s, l) := l.openFile c.logFile true c.format
    if s.isOpen then l.addSink (.file s)
    else l.message now .warn "log" ("Could not open log file " ++ c.logFile)

end Logger

end BlockCompiler.Log
