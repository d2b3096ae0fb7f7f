/-
  BlockCompiler.Log.Level — how grave a log record is.

  Levels are ordered by rank. The ranks 0 to 6 have names; `off`, the highest named one,
  stands above every record. Other ranks are ordered all the same and have no name. Where a
  level is given as a number, that number is a 32-bit word.
-/
import BlockCompiler.Text.Bytes

namespace BlockCompiler.Log

structure Level where
  rank : Int
  deriving DecidableEq, Repr

namespace Level

def trace : Level := ⟨0⟩
def debug : Level := ⟨1⟩
def info : Level := ⟨2⟩
def warn : Level := ⟨3⟩
def error : Level := ⟨4⟩
def fatal : Level := ⟨5⟩
def off : Level := ⟨6⟩

/-- The level with this number, which is read as a signed 32-bit word. -/
def ofCode (code : Int) : Level := ⟨code.bmod 0x100000000⟩

instance : LE Level := ⟨fun a b => a.rank ≤ b.rank⟩
instance : LT Level := ⟨fun a b => a.rank < b.rank⟩
instance (a b : Level) : Decidable (a ≤ b) := inferInstanceAs (Decidable (a.rank ≤ b.rank))
instance (a b : Level) : Decidable (a < b) := inferInstanceAs (Decidable (a.rank < b.rank))

def name (l : Level) : String :=
  if l = trace then "TRACE"
  else if l = debug then "DEBUG"
  else if l = info then "INFO"
  else if l = warn then "WARN"
  else if l = error then "ERROR"
  else if l = fatal then "FATAL"
  else if l = off then "OFF"
  else "???"

/-- Reads a level's name, all in lower or all in upper case; anything else is `info`. -/
def parse (s : Bytes) : Level :=
  if s = "trace" ∨ s = "TRACE" then trace
  else if s = "debug" ∨ s = "DEBUG" then debug
  else if s = "info" ∨ s = "INFO" then info
  else if s = "warn" ∨ s = "WARN" then warn
  else if s = "error" ∨ s = "ERROR" then error
  else if s = "fatal" ∨ s = "FATAL" then fatal
  else if s = "off" ∨ s = "OFF" then off
  else info

/-- The lower of two levels; the first where they are equal. -/
def lower (a b : Level) : Level := if b < a then b else a

/-- The terminal code that colours the level's name. -/
def paint (l : Level) : String :=
  if l = trace then "\x1b[90m"
  else if l = debug then "\x1b[36m"
  else if l = info then "\x1b[32m"
  else if l = warn then "\x1b[33m"
  else if l = error then "\x1b[31m"
  else if l = fatal then "\x1b[1;31m"
  else ""

end Level

end BlockCompiler.Log
