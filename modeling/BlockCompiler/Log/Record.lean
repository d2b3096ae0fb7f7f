/-
  BlockCompiler.Log.Record — log records and the two ways a record is written.

  A text line shows the wall clock of the writing; a JSON line shows the record's own time.
  In JSON the message is escaped (quote, backslash, newline, carriage return, tab) and the
  area is written as it is. Both are bytes of any kind there.

  A line is made of pieces, in the order in which they are handed to where it goes. The
  blanks that fill up the level's column are handed over one at a time, so they are a kind
  of piece of their own; a JSON line is one piece.
-/
import BlockCompiler.Fault
import BlockCompiler.Log.Filter

namespace BlockCompiler.Log

structure Record where
  level : Level
  area : String
  text : String
  /-- Milliseconds since the epoch. -/
  time : Int := 0
  deriving DecidableEq, Repr

inductive Format where
  | text
  | json
  deriving DecidableEq, Repr

/-- When something is written: the clock shown in text lines and the time of new records. -/
structure Moment where
  clock : String
  millis : Int
  deriving DecidableEq, Repr

/-- A part of a line that is handed over at once, or blanks that are handed over singly. -/
inductive Piece where
  | text (text : String)
  | blanks (count : Nat)
  deriving DecidableEq, Repr

namespace Piece

def shown : Piece → String
  | text t => t
  | blanks count => String.ofList (List.replicate count ' ')

/-- The line that pieces make. -/
def join (pieces : List Piece) : String := String.join (pieces.map shown)

end Piece

namespace Record

def levelColumn : Nat := 5

/-- `HH:MM:SS.mmm LEVEL [area] text`; `paint` is the code that colours the level's name. -/
def textPieces (r : Record) (now : Moment) (paint : Option String) : List Piece :=
  let name := r.level.name
  let padded := [.text name, .blanks (levelColumn - name.length)]
  let shown := match paint with
    | some code => [.text code] ++ padded ++ [.text "\x1b[0m"]
    | none => padded
  [.text now.clock, .text " "] ++ shown ++
    [.text " [", .text r.area, .text "] ", .text r.text, .text "\n"]

def textLine (r : Record) (now : Moment) (paint : Option String) : String :=
  Piece.join (r.textPieces now paint)

/-- What is written for a byte of a message. -/
def escapeByte (b : UInt8) : Bytes :=
  if b = Bytes.quote ∨ b = Bytes.backslash then [Bytes.backslash, b]
  else if b = Bytes.newline then "\\n"
  else if b = Bytes.carriageReturn then "\\r"
  else if b = Bytes.tab then "\\t"
  else [b]

/-- The JSON line of a record with this area and this message. -/
def jsonBytes (time : Int) (level : Level) (area text : Bytes) : Bytes :=
  Bytes.ofString ("\x7b\"ts\":" ++ toString time ++ ",\"level\":\"" ++ level.name ++ "\",\"module\":\"") ++ area ++
    "\",\"msg\":\"" ++ text.flatMap escapeByte ++ "\"\x7d\n"

def jsonLine (r : Record) : String := (jsonBytes r.time r.level r.area r.text).toString

def pieces (r : Record) (now : Moment) (paint : Option String) : Format → List Piece
  | .text => r.textPieces now paint
  | .json => [.text r.jsonLine]

def line (r : Record) (now : Moment) (paint : Option String) (format : Format) : String :=
  Piece.join (r.pieces now paint format)

/-- The record that announces a fault, if the fault belongs to an area. -/
def ofFault? (f : Fault) : Option Record :=
  f.area.map fun area =>
    { level := .fatal, area := area, text := "internal compiler error: " ++ f.message }

end Record

/-- The records written so far, oldest first. -/
abbrev Journal := Array Record

/-- Appends a record that the gate lets through. -/
def Journal.note (j : Journal) (gate : Gate) (level : Level) (area text : String) : Journal :=
  if gate.allows level area then j.push { level := level, area := area, text := text } else j

/-- Appends the announcement of a fault, if the gate lets it through. -/
def Journal.noteFault (j : Journal) (gate : Gate) (f : Fault) : Journal :=
  match Record.ofFault? f with
  | some r => j.note gate r.level r.area r.text
  | none => j

end BlockCompiler.Log
