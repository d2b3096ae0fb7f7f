/-
  BlockCompiler.Report.Rendering — diagnostics as text beside the source they speak of.

      error[T009]: Unknown identifier totl
        --> sum.src:2:12
           |
         2 |     return totl
           |            ^^^^ not found in this scope
           |
        = help: a binding with a similar name exists: total

  A diagnostic is laid out in rows: the place of the anchor, the places of labels in other
  files, and for each line of the anchor's file that has a label the line itself, a row of
  markers and the messages of its secondary labels. `Row.print` turns a row into bytes.

  A label in a file that is not registered is a fault; the rows before it stay written.
-/
import BlockCompiler.Report.Diagnostic
import BlockCompiler.Report.SourceFile

namespace BlockCompiler.Rendering

/-! Terminal codes. -/

def reset := "\x1b[0m"
def bold := "\x1b[1m"
def red := "\x1b[91m"
def green := "\x1b[92m"
def yellow := "\x1b[93m"
def blue := "\x1b[94m"
def cyan := "\x1b[96m"

def severityColor : Severity → String
  | .error => red
  | .warning => yellow
  | .note => cyan
  | .help => green

/-- A terminal code, or nothing with colours off. -/
def paint (colors : Bool) (code : String) : Bytes := if colors then Bytes.ofString code else []

/-- A run of markers: the blanks before it, its length, and the style of its label. -/
structure Mark where
  gap : Nat
  length : Nat
  style : LabelStyle
  deriving DecidableEq, Repr

inductive Row where
  /-- A place in a file; in a row for a label its message follows. -/
  | place (file : String) (location : Location) (message : Option String)
  /-- The margin alone. -/
  | margin
  /-- Lines are left out here. -/
  | ellipsis
  | source (line : Nat) (text : Bytes)
  | marks (runs : List Mark) (message : Option String)
  /-- A stroke below a marker. -/
  | stroke (column : Nat)
  /-- The message of a secondary label, below its stroke. -/
  | message (column : Nat) (text : String)
  deriving DecidableEq, Repr

def markByte : LabelStyle → UInt8
  | .primary => 94
  | .secondary => 45

def markColor : LabelStyle → String
  | .primary => red
  | .secondary => blue

def Mark.print (colors : Bool) (m : Mark) : Bytes :=
  Bytes.blanks m.gap ++ paint colors (markColor m.style) ++
    List.replicate m.length (markByte m.style) ++ paint colors reset

/-- A number, aligned to the right in a column. -/
def number (width n : Nat) : Bytes :=
  let digits := Bytes.ofString (toString n)
  Bytes.blanks (width - digits.length) ++ digits

def locationText (file : String) (l : Location) : Bytes :=
  Bytes.ofString s!"{file}:{l.line}:{l.column}"

/-- A row as bytes; `width` is that of the line numbers. -/
def Row.print (colors : Bool) (width : Nat) : Row → Bytes
  | place file location text =>
    paint colors blue ++ Bytes.ofString "  --> " ++ paint colors reset ++
      locationText file location ++
      (match text with
        | some t => Bytes.ofString (" " ++ t)
        | none => []) ++ [Bytes.newline]
  | margin =>
    paint colors blue ++ Bytes.blanks width ++ Bytes.ofString " |" ++ paint colors reset ++
      [Bytes.newline]
  | ellipsis =>
    paint colors blue ++ Bytes.blanks (width - 1) ++ Bytes.ofString "..." ++
      paint colors reset ++ [Bytes.newline]
  | source line text =>
    paint colors blue ++ number width line ++ Bytes.ofString " | " ++ paint colors reset ++
      text ++ [Bytes.newline]
  | marks runs text =>
    paint colors blue ++ Bytes.blanks width ++ Bytes.ofString " | " ++ paint colors reset ++
      runs.flatMap (Mark.print colors) ++
      (match text with
        | some t =>
          Bytes.ofString " " ++ paint colors red ++ Bytes.ofString t ++ paint colors reset
        | none => []) ++ [Bytes.newline]
  | stroke column =>
    paint colors blue ++ Bytes.blanks width ++ Bytes.ofString " | " ++ Bytes.blanks column ++
      Bytes.ofString "|" ++ paint colors reset ++ [Bytes.newline]
  | message column text =>
    paint colors blue ++ Bytes.blanks width ++ Bytes.ofString " | " ++ Bytes.blanks column ++
      Bytes.ofString text ++ paint colors reset ++ [Bytes.newline]

/-! ### Laying out a line -/

/-- Columns, counted from 0, that a label covers on the line where it starts: at least one,
and up to the end of the line if its span ends elsewhere. -/
def columns (f : SourceFile) (line : Nat) (l : Label) : Nat × Nat :=
  let start := (f.location l.span.start).column - 1
  let stop := f.location l.span.stop
  let stop := if stop.line = line then stop.column - 1 else (f.lineText line).length
  (start, max stop (start + 1))

/-- The markers of labels from column `position` on. Where labels overlap, the earlier one
is drawn. -/
def marksFrom (f : SourceFile) (line position : Nat) : List Label → List Mark
  | [] => []
  | l :: rest =>
    let (start, stop) := columns f line l
    { gap := start - position, length := stop - max position start, style := l.style } ::
      marksFrom f line (max position stop) rest

/-- The labels of a line in the order in which they are drawn. -/
def drawingOrder (labels : List Label) : List Label :=
  labels.mergeSort fun a b => a.span.start ≤ b.span.start

/-- The message beside the markers: that of the last primary label that has one. -/
def markMessage? (sorted : List Label) : Option String :=
  (sorted.reverse.find? fun l => l.isPrimary && l.message != "").map Label.message

def secondaryRows (f : SourceFile) (l : Label) : List Row :=
  if l.isPrimary || l.message == "" then []
  else
    let column := (f.location l.span.start).column - 1
    [.stroke column, .message column l.message]

/-- The rows of one line, given the labels that start on it. -/
def lineRows (f : SourceFile) (line : Nat) (labels : List Label) : List Row :=
  let sorted := drawingOrder labels
  .source line (f.lineText line) :: .marks (marksFrom f line 0 sorted) (markMessage? sorted) ::
    sorted.flatMap (secondaryRows f)

/-! ### Laying out a file -/

def startLine (f : SourceFile) (l : Label) : Nat := (f.location l.span.start).line

/-- Adds a number to an increasing list, once. -/
def insertLine (n : Nat) : List Nat → List Nat
  | [] => [n]
  | m :: rest =>
    if n < m then n :: m :: rest
    else if n = m then m :: rest
    else m :: insertLine n rest

/-- The lines on which labels start, in increasing order. -/
def labelledLines (f : SourceFile) (labels : List Label) : List Nat :=
  labels.foldl (fun lines l => insertLine (startLine f l) lines) []

/-- The rows of the given lines, where `previous` is the line shown before them, or 0. -/
def linesRows (f : SourceFile) (labels : List Label) (previous : Nat) : List Nat → List Row
  | [] => []
  | line :: rest =>
    (if 0 < previous ∧ previous + 1 < line then [.ellipsis] else []) ++
      lineRows f line (labels.filter (startLine f · = line)) ++ linesRows f labels line rest

/-- The width of the line numbers: that of the largest, and at least 4. -/
def numberWidth (lines : List Nat) : Nat :=
  max (toString (lines.getLast?.getD 0)).length 4

/-- The rows of all lines on which labels start, between two empty margins. -/
def fileRows (f : SourceFile) (labels : List Label) : List Row :=
  match labelledLines f labels with
  | [] => []
  | lines => .margin :: linesRows f labels 0 lines ++ [.margin]

/-! ### Writing -/

/-- A renderer: whether it uses colours, what it has counted, and what it has written. -/
structure Renderer where
  colors : Bool := false
  errors : Nat := 0
  warnings : Nat := 0
  written : Bytes := []
  deriving DecidableEq, Repr

abbrev RenderM := EStateM Fault Renderer

def write (b : Bytes) : RenderM Unit := modify fun r => { r with written := r.written ++ b }

def headerText (colors : Bool) (d : Diagnostic) : Bytes :=
  paint colors bold ++ paint colors (severityColor d.severity) ++
    Bytes.ofString d.severity.name ++
    (if d.code = "" then [] else Bytes.ofString ("[" ++ d.code ++ "]")) ++
    paint colors reset ++ paint colors bold ++ Bytes.ofString (": " ++ d.message) ++
    paint colors reset ++ [Bytes.newline]

def remark (colors : Bool) (color word text : String) : Bytes :=
  Bytes.ofString "  " ++ paint colors color ++ Bytes.ofString ("= " ++ word) ++
    paint colors reset ++ Bytes.ofString (": " ++ text) ++ [Bytes.newline]

def trailerText (colors : Bool) (d : Diagnostic) : Bytes :=
  d.notes.flatMap (remark colors cyan "note") ++ d.help.flatMap (remark colors green "help") ++
    [Bytes.newline]

def placeOf (files : SourceFiles) (l : Label) (message : Option String) : Except Fault Row := do
  let f ← files.get l.file
  return .place f.name (f.location l.span.start) message

def snippet (files : SourceFiles) (d : Diagnostic) : RenderM Unit := do
  let colors := (← get).colors
  match d.anchor? with
  | none => return ()
  | some anchor =>
    let f ← ofExcept (files.get anchor.file)
    write ((Row.place f.name (f.location anchor.span.start) none).print colors 0)
    let (near, far) := d.labels.partition (·.file = anchor.file)
    far.forM fun l => do
      write ((← ofExcept (placeOf files l (some l.message))).print colors 0)
    let width := numberWidth (labelledLines f near)
    write ((fileRows f near).flatMap (Row.print colors width))

/-- Counts a diagnostic and writes it. -/
def emit (files : SourceFiles) (d : Diagnostic) : RenderM Unit := do
  modify fun r =>
    match d.severity with
    | .error => { r with errors := r.errors + 1 }
    | .warning => { r with warnings := r.warnings + 1 }
    | _ => r
  write (headerText (← get).colors d)
  snippet files d
  write (trailerText (← get).colors d)

def emitAll (files : SourceFiles) (ds : List Diagnostic) : RenderM Unit := ds.forM (emit files)

end BlockCompiler.Rendering
