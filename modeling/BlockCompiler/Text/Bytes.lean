/-
  BlockCompiler.Text.Bytes — text as the bytes that encode it.

  Spans, columns and edit distances count bytes, so source files and rendered reports are
  kept as bytes. So are files, in which one writer may cut through another's characters: such
  bytes are no UTF-8, and reading them shows replacement characters.
-/

namespace BlockCompiler

abbrev Bytes := List UInt8

namespace Bytes

/-- The UTF-8 encoding of a text. -/
def ofString (s : String) : Bytes := s.toUTF8.data.toList

instance : Coe String Bytes := ⟨ofString⟩

/-- An encoded character of which some bytes are still to come. -/
structure Begun where
  /-- The bits of the character so far. -/
  value : Nat
  /-- The range in which the next byte must lie. -/
  low : UInt8
  high : UInt8
  /-- How many bytes follow the next one. -/
  more : Nat

/-- Stands for bytes that encode no character. -/
def replacement : Char := '\uFFFD'

/-- Decodes the lead byte of a character. -/
def leadByte (b : UInt8) : List Char × Option Begun :=
  let start (low high : UInt8) (more : Nat) (mask : UInt8) : List Char × Option Begun :=
    ([], some ⟨(b &&& mask).toNat, low, high, more⟩)
  if b < 0x80 then ([Char.ofNat b.toNat], none)
  else if b < 0xC2 then ([replacement], none)
  else if b < 0xE0 then start 0x80 0xBF 0 0x1F
  else if b = 0xE0 then start 0xA0 0xBF 1 0x0F
  else if b = 0xED then start 0x80 0x9F 1 0x0F
  else if b < 0xF0 then start 0x80 0xBF 1 0x0F
  else if b = 0xF0 then start 0x90 0xBF 2 0x07
  else if b < 0xF4 then start 0x80 0xBF 2 0x07
  else if b = 0xF4 then start 0x80 0x8F 2 0x07
  else ([replacement], none)

/-- Decodes one more byte. A byte that cannot continue the character ends it and begins the
next one. -/
def nextByte (state : Option Begun) (b : UInt8) : List Char × Option Begun :=
  match state with
  | none => leadByte b
  | some c =>
    if c.low ≤ b ∧ b ≤ c.high then
      let value := c.value * 64 + (b &&& 0x3F).toNat
      match c.more with
      | 0 => ([Char.ofNat value], none)
      | more + 1 => ([], some ⟨value, 0x80, 0xBF, more⟩)
    else
      let (chars, state) := leadByte b
      (replacement :: chars, state)

/-- The characters that bytes encode, one replacement character for each start of a
character that is not completed and for each byte that begins none. -/
def decode (state : Option Begun) : Bytes → List Char
  | [] => if state.isSome then [replacement] else []
  | b :: rest =>
    let (chars, state) := nextByte state b
    chars ++ decode state rest

/-- The text that the bytes encode; what is not UTF-8 shows as replacement characters. -/
def toString (b : Bytes) : String := String.ofList (decode none b)

def tab : UInt8 := 9

def newline : UInt8 := 10

def carriageReturn : UInt8 := 13

def space : UInt8 := 32

def quote : UInt8 := 34

def star : UInt8 := 42

def comma : UInt8 := 44

def equals : UInt8 := 61

def backslash : UInt8 := 92

/-- `n` blanks. -/
def blanks (n : Nat) : Bytes := List.replicate n space

end Bytes

end BlockCompiler
