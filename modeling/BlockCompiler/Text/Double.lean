/-
  BlockCompiler.Text.Double — 64-bit floats, given by their bits, in text and in 32 bits.

  A finite double is `m * 2^e` with natural `m`. `generalText` writes it with six significant
  digits, the digits being those of the nearest decimal, ties to even; exponents from -4 to 5
  are written positionally and trailing zeros are left out. `throughSingle` rounds it to the
  nearest 32-bit float, ties to even, and gives that float's bits as a double.

  Everything is exact arithmetic on natural numbers.
-/

namespace BlockCompiler.Double

def isNegative (bits : UInt64) : Bool := bits >>> 63 = 1

def exponentField (bits : UInt64) : Nat := (bits >>> 52 &&& 0x7FF).toNat

def mantissaField (bits : UInt64) : Nat := (bits &&& 0xFFFFFFFFFFFFF).toNat

/-- Infinities and what is not a number. -/
def isSpecial (bits : UInt64) : Bool := exponentField bits = 0x7FF

/-- The leading bit of a normal double's mantissa, which is not stored. -/
def leadingBit : Nat := 0x10000000000000

/-- `m` and `e` of a finite double. -/
def decode (bits : UInt64) : Nat × Int :=
  if exponentField bits = 0 then (mantissaField bits, -1074)
  else (leadingBit + mantissaField bits, (exponentField bits : Int) - 1075)

/-- `num / den` to the nearest natural number, ties to even. -/
def roundDiv (num den : Nat) : Nat :=
  let q := num / den
  let r := num % den
  if 2 * r < den then q
  else if den < 2 * r then q + 1
  else if q % 2 = 0 then q else q + 1

/-- `m * b ^ e` as a quotient of natural numbers. -/
def scaled (m b : Nat) (e : Int) : Nat × Nat :=
  if 0 ≤ e then (m * b.pow e.toNat, 1) else (m, b.pow (-e).toNat)

/-- The decimal digits of a natural number. -/
def digits (n : Nat) : List Char := Nat.toDigits 10 n

/-! ### Text -/

/-- The number of digits that `generalText` keeps. -/
def precision : Nat := 6

/-- The exponent of the leading decimal digit of `num / den`, which is positive and at least
`10 ^ -400`. -/
def decimalExponent (num den : Nat) : Int :=
  ((digits (num * Nat.pow 10 400 / den)).length : Int) - 401

/-- `num / den` as `d` and `x`, where `d` has `precision` digits and the value rounds to
`d * 10 ^ (x + 1 - precision)`. -/
def significant (num den : Nat) : Nat × Int :=
  let x := decimalExponent num den
  let shift := (precision : Int) - 1 - x
  let d := if 0 ≤ shift then roundDiv (num * Nat.pow 10 shift.toNat) den
    else roundDiv num (den * Nat.pow 10 (-shift).toNat)
  if d = Nat.pow 10 precision then (Nat.pow 10 (precision - 1), x + 1) else (d, x)

def dropZeros (ds : List Char) : List Char := (ds.reverse.dropWhile (· = '0')).reverse

/-- Digits before and after a point; without a fraction there is no point. -/
def pointed (whole fraction : List Char) : List Char :=
  match dropZeros fraction with
  | [] => whole
  | fraction => whole ++ '.' :: fraction

/-- An exponent: its sign and at least two digits. -/
def exponentText (x : Int) : List Char :=
  let ds := digits x.natAbs
  (if x < 0 then '-' else '+') :: (if ds.length < 2 then '0' :: ds else ds)

/-- Writes the digits `ds`, whose first one has the decimal exponent `x`. -/
def arranged (ds : List Char) (x : Int) : List Char :=
  if x < -4 ∨ (precision : Int) ≤ x then
    pointed (ds.take 1) (ds.drop 1) ++ 'e' :: exponentText x
  else if x < 0 then pointed ['0'] (List.replicate (-x - 1).toNat '0' ++ ds)
  else pointed (ds.take (x.toNat + 1)) (ds.drop (x.toNat + 1))

def magnitudeText (bits : UInt64) : String :=
  if isSpecial bits then if mantissaField bits = 0 then "inf" else "nan"
  else
    let (m, e) := decode bits
    if m = 0 then "0"
    else
      let (num, den) := scaled m 2 e
      let (d, x) := significant num den
      String.ofList (arranged (digits d) x)

/-- The double with six significant digits. -/
def generalText (bits : UInt64) : String :=
  (if isNegative bits then "-" else "") ++ magnitudeText bits

def hexDigit (n : Nat) : Char := if n < 10 then Char.ofNat (48 + n) else Char.ofNat (55 + n)

/-- The 16 hexadecimal digits of the bits. -/
def hexText (bits : UInt64) : String :=
  String.ofList ((List.range 16).map fun i => hexDigit (bits.toNat >>> (4 * (15 - i)) % 16))

/-! ### 32 bits -/

/-- The sign bit of a double. -/
def signBit (bits : UInt64) : UInt64 := bits &&& 0x8000000000000000

def infinity : UInt64 := 0x7FF0000000000000

/-- The bits of `m * 2 ^ e` for a positive `m` below `2 ^ 53` and a normal result. -/
def encode (m : Nat) (e : Int) : UInt64 :=
  let top := m.log2
  let biased := (e + top + 1023).toNat
  (biased * leadingBit + (m <<< (52 - top) - leadingBit)).toUInt64

/-- The nearest 32-bit float of the magnitude `m * 2 ^ e`, as a double without sign. -/
def nearestSingle (m : Nat) (e : Int) : UInt64 :=
  if m = 0 then 0
  else
    let unit := max (e + m.log2 - 23) (-149)
    let (num, den) := scaled m 2 (e - unit)
    let n := roundDiv num den
    if n = 0 then 0
    else if 128 ≤ unit + n.log2 then infinity
    else encode n unit

/-- The double that a round trip through 32 bits leaves. What is not a number stays so: the
upper bits of its payload are kept and it is made quiet. -/
def throughSingle (bits : UInt64) : UInt64 :=
  if isSpecial bits then
    if mantissaField bits = 0 then bits
    else (bits &&& 0xFFFFFFFFE0000000) ||| 0x0008000000000000
  else
    let (m, e) := decode bits
    signBit bits ||| nearestSingle m e

end BlockCompiler.Double
