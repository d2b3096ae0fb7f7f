/-
  BlockCompiler.Report.Suggestion — "did you mean".

  Names are compared by the number of single-byte insertions, deletions and substitutions
  between them, where letters that differ only in ASCII case count as equal. The distance
  is computed row by row: entry j of the row for a leading part of `a` is its distance to
  the first j bytes of `b`.
-/
import BlockCompiler.Text.Bytes

namespace BlockCompiler

namespace EditDistance

/-- Takes ASCII upper-case letters to lower case. -/
def foldCase (b : UInt8) : UInt8 := if 65 ≤ b ∧ b ≤ 90 then b + 32 else b

def cost (a b : UInt8) : Nat := if foldCase a = foldCase b then 0 else 1

/-- The entries of a row after its first one. `left` is the entry before, `corner` the one
above it; the lists are the bytes still to come and the entries above them. -/
def rowFrom (a : UInt8) (left corner : Nat) : Bytes → List Nat → List Nat
  | b :: bs, above :: row =>
    let entry := min (min (above + 1) (left + 1)) (corner + cost a b)
    entry :: rowFrom a entry above bs row
  | _, _ => []

/-- The row for one more byte of the first text. -/
def nextRow (bs : Bytes) (row : List Nat) (a : UInt8) : List Nat :=
  match row with
  | [] => []
  | corner :: rest => (corner + 1) :: rowFrom a (corner + 1) corner bs rest

end EditDistance

/-- The least number of edits between two texts, letter case aside. -/
def editDistance (a b : Bytes) : Nat :=
  (a.foldl (EditDistance.nextRow b) (List.range (b.length + 1))).getLast?.getD 0

namespace Suggestion

/-- The best candidate so far and a bound that the next one has to stay below. -/
structure Best where
  name : Option String
  bound : Nat
  deriving DecidableEq, Repr

/-- The difference of two lengths. -/
def lengthGap (a b : Bytes) : Nat := (a.length - b.length) + (b.length - a.length)

def consider (input : String) (limit : Nat) (best : Best) (candidate : String) : Best :=
  if candidate = input then best
  else if limit < lengthGap (Bytes.ofString input) (Bytes.ofString candidate) then best
  else
    let distance := editDistance (Bytes.ofString input) (Bytes.ofString candidate)
    if distance < best.bound then { name := some candidate, bound := distance } else best

end Suggestion

/-- The first of the candidates nearest to `input` and different from it, if it is at most
`limit` edits away. The bound is a 64-bit number, so for the largest limit it is zero. -/
def closest? (input : String) (candidates : List String) (limit : UInt64 := 2) : Option String :=
  (candidates.foldl (Suggestion.consider input limit.toNat)
    { name := none, bound := (limit + 1).toNat }).name

end BlockCompiler
