/-
  BlockCompiler.Text.Split — cutting texts at a character, or at a byte.
-/

namespace BlockCompiler.Text

variable {α : Type} [DecidableEq α]

/-- The parts of a text between the occurrences of `sep`; there is always at least one. -/
def split (sep : α) : List α → List (List α)
  | [] => [[]]
  | c :: rest =>
    if c = sep then [] :: split sep rest
    else
      match split sep rest with
      | [] => [[c]]
      | part :: parts => (c :: part) :: parts

/-- What stands before and after the first occurrence of `sep`. -/
def cut? (sep : α) : List α → Option (List α × List α)
  | [] => none
  | c :: rest =>
    if c = sep then some ([], rest)
    else (cut? sep rest).map fun (before, after) => (c :: before, after)

/-- What follows `lead`, if the text starts with it. -/
def after? : (lead text : List α) → Option (List α)
  | [], text => some text
  | _ :: _, [] => none
  | c :: lead, d :: text => if c = d then after? lead text else none

/-- Paths, arguments, values of the environment and reports of faults end at their first NUL
character. -/
def untilNul (s : String) : String := String.ofList (s.toList.takeWhile (· ≠ '\x00'))

end BlockCompiler.Text
