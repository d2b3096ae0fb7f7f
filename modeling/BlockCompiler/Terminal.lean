/-
  BlockCompiler.Terminal — what is known of the terminal that the console is.
-/
import BlockCompiler.Text.Split

namespace BlockCompiler

structure Terminal where
  interactive : Bool := false
  /-- The kind of terminal, where the environment names one. -/
  term : Option String := none
  deriving DecidableEq, Repr

/-- Colours need a terminal of a named kind other than `dumb`. -/
def Terminal.supportsColors (t : Terminal) : Bool :=
  t.interactive && match t.term with
    | some kind => Text.untilNul kind != "dumb"
    | none => false

end BlockCompiler
