/-
  BlockCompiler.Graph.Reachable — the blocks of a function, breadth first.

  A handle that names no block, or an open block, has no successors; it is listed all the
  same where something jumps to it.
-/
import BlockCompiler.Graph.Context

namespace BlockCompiler

namespace Breadth

/-- The members of `next` that are new, in order and once each, where `seen` is known. -/
def fresh (seen : List BlockId) : List BlockId → List BlockId
  | [] => []
  | b :: rest => if b ∈ seen then fresh seen rest else b :: fresh (b :: seen) rest

/-- Visits the queue front to back, appending what it leads to. Every visit moves one handle
to `done`, so `steps` bounds the number of visits. -/
def visit (successors : BlockId → List BlockId) :
    (steps : Nat) → (done queue : List BlockId) → List BlockId
  | 0, done, queue => done ++ queue
  | _ + 1, done, [] => done
  | n + 1, done, b :: queue =>
    let done := done ++ [b]
    visit successors n done (queue ++ fresh (done ++ queue) (successors b))

end Breadth

namespace Context

/-- The successors of a block; none for an open block and for a handle that names none. -/
def successors (c : Context) (b : BlockId) : List BlockId :=
  match c.blocks.get? b with
  | some { terminator := some t, .. } => t.successors
  | _ => []

/-- The number of jumps in all blocks, which bounds the number of blocks jumped to. -/
def jumpCount (c : Context) : Nat :=
  c.blocks.items.toList.foldl
    (fun n b => n + (b.terminator.map (·.successors.length)).getD 0) 0

/-- The handles reachable from a block, breadth first. -/
def reachableFrom (c : Context) (entry : BlockId) : List BlockId :=
  Breadth.visit c.successors (c.jumpCount + 1) [] [entry]

/-- The blocks of a function, breadth first; none for a function defined elsewhere. -/
def reachable (c : Context) (fn : FunId) : Except Fault (List BlockId) := do
  match (← c.funs.get fn).body with
  | some body => return c.reachableFrom body.entry
  | none => return []

end Context

end BlockCompiler
