/-
  BlockCompiler.Types.Layout — how types lie in memory.

  Sizes and alignments are numbers of bytes, modulo 2^64. A struct pads each field to its
  alignment and its end to its own; a sum is a 32-bit tag and then words of 64 bits, enough
  of them for its largest variant. Pointers and functions take 8 bytes.

  A type lies inside another by value only if it is a part of it, so in a table without
  by-value cycles the depth is bounded by the size of the table.
-/
import BlockCompiler.Types.Table

namespace BlockCompiler.TypeTable

/-- Rounds up to a multiple of `align`. -/
def padTo (align offset : UInt64) : UInt64 := (offset + align - 1) / align * align

def alignWithin (t : TypeTable) : (depth : Nat) → TypeId → Except Fault UInt64
  | 0, _ => .error .endlessType
  | n + 1, id => do
    match ← t.resolved id with
    | .int _ width => return (width / 8).toUInt64
    | .float double => return if double then 8 else 4
    | .array element _ => alignWithin t n element
    | .struct fields =>
      fields.foldlM (fun a f => return max a (← alignWithin t n f.ty)) 1
    | .ptr _ | .func _ | .sum _ => return 8
    | _ => return 1

/-- The alignment of a type. -/
def align (t : TypeTable) (id : TypeId) : Except Fault UInt64 := t.alignWithin (t.size + 1) id

/-- The number of payload words of a sum, given the size of each type. -/
def payloadWordsBy (size : TypeId → Except Fault UInt64) (variants : List TypeId) :
    Except Fault UInt64 := do
  let largest ← variants.foldlM (fun m v => return max m (← size v)) 0
  return (largest + 7) / 8

def sizeWithin (t : TypeTable) : (depth : Nat) → TypeId → Except Fault UInt64
  | 0, _ => .error .endlessType
  | n + 1, id => do
    let id ← t.unwrapAlias id
    match ← t.get id with
    | .int _ width => return (width / 8).toUInt64
    | .float double => return if double then 8 else 4
    | .bool => return 1
    | .ptr _ | .func _ => return 8
    | .array element length => return length * (← sizeWithin t n element)
    | .struct fields =>
      let offset ← fields.foldlM (fun offset f => do
        let a ← t.align f.ty
        return padTo a offset + (← sizeWithin t n f.ty)) 0
      return padTo (← t.align id) offset
    | .sum variants => return 8 + 8 * (← payloadWordsBy (sizeWithin t n) variants)
    | _ => return 0

/-- The size of a type. -/
def byteSize (t : TypeTable) (id : TypeId) : Except Fault UInt64 := t.sizeWithin (t.size + 1) id

/-- The number of 64-bit words that hold the payload of a sum with these variants. -/
def payloadWords (t : TypeTable) (variants : List TypeId) : Except Fault UInt64 :=
  payloadWordsBy t.byteSize variants

end BlockCompiler.TypeTable
