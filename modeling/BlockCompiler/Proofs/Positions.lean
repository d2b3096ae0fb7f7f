/-
  BlockCompiler.Proofs.Positions — lines, columns and offsets.

  Where a line starts, what it holds and which line an offset is on are worked out apart. All three
  follow the text byte by byte in the same way, which ties them together.

  (1) A newline in front begins a line and moves the others by one; any other byte only makes the first
      line longer (`lineText_newline`, `lineText_other`, `location_newline`, `location_other`).
  (2) So an offset is what its line and column say, and the lines make up the text
      (`location_roundTrip`).
-/
import BlockCompiler.Report.SourceFile
import Mathlib.Algebra.BigOperators.Intervals

namespace BlockCompiler.SourceFile

open Bytes (newline)

variable {name : String} {b : UInt8} {rest : Bytes}

/-! ## (1) One byte more -/

theorem startsAfterNewlines_succ : ∀ (position : Nat) (text : Bytes),
    startsAfterNewlines (position + 1) text = (startsAfterNewlines position text).map (· + 1)
  | _, [] => rfl
  | position, b :: rest => by
    simp only [startsAfterNewlines]
    split
    · rw [List.map_cons, startsAfterNewlines_succ (position + 1) rest]
    · exact startsAfterNewlines_succ (position + 1) rest

theorem lineStarts_newline : lineStarts ⟨name, newline :: rest⟩ = 0 :: (lineStarts ⟨name, rest⟩).map (· + 1) := by
  simp [lineStarts, startsAfterNewlines, startsAfterNewlines_succ]

theorem lineStarts_other (h : b ≠ newline) :
    lineStarts ⟨name, b :: rest⟩ = 0 :: (startsAfterNewlines 0 rest).map (· + 1) := by
  simp [lineStarts, startsAfterNewlines, startsAfterNewlines_succ, h]

theorem length_lineStarts (f : SourceFile) : f.lineStarts.length = f.content.count newline + 1 := by
  have hlength : ∀ (text : Bytes) (position : Nat),
      (startsAfterNewlines position text).length = text.count newline := by
    intro text
    induction text with
    | nil => intro position; rfl
    | cons b rest ih =>
      intro position
      by_cases h : b = newline <;> simp [startsAfterNewlines, h, ih]
  rw [lineStarts, List.length_cons, hlength]

theorem lineText_newline_first : lineText ⟨name, newline :: rest⟩ 1 = [] := by
  simp [lineText, lineStarts]

theorem lineText_newline (n : Nat) : lineText ⟨name, newline :: rest⟩ (n + 2) = lineText ⟨name, rest⟩ (n + 1) := by
  simp only [lineText, lineStarts_newline, List.getElem?_cons_succ, List.getElem?_map]
  cases (lineStarts ⟨name, rest⟩)[n]? <;> rfl

theorem lineText_other_first (h : b ≠ newline) :
    lineText ⟨name, b :: rest⟩ 1 = b :: lineText ⟨name, rest⟩ 1 := by
  simp [lineText, lineStarts, h]

theorem lineText_other (h : b ≠ newline) (n : Nat) :
    lineText ⟨name, b :: rest⟩ (n + 2) = lineText ⟨name, rest⟩ (n + 2) := by
  have hstarts : (lineStarts ⟨name, rest⟩)[n + 1]? = (startsAfterNewlines 0 rest)[n]? := rfl
  simp only [lineText, lineStarts_other h, List.getElem?_cons_succ, List.getElem?_map, hstarts]
  cases (startsAfterNewlines 0 rest)[n]? <;> rfl

theorem min_succ (offset : Nat) (b : UInt8) (rest : Bytes) :
    min (offset + 1) (b :: rest).length = min offset rest.length + 1 := by
  rw [List.length_cons]
  omega

theorem location_zero (f : SourceFile) : f.location 0 = ⟨1, 1⟩ := by
  obtain ⟨name, text⟩ := f
  have hnone : ∀ starts : List Nat, (starts.map (· + 1)).takeWhile (· = 0) = [] := fun starts => by
    cases starts <;> simp
  cases text with
  | nil => rfl
  | cons b rest =>
    by_cases h : b = newline
    · simp [location, h, lineStarts_newline, hnone]
    · simp [location, lineStarts_other h, hnone]

/-- The line and column where the lines but the first start one byte after those of `starts`. -/
theorem location_succ {starts : List Nat} (h : lineStarts ⟨name, b :: rest⟩ = 0 :: starts.map (· + 1)) (offset : Nat) :
    location ⟨name, b :: rest⟩ (offset + 1) =
      let earlier := starts.takeWhile (· ≤ min offset rest.length)
      ⟨earlier.length + 1, min offset rest.length + 1 - (earlier.getLast?.map (· + 1)).getD 0 + 1⟩ := by
  simp only [location, h, min_succ]
  simp [List.takeWhile_map, Function.comp_def, List.getLast?_cons]

theorem location_newline (offset : Nat) : location ⟨name, newline :: rest⟩ (offset + 1) =
    ⟨(location ⟨name, rest⟩ offset).line + 1, (location ⟨name, rest⟩ offset).column⟩ := by
  rw [location_succ lineStarts_newline]
  simp [location, lineStarts, List.getLast?_cons]

theorem location_other (h : b ≠ newline) (offset : Nat) : location ⟨name, b :: rest⟩ (offset + 1) =
    ⟨(location ⟨name, rest⟩ offset).line, (location ⟨name, rest⟩ offset).column +
      if (location ⟨name, rest⟩ offset).line = 1 then 1 else 0⟩ := by
  rw [location_succ (lineStarts_other h)]
  simp only [location, lineStarts, List.takeWhile_cons, Nat.zero_le, decide_true, if_true, List.length_cons,
    List.getLast?_cons, Option.getD_some]
  generalize (startsAfterNewlines 0 rest).takeWhile (· ≤ min offset rest.length) = earlier
  cases earlier with
  | nil => simp
  | cons start later => simp [List.getLast?_cons]

/-! ## (2) Whole texts -/

/-- The bytes of the first lines, newlines included. -/
def extent (f : SourceFile) (lines : Nat) : Nat := ∑ k ∈ Finset.range lines, ((f.lineText (k + 1)).length + 1)

theorem extent_newline (n : Nat) : extent ⟨name, newline :: rest⟩ (n + 1) = extent ⟨name, rest⟩ n + 1 := by
  simp only [extent, Finset.sum_range_succ', lineText_newline_first, lineText_newline, List.length_nil, Nat.zero_add]

theorem extent_other (h : b ≠ newline) (n : Nat) : extent ⟨name, b :: rest⟩ (n + 1) = extent ⟨name, rest⟩ (n + 1) + 1 := by
  simp only [extent, Finset.sum_range_succ', lineText_other_first h, lineText_other h, List.length_cons, Nat.zero_add,
    ← Nat.add_assoc]

/-- The lines before an offset, and the bytes before it in its own line. -/
structure Placed (f : SourceFile) (offset before column : Nat) : Prop where
  newlines : before = (f.content.take offset).count newline
  bytes : min offset f.content.length = f.extent before + column
  inside : column ≤ (f.lineText (before + 1)).length

theorem Placed.newline {offset before column : Nat} (h : Placed ⟨name, rest⟩ offset before column) :
    Placed ⟨name, newline :: rest⟩ (offset + 1) (before + 1) column := by
  have hbytes : min offset rest.length = extent ⟨name, rest⟩ before + column := h.bytes
  refine ⟨by simp [h.newlines], ?_, by rw [lineText_newline]; exact h.inside⟩
  rw [extent_newline, min_succ, hbytes]
  omega

theorem Placed.other (hb : b ≠ Bytes.newline) {offset before column : Nat}
    (h : Placed ⟨name, rest⟩ offset before column) :
    Placed ⟨name, b :: rest⟩ (offset + 1) before (column + if before = 0 then 1 else 0) := by
  have hbytes : min offset rest.length = extent ⟨name, rest⟩ before + column := h.bytes
  have hinside := h.inside
  refine ⟨by simpa [hb] using h.newlines, ?_, ?_⟩
  · rw [min_succ, hbytes]
    cases before with
    | zero => rfl
    | succ before =>
      rw [extent_other hb, if_neg (Nat.succ_ne_zero before)]
      omega
  · cases before with
    | zero => simpa [lineText_other_first hb] using hinside
    | succ before => simpa [lineText_other hb] using hinside

theorem exists_placed : ∀ (text : Bytes) (offset : Nat), ∃ before column,
    location ⟨name, text⟩ offset = ⟨before + 1, column + 1⟩ ∧ Placed ⟨name, text⟩ offset before column
  | [], offset => by
    refine ⟨0, 0, ?_, ⟨by simp, by simp [extent], Nat.zero_le _⟩⟩
    simp [location, lineStarts, startsAfterNewlines]
  | b :: rest, 0 => ⟨0, 0, location_zero _, ⟨rfl, by simp [extent], Nat.zero_le _⟩⟩
  | b :: rest, offset + 1 => by
    obtain ⟨before, column, hlocation, hplaced⟩ := exists_placed rest offset
    by_cases h : b = Bytes.newline
    · subst h
      exact ⟨before + 1, column, by rw [location_newline, hlocation], hplaced.newline⟩
    · refine ⟨before, _, ?_, hplaced.other h⟩
      rw [location_other h, hlocation]
      simp [Nat.add_right_comm]

theorem intercalate_lineText (name : String) : ∀ text : Bytes,
    [newline].intercalate ((List.range (text.count newline + 1)).map fun k => lineText ⟨name, text⟩ (k + 1)) = text
  | [] => rfl
  | b :: rest => by
    have ih := intercalate_lineText name rest
    rw [List.range_succ_eq_map, List.map_cons, List.map_map]
    by_cases h : b = newline
    · subst h
      have hlines : ((fun k => lineText ⟨name, newline :: rest⟩ (k + 1)) ∘ Nat.succ) =
          fun k => lineText ⟨name, rest⟩ (k + 1) := funext fun k => lineText_newline k
      rw [List.count_cons_self, lineText_newline_first, hlines, List.intercalate_cons_of_ne_nil (by simp), ih]
      rfl
    · have hlines : ((fun k => lineText ⟨name, b :: rest⟩ (k + 1)) ∘ Nat.succ) =
          (fun k => lineText ⟨name, rest⟩ (k + 1)) ∘ Nat.succ := funext fun k => lineText_other h k
      rw [List.range_succ_eq_map, List.map_cons, List.map_map] at ih
      rw [List.count_cons_of_ne h, lineText_other_first h, hlines, List.intercalate_cons_cons_left, ih]

theorem lineText_eq_nil (f : SourceFile) {n : Nat} (h : n = 0 ∨ f.content.count newline + 1 < n) : f.lineText n = [] := by
  cases n with
  | zero => rfl
  | succ n =>
    have hnone : f.lineStarts[n]? = none := by
      rw [List.getElem?_eq_none_iff, length_lineStarts]
      omega
    rw [lineText, hnone]

/-- For every file that was registered and every offset into it, where an offset past the end counts as the
end: its line is one more than the newlines before it, and the bytes of the lines before, newlines included,
and the bytes before its column in its own line are as many as the offset says. The lines, with newlines
between them, make up the text, and any other line is empty. -/
theorem location_roundTrip (files : SourceFiles) (f : SourceFile) (offset : Nat) :
    (files.add f).get files.next = .ok f ∧
    (f.location offset).line = 1 + (f.content.take (min offset f.content.length)).count newline ∧
    1 ≤ (f.location offset).column ∧
    min offset f.content.length = (∑ k ∈ Finset.Ico 1 (f.location offset).line, ((f.lineText k).length + 1)) +
      ((f.location offset).column - 1) ∧
    (f.location offset).column - 1 ≤ (f.lineText (f.location offset).line).length ∧
    [newline].intercalate ((List.range (f.content.count newline + 1)).map fun k => f.lineText (k + 1)) = f.content ∧
    ∀ n, n = 0 ∨ f.content.count newline + 1 < n → f.lineText n = [] := by
  obtain ⟨before, column, hlocation, hbefore, hoffset, hinside⟩ := exists_placed f.content offset
  have hextent : ∑ k ∈ Finset.Ico 1 (before + 1), ((f.lineText k).length + 1) = f.extent before := by
    rw [Finset.sum_Ico_eq_sum_range, extent, Nat.add_sub_cancel]
    exact Finset.sum_congr rfl fun k _ => by rw [Nat.add_comm 1 k]
  have hnewlines : before = (f.content.take (min offset f.content.length)).count newline := by
    rw [hbefore, List.take_eq_take_min]
  rw [show f.location offset = ⟨before + 1, column + 1⟩ from hlocation]
  refine ⟨?_, ?_, Nat.le_add_left 1 column, ?_, ?_, intercalate_lineText f.name f.content, fun n => f.lineText_eq_nil⟩
  · simp [SourceFiles.add, SourceFiles.get, SourceFiles.next]
  · rw [← hnewlines, Nat.add_comm]
  · rw [hextent]
    exact hoffset
  · exact hinside

end BlockCompiler.SourceFile
