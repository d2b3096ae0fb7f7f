/-
  BlockCompiler.Proofs.Markers — markers stand below what their labels cover.

  Markers are drawn from left to right by a cursor that never goes back. Labels that start on one line start at
  columns in the order of their spans (`startColumn_mono`), so a column that the cursor has passed is covered by no
  label that is still to come, and the first label to reach a column is the first that covers it
  (`print_marksFrom`).
-/
import BlockCompiler.Proofs.FirstLeast
import BlockCompiler.Proofs.Positions
import BlockCompiler.Report.Rendering

namespace BlockCompiler.Rendering

variable {f : SourceFile} {line c : Nat} {l : Label} {labels : List Label}

/-- The column, counted from 0, at which a label starts. -/
def startColumn (f : SourceFile) (l : Label) : Nat := (f.location l.span.start).column - 1

/-- The column after the last one that a label covers on its line: the end of its span or else of the line, and
never less than one column after its start. -/
def endColumn (f : SourceFile) (line : Nat) (l : Label) : Nat :=
  max (if (f.location l.span.stop).line = line then (f.location l.span.stop).column - 1 else (f.lineText line).length)
    (startColumn f l + 1)

def Covers (f : SourceFile) (line column : Nat) (l : Label) : Prop :=
  startColumn f l ≤ column ∧ column < endColumn f line l

instance (f : SourceFile) (line column : Nat) : DecidablePred (Covers f line column) :=
  fun _ => inferInstanceAs (Decidable (_ ∧ _))

/-- What stands in a column: the marker of the first label that covers it. -/
def marker (f : SourceFile) (line : Nat) (labels : List Label) (column : Nat) : UInt8 :=
  match labels.find? (Covers f line column ·) with
  | some l => markByte l.style
  | none => Bytes.space

/-- The largest end of a label. -/
def lastColumn (f : SourceFile) (line : Nat) (labels : List Label) : Nat := (labels.map (endColumn f line)).foldr max 0

theorem columns_eq : columns f line l = (startColumn f l, endColumn f line l) := rfl

theorem startColumn_lt_endColumn : startColumn f l < endColumn f line l := Nat.le_max_right _ _

theorem marker_eq_space (h : ∀ l ∈ labels, ¬ Covers f line c l) : marker f line labels c = Bytes.space := by
  have hnone : labels.find? (Covers f line c ·) = none := List.find?_eq_none.mpr fun l hl => by simpa using h l hl
  rw [marker, hnone]

theorem marker_cons (l : Label) : marker f line (l :: labels) c =
    if Covers f line c l then markByte l.style else marker f line labels c := by
  by_cases h : Covers f line c l <;> simp [marker, h]

theorem print_mark (m : Mark) :
    m.print false = List.replicate m.gap Bytes.space ++ List.replicate m.length (markByte m.style) := by
  simp [Mark.print, paint, Bytes.blanks]

theorem map_range'_eq_replicate {g : Nat → UInt8} {x : UInt8} {start n : Nat}
    (h : ∀ c, start ≤ c → c < start + n → g c = x) : (List.range' start n).map g = List.replicate n x := by
  rw [List.eq_replicate_iff]
  refine ⟨by simp, fun b hb => ?_⟩
  obtain ⟨c, hc, rfl⟩ := List.mem_map.mp hb
  rw [List.mem_range'_1] at hc
  exact h c hc.1 hc.2

/-- From `position` on, what is drawn is the marker of each column. -/
theorem print_marksFrom (hsorted : labels.Pairwise (startColumn f · ≤ startColumn f ·)) (line position : Nat) :
    (marksFrom f line position labels).flatMap (Mark.print false) =
      (List.range' position (lastColumn f line labels - position)).map (marker f line labels) := by
  induction labels generalizing position with
  | nil => simp [marksFrom, lastColumn]
  | cons l rest ih =>
    rw [List.pairwise_cons] at hsorted
    have hstart : startColumn f l < endColumn f line l := startColumn_lt_endColumn
    -- The columns before the label, those that it is drawn in, and those behind it.
    have hsplit : lastColumn f line (l :: rest) - position = startColumn f l - position +
        (endColumn f line l - max position (startColumn f l)) +
        (lastColumn f line rest - max position (endColumn f line l)) := by
      rw [lastColumn, List.map_cons, List.foldr_cons, ← lastColumn]
      omega
    have hgap : (List.range' position (startColumn f l - position)).map (marker f line (l :: rest)) =
        List.replicate (startColumn f l - position) Bytes.space := by
      refine map_range'_eq_replicate fun c hc hlt => marker_eq_space fun k hk hcovers => ?_
      have hle : startColumn f l ≤ startColumn f k := by
        rcases List.mem_cons.mp hk with rfl | hk
        · exact Nat.le_refl _
        · exact hsorted.1 k hk
      have := hcovers.1
      omega
    have hown : (List.range' (max position (startColumn f l)) (endColumn f line l - max position (startColumn f l))).map
          (marker f line (l :: rest)) =
        List.replicate (endColumn f line l - max position (startColumn f l)) (markByte l.style) := by
      refine map_range'_eq_replicate fun c hc hlt => ?_
      rw [marker_cons, if_pos ⟨by omega, by omega⟩]
    have hbehind : (List.range' (max position (endColumn f line l))
          (lastColumn f line rest - max position (endColumn f line l))).map (marker f line (l :: rest)) =
        (marksFrom f line (max position (endColumn f line l)) rest).flatMap (Mark.print false) := by
      rw [ih hsorted.2]
      refine List.map_congr_left fun c hc => ?_
      rw [List.mem_range'_1] at hc
      rw [marker_cons, if_neg]
      intro hcovers
      have := hcovers.2
      omega
    have hnext : position + (startColumn f l - position) = max position (startColumn f l) := by omega
    have hlast : position + (startColumn f l - position + (endColumn f line l - max position (startColumn f l))) =
        max position (endColumn f line l) := by omega
    rw [marksFrom, columns_eq, List.flatMap_cons, print_mark, hsplit, ← List.range'_append_1, ← List.range'_append_1,
      List.map_append, List.map_append, hnext, hlast, hgap, hown, hbehind]

theorem column_mono {a b : Nat} (hline : (f.location a).line = (f.location b).line) (hle : a ≤ b) :
    (f.location a).column ≤ (f.location b).column := by
  have hplaced : ∀ offset, ∃ before column, f.location offset = ⟨before + 1, column + 1⟩ ∧ f.Placed offset before column :=
    fun offset => SourceFile.exists_placed f.content offset
  obtain ⟨before, column, hlocation, ha⟩ := hplaced a
  obtain ⟨before', column', hlocation', hb⟩ := hplaced b
  rw [hlocation, hlocation'] at hline ⊢
  obtain rfl : before = before' := Nat.succ.inj hline
  have hbytes := ha.bytes
  have hbytes' := hb.bytes
  show column + 1 ≤ column' + 1
  omega

/-- Labels that start on one line are drawn in the order of their columns. -/
theorem drawingOrder_startColumn (h : ∀ l ∈ labels, startLine f l = line) :
    (drawingOrder labels).Pairwise (startColumn f · ≤ startColumn f ·) := by
  refine (pairwise_mergeSort_key (·.span.start) labels).imp_of_mem fun ha hb hle => ?_
  have hline := (h _ (List.mem_mergeSort.mp ha)).trans (h _ (List.mem_mergeSort.mp hb)).symm
  exact Nat.sub_le_sub_right (column_mono hline hle) 1

theorem lastColumn_drawingOrder : lastColumn f line (drawingOrder labels) = lastColumn f line labels :=
  ((List.mergeSort_perm labels _).map _).foldr_eq 0

theorem marker_drawingOrder (h : FirstLeast (Covers f line c) (·.span.start) labels l) :
    marker f line (drawingOrder labels) c = markByte l.style := by
  have hfind : (drawingOrder labels).find? (Covers f line c ·) = some l := h.find?_mergeSort
  rw [marker, hfind]

theorem lt_lastColumn (hl : l ∈ labels) (hc : Covers f line c l) : c < lastColumn f line labels := by
  refine Nat.lt_of_lt_of_le hc.2 ?_
  unfold lastColumn
  induction labels with
  | nil => cases hl
  | cons k rest ih =>
    rw [List.map_cons, List.foldr_cons]
    rcases List.mem_cons.mp hl with rfl | hl
    · exact Nat.le_max_left _ _
    · exact Nat.le_trans (ih hl) (Nat.le_max_right _ _)

/-! ## The row -/

/-- What follows the markers. -/
def besideMarks : Option String → Bytes
  | some text => Bytes.ofString " " ++ Bytes.ofString text
  | none => []

theorem print_marks (width : Nat) (runs : List Mark) (message : Option String) :
    (Row.marks runs message).print false width = Bytes.blanks width ++ Bytes.ofString " | " ++
      runs.flatMap (Mark.print false) ++ besideMarks message ++ [Bytes.newline] := by
  cases message <;> simp [Row.print, paint, besideMarks]

/-- The message beside the markers is that of a primary label. -/
theorem mem_of_markMessage? {text : String} (h : markMessage? (drawingOrder labels) = some text) :
    ∃ l ∈ labels, l.isPrimary ∧ l.message ≠ "" ∧ l.message = text := by
  obtain ⟨l, hfind, htext⟩ := Option.map_eq_some_iff.mp h
  have hl := List.mem_mergeSort.mp (List.mem_reverse.mp (List.mem_of_find?_eq_some hfind))
  have hholds := List.find?_some hfind
  simp only [Bool.and_eq_true, bne_iff_ne] at hholds
  exact ⟨l, hl, hholds.1, hholds.2, htext⟩

/-- With colours off, for every file, line and list of labels that start on the line: below the line stands a row of
markers, with at most the message of a primary label behind them. It is as long as the largest end of a
label. In each column stands the marker of the first label, in the order of the starts of their spans and
then of the list, that covers the column, and a blank if none does but a later column is covered. -/
theorem markers_below_labels (f : SourceFile) (line width : Nat) (labels : List Label)
    (h : ∀ l ∈ labels, startLine f l = line) :
    ∃ row rest markers message, lineRows f line labels = .source line (f.lineText line) :: row :: rest ∧
      row.print false width = Bytes.blanks width ++ Bytes.ofString " | " ++ markers ++ message ++ [Bytes.newline] ∧
      (message = [] ∨ ∃ l ∈ labels, l.isPrimary ∧ l.message ≠ "" ∧
        message = Bytes.ofString " " ++ Bytes.ofString l.message) ∧
      markers.length = (labels.map (endColumn f line)).foldr max 0 ∧
      ∀ c, (∀ l, FirstLeast (Covers f line c) (·.span.start) labels l → markers[c]? = some (markByte l.style)) ∧
        ((∀ l ∈ labels, ¬ Covers f line c l) → (∃ c' > c, ∃ l ∈ labels, Covers f line c' l) →
          markers[c]? = some Bytes.space) := by
  have hmarkers := print_marksFrom (drawingOrder_startColumn h) line 0
  rw [lastColumn_drawingOrder, Nat.sub_zero, ← List.range_eq_range'] at hmarkers
  have hcolumn : ∀ c < lastColumn f line labels, ((List.range (lastColumn f line labels)).map
      (marker f line (drawingOrder labels)))[c]? = some (marker f line (drawingOrder labels) c) := by
    intro c hc
    rw [List.getElem?_map, List.getElem?_range hc, Option.map_some]
  refine ⟨_, _, _, _, rfl, print_marks width _ _, ?_, ?_, fun c => ?_⟩
  · cases hmessage : markMessage? (drawingOrder labels) with
    | none => exact .inl rfl
    | some text =>
      obtain ⟨l, hl, hprimary, hne, rfl⟩ := mem_of_markMessage? hmessage
      exact .inr ⟨l, hl, hprimary, hne, rfl⟩
  · rw [hmarkers, List.length_map, List.length_range]
    rfl
  · rw [hmarkers]
    constructor
    · intro l hl
      rw [hcolumn c (lt_lastColumn hl.mem hl.holds), marker_drawingOrder hl]
    · rintro hnone ⟨c', hlater, l, hl, hcovers⟩
      rw [hcolumn c (Nat.lt_trans hlater (lt_lastColumn hl hcovers)), marker_eq_space]
      exact fun l hl => hnone l (List.mem_mergeSort.mp hl)

def sampleFile : SourceFile := ⟨"sum.src", Bytes.ofString "let total\nreturn totl + 1"⟩

/-- `totl`, the expression that starts with it, and the word before. -/
def sampleLabels : List Label :=
  [.primary 0 ⟨17, 21⟩ "not found", .secondary 0 ⟨17, 25⟩, .secondary 0 ⟨10, 16⟩ "in this statement"]

/-- The row of markers is `------ ^^^^----`. -/
theorem sampleLabels_marked : (∀ l ∈ sampleLabels, startLine sampleFile l = 2) ∧
    ∃ row rest markers message, lineRows sampleFile 2 sampleLabels = .source 2 (sampleFile.lineText 2) :: row :: rest ∧
      row.print false 4 = Bytes.blanks 4 ++ Bytes.ofString " | " ++ markers ++ message ++ [Bytes.newline] ∧
      markers.length = 15 ∧ markers[6]? = some Bytes.space ∧ markers[7]? = some (markByte .primary) := by
  have hline : ∀ l ∈ sampleLabels, startLine sampleFile l = 2 := by decide +kernel
  obtain ⟨row, rest, markers, message, hrows, hprint, -, hlength, hcolumn⟩ :=
    markers_below_labels sampleFile 2 4 sampleLabels hline
  have hfirst : FirstLeast (Covers sampleFile 2 7) (·.span.start) sampleLabels (.primary 0 ⟨17, 21⟩ "not found") :=
    ⟨[], _, rfl, by decide +kernel, by simp, by decide +kernel⟩
  refine ⟨hline, row, rest, markers, message, hrows, hprint, hlength.trans (by decide +kernel), ?_, (hcolumn 7).1 _ hfirst⟩
  exact (hcolumn 6).2 (by decide +kernel) ⟨7, by decide, _, hfirst.mem, hfirst.holds⟩

end BlockCompiler.Rendering
