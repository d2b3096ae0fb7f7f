/-
  BlockCompiler.Proofs.Snippets — a rendered diagnostic shows all that it says.

  (1) The lines on which labels start are collected in increasing order, each once.
  (2) Rows are cut at the lines of the source (`sections`). Each line has its own section, in which the messages of
      the labels that start on it stand; an ellipsis ends a section if lines follow that are left out.
  (3) Beside the markers there is room for one message. It is enough for what lowering produces, since that has one
      primary label (`Produced.pointed`).
  (4) Rendering writes a heading, these rows and the remarks (`emit_shows`).
-/
import BlockCompiler.Proofs.Development
import BlockCompiler.Proofs.Markers

namespace BlockCompiler.Rendering

open List (mem_append mem_cons mem_filter pairwise_cons)

variable {f : SourceFile} {l anchor : Label} {labels : List Label} {row : Row} {rows rest : List Row}
  {lines : List Nat} {n : Nat}

/-! ## (1) Lines -/

theorem mem_insertLine {m : Nat} : m ∈ insertLine n lines ↔ m = n ∨ m ∈ lines := by
  induction lines with
  | nil => simp [insertLine]
  | cons k lines ih =>
    unfold insertLine
    split
    · simp
    · split
      · rename_i heq
        simp [heq]
      · rw [mem_cons, ih, mem_cons]
        exact or_left_comm

theorem pairwise_insertLine (h : lines.Pairwise (· < ·)) : (insertLine n lines).Pairwise (· < ·) := by
  induction lines with
  | nil => simp [insertLine]
  | cons k lines ih =>
    obtain ⟨hk, hlines⟩ := pairwise_cons.mp h
    unfold insertLine
    split
    · rename_i hlt
      refine pairwise_cons.mpr ⟨fun m hm => ?_, h⟩
      rcases mem_cons.mp hm with rfl | hm
      · exact hlt
      · exact Nat.lt_trans hlt (hk m hm)
    · split
      · exact h
      · refine pairwise_cons.mpr ⟨fun m hm => ?_, ih hlines⟩
        rcases mem_insertLine.mp hm with rfl | hm
        · omega
        · exact hk m hm

theorem foldl_insertLine (f : SourceFile) (labels : List Label) (lines : List Nat) (h : lines.Pairwise (· < ·)) :
    (labels.foldl (fun lines l => insertLine (startLine f l) lines) lines).Pairwise (· < ·) ∧
    ∀ n, n ∈ labels.foldl (fun lines l => insertLine (startLine f l) lines) lines ↔
      n ∈ lines ∨ ∃ l ∈ labels, startLine f l = n := by
  induction labels generalizing lines with
  | nil => simpa using h
  | cons l labels ih =>
    obtain ⟨hsorted, hmem⟩ := ih (insertLine (startLine f l) lines) (pairwise_insertLine h)
    refine ⟨hsorted, fun n => ?_⟩
    rw [List.foldl_cons, hmem, mem_insertLine]
    simp only [List.exists_mem_cons_iff, eq_comm (a := n)]
    tauto

theorem pairwise_labelledLines (f : SourceFile) (labels : List Label) : (labelledLines f labels).Pairwise (· < ·) :=
  (foldl_insertLine f labels [] .nil).1

theorem mem_labelledLines : n ∈ labelledLines f labels ↔ ∃ l ∈ labels, startLine f l = n := by
  simpa [labelledLines] using (foldl_insertLine f labels [] .nil).2 n

theorem startLine_mem (f : SourceFile) (h : l ∈ labels) : startLine f l ∈ labelledLines f labels :=
  mem_labelledLines.mpr ⟨l, h, rfl⟩

theorem startLine_pos (f : SourceFile) (l : Label) : 0 < startLine f l := by
  have hplaced : ∃ before column, f.location l.span.start = ⟨before + 1, column + 1⟩ ∧ f.Placed l.span.start before column :=
    SourceFile.exists_placed f.content l.span.start
  obtain ⟨before, column, hlocation, -⟩ := hplaced
  rw [startLine, hlocation]
  exact Nat.succ_pos before

/-! ## (2) Sections -/

/-- A line of the source and the rows below it, up to the next line. -/
structure Section where
  line : Nat
  text : Bytes
  below : List Row

def Row.isSource : Row → Bool
  | source _ _ => true
  | _ => false

def Row.isPlace : Row → Bool
  | place _ _ _ => true
  | _ => false

/-- The message of a label that a row shows. -/
def Row.message? : Row → Option String
  | place _ _ text | marks _ text => text
  | message _ text => some text
  | _ => none

/-- The rows before the first line of the source. -/
def leading (rows : List Row) : List Row := rows.takeWhile (!·.isSource)

def sections : List Row → List Section
  | [] => []
  | .source line text :: rest => ⟨line, text, leading rest⟩ :: sections rest
  | _ :: rest => sections rest

theorem leading_append (h : ∀ row ∈ rows, row.isSource = false) : leading (rows ++ rest) = rows ++ leading rest :=
  List.takeWhile_append_of_pos fun row hrow => by simp [h row hrow]

theorem sections_append (h : ∀ row ∈ rows, row.isSource = false) : sections (rows ++ rest) = sections rest := by
  induction rows with
  | nil => rfl
  | cons row rows ih =>
    have hrow := h row (.head _)
    rw [← ih fun row hr => h row (.tail _ hr)]
    cases row with
    | source => cases hrow
    | _ => rfl

/-- The rows below a line, given the labels that start on it. -/
def belowLine (f : SourceFile) (line : Nat) (labels : List Label) : List Row :=
  .marks (marksFrom f line 0 (drawingOrder labels)) (markMessage? (drawingOrder labels)) ::
    (drawingOrder labels).flatMap (secondaryRows f)

theorem lineRows_eq (f : SourceFile) (line : Nat) (labels : List Label) :
    lineRows f line labels = .source line (f.lineText line) :: belowLine f line labels := rfl

/-- Below a line stand markers, strokes and messages only. -/
theorem plain_of_mem_belowLine {line : Nat} (h : row ∈ belowLine f line labels) :
    row.isSource = false ∧ row.isPlace = false ∧ row ≠ .ellipsis := by
  rcases mem_cons.mp h with rfl | h
  · exact ⟨rfl, rfl, by simp⟩
  · obtain ⟨l, -, hrow⟩ := List.mem_flatMap.mp h
    unfold secondaryRows at hrow
    split at hrow
    · cases hrow
    · rcases mem_cons.mp hrow with rfl | hrow
      · exact ⟨rfl, rfl, by simp⟩
      · obtain rfl := List.mem_singleton.mp hrow
        exact ⟨rfl, rfl, by simp⟩

/-- Every message of a label is below its line, if no other primary label of the line has one. -/
theorem mem_belowLine (f : SourceFile) (line : Nat) (hl : l ∈ labels) (hmessage : l.message ≠ "")
    (hone : l.isPrimary → ∀ k ∈ labels, k.isPrimary → k.message ≠ "" → k = l) :
    ∃ row ∈ belowLine f line labels, row.message? = some l.message := by
  have hsorted : l ∈ drawingOrder labels := List.mem_mergeSort.mpr hl
  by_cases hprimary : l.isPrimary
  · refine ⟨_, .head _, ?_⟩
    cases hshown : markMessage? (drawingOrder labels) with
    | none =>
      have hnone := List.find?_eq_none.mp (Option.map_eq_none_iff.mp hshown) l (List.mem_reverse.mpr hsorted)
      simp [hprimary, hmessage] at hnone
    | some text =>
      obtain ⟨k, hk, hkprimary, hkmessage, rfl⟩ := mem_of_markMessage? hshown
      rw [hone hprimary k hk hkprimary hkmessage]
      rfl
  · refine ⟨.message (startColumn f l) l.message, .tail _ (List.mem_flatMap.mpr ⟨l, hsorted, ?_⟩), rfl⟩
    unfold secondaryRows
    rw [if_neg (by simp [hprimary, hmessage])]
    exact .tail _ (.head _)

/-- The section of a line: its text, the rows below it, and what else comes before the next one. -/
def Section.Of (f : SourceFile) (labels : List Label) (s : Section) : Prop :=
  s.text = f.lineText s.line ∧ ∃ more, s.below = belowLine f s.line (labels.filter (startLine f · = s.line)) ++ more

/-- An ellipsis ends a section exactly if the next one does not follow at once. -/
def Elided (s t : Section) : Prop := .ellipsis ∈ s.below ↔ t.line ≠ s.line + 1

/-- What rows show of `lines`, where `previous` is the line before them, or 0. -/
structure Displays (f : SourceFile) (labels : List Label) (previous : Nat) (lines : List Nat) (rows : List Row) : Prop where
  shown : (sections rows).map Section.line = lines
  own : ∀ s ∈ sections rows, s.Of f labels
  chain : (sections rows).IsChain Elided
  lead : .ellipsis ∈ leading rows ↔ 0 < previous ∧ ∃ next ∈ lines.head?, previous + 1 < next
  places : ∀ row ∈ rows, row.isPlace = false

theorem linesRows_displays (labels : List Label) (previous : Nat) (lines : List Nat)
    (hlines : (previous :: lines).Pairwise (· < ·)) :
    Displays f labels previous lines (linesRows f labels previous lines ++ [.margin]) := by
  induction lines generalizing previous with
  | nil => constructor <;> simp [linesRows, sections, leading, Row.isSource, Row.isPlace]
  | cons line lines ih =>
    obtain ⟨hprevious, hline⟩ := pairwise_cons.mp hlines
    have hrest := ih line hline
    generalize hlater : linesRows f labels line lines ++ [.margin] = later at hrest
    generalize hgap : (if 0 < previous ∧ previous + 1 < line then [Row.ellipsis] else []) = gap
    have hrows : linesRows f labels previous (line :: lines) ++ [.margin] = gap ++ .source line (f.lineText line) ::
        (belowLine f line (labels.filter (startLine f · = line)) ++ later) := by
      rw [linesRows, hgap, ← hlater, lineRows_eq]
      simp
    have hellipsis : .ellipsis ∈ gap ↔ 0 < previous ∧ previous + 1 < line := by
      rw [← hgap]
      split <;> simp [*]
    have honly : ∀ row ∈ gap, row = .ellipsis := by
      rw [← hgap]
      split <;> simp
    have hgapSource : ∀ row ∈ gap, row.isSource = false := fun row hrow => by rw [honly row hrow]; rfl
    have hsections : sections (linesRows f labels previous (line :: lines) ++ [.margin]) =
        ⟨line, f.lineText line, belowLine f line (labels.filter (startLine f · = line)) ++ leading later⟩ :: sections later := by
      rw [hrows, sections_append hgapSource, sections, leading_append fun row h => (plain_of_mem_belowLine h).1,
        sections_append fun row h => (plain_of_mem_belowLine h).1]
    refine ⟨?_, ?_, ?_, ?_, ?_⟩
    · rw [hsections, List.map_cons, hrest.shown]
    · rw [hsections]
      exact List.forall_mem_cons.mpr ⟨⟨rfl, _, rfl⟩, hrest.own⟩
    · rw [hsections, List.isChain_cons]
      refine ⟨fun next hnext => ?_, hrest.chain⟩
      have hhead : next.line ∈ lines.head? := by
        rw [← hrest.shown, List.head?_map]
        exact Option.mem_map_of_mem _ hnext
      have hlt : line < next.line := (pairwise_cons.mp hline).1 _ (List.mem_of_mem_head? hhead)
      have hbelow : .ellipsis ∉ belowLine f line (labels.filter (startLine f · = line)) := fun h =>
        (plain_of_mem_belowLine h).2.2 rfl
      have hpos : 0 < line := Nat.zero_lt_of_lt (hprevious line (.head _))
      rw [Elided, mem_append, hrest.lead, or_iff_right hbelow]
      constructor
      · rintro ⟨-, n, hn, hskip⟩
        obtain rfl := Option.mem_unique hn hhead
        exact Nat.ne_of_gt hskip
      · intro (hne : next.line ≠ line + 1)
        exact ⟨hpos, next.line, hhead, by omega⟩
    · rw [hrows, leading_append hgapSource, mem_append, hellipsis]
      simp [leading, Row.isSource]
    · rw [hrows]
      intro row hrow
      rcases mem_append.mp hrow with hrow | hrow
      · rw [honly row hrow]
        rfl
      · rcases mem_cons.mp hrow with rfl | hrow
        · rfl
        · rcases mem_append.mp hrow with hrow | hrow
          · exact (plain_of_mem_belowLine hrow).2.1
          · exact hrest.places row hrow

/-! ## (3) Messages of primary labels -/

/-- No line of the file has two primary labels with messages. -/
def OneMessage (labels : List Label) (file : FileId) (f : SourceFile) : Prop :=
  ((labels.filter fun l => l.file = file ∧ l.isPrimary ∧ l.message ≠ "").map (startLine f)).Nodup

theorem OneMessage.of_pointed {d : Diagnostic} (h : d.Pointed) (file : FileId) (f : SourceFile) :
    OneMessage d.labels file f := by
  have hle : (d.labels.filter fun l => l.file = file ∧ l.isPrimary ∧ l.message ≠ "").length ≤ 1 := by
    rw [← List.countP_eq_length_filter, ← h]
    exact List.countP_mono_left fun l _ hl => (of_decide_eq_true hl).2.1
  unfold OneMessage
  rcases hmessages : d.labels.filter _ with _ | ⟨l, rest⟩
  · exact List.nodup_nil
  · rw [hmessages] at hle
    obtain rfl : rest = [] := List.eq_nil_of_length_eq_zero (by simpa using hle)
    exact List.nodup_singleton _

/-- Lowering a module reports the diagnostic, or rejects a statement with it. -/
def Produced (d : Diagnostic) : Prop :=
  (∃ cfg m s r s', Lowering.lowerModule cfg m s = .ok r s' ∧ d ∈ s'.diags ∧ d ∉ s.diags) ∨
    ∃ cfg file fn x b s s', (Lowering.lowerStmt cfg file fn x b).run s = .ok (.error d) s'

theorem Produced.pointed {d : Diagnostic} (h : Produced d) : d.Pointed := by
  have hany : ∀ {names : List String}, ∀ n ∈ names, Any n := fun _ _ => trivial
  rcases h with ⟨cfg, m, s, r, s', hrun, hd, hnew⟩ | ⟨cfg, file, fn, x, b, s, s', hrun⟩
  · have hnamed : s.context.Named Any := ⟨fun _ _ _ _ _ => trivial, fun _ _ _ => trivial, fun _ _ _ _ => trivial⟩
    have hkept := Lowering.keeps_lowerModule hany hnamed cfg m hany s (.refl Any s)
    rw [hrun] at hkept
    exact (hkept.1.pointed d hd).resolve_left hnew
  · have hkept := (Lowering.keepsT_lowerStmt (I := Lowering.From Any s) hany cfg file fn x b hany).answers (.refl Any s)
    exact (hkept _ _ hrun).2.pointed

/-! ## (4) Writing -/

/-- The row for a label in another file. -/
def PlaceRow (files : SourceFiles) (l : Label) (row : Row) : Prop :=
  ∃ g, files.get l.file = .ok g ∧ row = .place g.name (g.location l.span.start) (some l.message)

/-- The rows of a diagnostic whose anchor is in the file `f`. -/
structure Shows (files : SourceFiles) (f : SourceFile) (anchor : Label) (labels : List Label) (rows : List Row) : Prop where
  /-- One place for the anchor, and one for each label in another file. -/
  places : ∃ others, rows.filter Row.isPlace = .place f.name (f.location anchor.span.start) none :: others ∧
    List.Forall₂ (PlaceRow files) (labels.filter (·.file ≠ anchor.file)) others
  increasing : (sections rows).Pairwise (·.line < ·.line)
  text : ∀ s ∈ sections rows, s.text = f.lineText s.line
  label : ∀ l ∈ labels, l.file = anchor.file → ∃ s ∈ sections rows, s.line = startLine f l ∧
    (l.message ≠ "" → ∃ row ∈ s.below, row.message? = some l.message)
  elided : (sections rows).IsChain Elided

variable {files : SourceFiles} {d : Diagnostic} {r : Renderer}

theorem get_of_lt {file : FileId} (h : file < files.size) : ∃ f, files.get file = .ok f := by
  have hget : files.files[file]? = some files.files[file] := Array.getElem?_eq_getElem h
  exact ⟨files.files[file], by rw [SourceFiles.get, hget]⟩

/-- The renderer after it has written `b`. -/
def Renderer.wrote (r : Renderer) (b : Bytes) : Renderer := { r with written := r.written ++ b }

theorem Renderer.wrote_nil (r : Renderer) : r.wrote [] = r := by
  simp [wrote]

theorem Renderer.wrote_wrote (r : Renderer) (a b : Bytes) : (r.wrote a).wrote b = r.wrote (a ++ b) := by
  simp [wrote]

theorem ends_write (b : Bytes) (Q : Unit → Renderer → Prop) : Ends (write b) r Q ↔ Q () (r.wrote b) := ends_modify _ _

theorem ends_others (others : List Label) (h : ∀ l ∈ others, l.file < files.size) :
    Ends (others.forM fun l => do write ((← ofExcept (placeOf files l (some l.message))).print false 0)) r
      fun _ r' => ∃ rows, List.Forall₂ (PlaceRow files) others rows ∧ r' = r.wrote (rows.flatMap (Row.print false 0)) := by
  induction others generalizing r with
  | nil => exact (ends_pure _).mpr ⟨[], .nil, r.wrote_nil.symm⟩
  | cons l others ih =>
    obtain ⟨g, hg⟩ := get_of_lt (h l (.head _))
    have hplace : placeOf files l (some l.message) = .ok (.place g.name (g.location l.span.start) (some l.message)) := by
      rw [placeOf, hg]
      rfl
    simp only [List.forM, ends_bind, ends_ofExcept, ends_write, hplace, Except.ok.injEq, exists_eq_left']
    refine (ih fun l hl => h l (.tail _ hl)).mono ?_
    rintro - _ ⟨rows, hrows, rfl⟩
    exact ⟨_ :: rows, .cons ⟨g, hg, rfl⟩ hrows, Renderer.wrote_wrote _ _ _⟩

/-- A place is printed without a margin, so the width of the line numbers does not show. -/
theorem print_place (h : row.isPlace) (colors : Bool) (width width' : Nat) :
    row.print colors width = row.print colors width' := by
  cases row with
  | place => rfl
  | _ => cases h

theorem isPlace_of_forall₂ {others : List Label} (h : List.Forall₂ (PlaceRow files) others rows) :
    ∀ row ∈ rows, row.isPlace = true ∧ row.isSource = false := by
  induction h with
  | nil => simp
  | cons hrow _ ih =>
    obtain ⟨g, -, rfl⟩ := hrow
    exact List.forall_mem_cons.mpr ⟨⟨rfl, rfl⟩, ih⟩

theorem fileRows_eq (h : l ∈ labels) :
    fileRows f labels = .margin :: (linesRows f labels 0 (labelledLines f labels) ++ [.margin]) := by
  unfold fileRows
  split
  · rename_i hnil
    have hline := startLine_mem f h
    rw [hnil] at hline
    cases hline
  · rfl

/-- What the rows of a file show, behind the places. -/
theorem shows_fileRows {others : List Row} (hanchor : anchor ∈ labels)
    (hone : OneMessage labels anchor.file f)
    (hothers : List.Forall₂ (PlaceRow files) (labels.filter (·.file ≠ anchor.file)) others) :
    Shows files f anchor labels (.place f.name (f.location anchor.span.start) none :: others ++
      fileRows f (labels.filter (·.file = anchor.file))) := by
  have hnear : ∀ l, l ∈ labels.filter (·.file = anchor.file) ↔ l ∈ labels ∧ l.file = anchor.file := by simp
  rw [fileRows_eq ((hnear anchor).mpr ⟨hanchor, rfl⟩)]
  generalize labels.filter (·.file = anchor.file) = near at hnear
  have hshown : Displays f near 0 (labelledLines f near) (linesRows f near 0 (labelledLines f near) ++ [.margin]) := by
    refine linesRows_displays near 0 _ (pairwise_cons.mpr ⟨fun n hn => ?_, pairwise_labelledLines f near⟩)
    obtain ⟨l, -, rfl⟩ := mem_labelledLines.mp hn
    exact startLine_pos f l
  generalize linesRows f near 0 (labelledLines f near) ++ [.margin] = shown at hshown
  have hplaces := isPlace_of_forall₂ hothers
  have hsections : sections (.place f.name (f.location anchor.span.start) none :: others ++ .margin :: shown) =
      sections shown := by
    rw [List.cons_append, sections, sections_append fun row hrow => (hplaces row hrow).2, sections]
    all_goals simp
  refine ⟨⟨others, ?_, hothers⟩, ?_, ?_, ?_, ?_⟩
  · have hkept : others.filter Row.isPlace = others := List.filter_eq_self.mpr fun row hrow => (hplaces row hrow).1
    have hnone : shown.filter Row.isPlace = [] := List.filter_eq_nil_iff.mpr fun row hrow => by simp [hshown.places row hrow]
    rw [List.filter_append, List.filter_cons_of_pos rfl, List.filter_cons_of_neg (by simp [Row.isPlace]), hkept, hnone,
      List.append_nil]
  · have hsorted := pairwise_labelledLines f near
    rw [hsections]
    rwa [← hshown.shown, List.pairwise_map] at hsorted
  · rw [hsections]
    exact fun s hs => (hshown.own s hs).1
  · intro l hl hfile
    have hline := startLine_mem f ((hnear l).mpr ⟨hl, hfile⟩)
    rw [← hshown.shown] at hline
    obtain ⟨s, hs, hsline⟩ := List.mem_map.mp hline
    obtain ⟨-, more, hbelow⟩ := hshown.own s hs
    refine ⟨s, hsections ▸ hs, hsline, fun hmessage => ?_⟩
    have hsame : ∀ k, k ∈ near.filter (startLine f · = s.line) ↔ (k ∈ labels ∧ k.file = anchor.file) ∧ startLine f k = s.line := by
      simp [hnear]
    obtain ⟨row, hrow, hshows⟩ := mem_belowLine f s.line ((hsame l).mpr ⟨⟨hl, hfile⟩, hsline.symm⟩) hmessage
      fun hprimary k hk hkprimary hkmessage => by
        obtain ⟨⟨hk, hkfile⟩, hkline⟩ := (hsame k).mp hk
        refine List.inj_on_of_nodup_map hone (mem_filter.mpr ⟨hk, ?_⟩) (mem_filter.mpr ⟨hl, ?_⟩) (hkline.trans hsline)
        · exact decide_eq_true ⟨hkfile, hkprimary, hkmessage⟩
        · exact decide_eq_true ⟨hfile, hprimary, hmessage⟩
    exact ⟨row, by rw [hbelow]; exact List.mem_append_left _ hrow, hshows⟩
  · rw [hsections]
    exact hshown.chain

theorem mem_of_anchor? (h : anchor ∈ d.anchor?) : anchor ∈ d.labels := by
  rcases hprimary : d.primaryLabel? with _ | l
  · rw [Diagnostic.anchor?, hprimary] at h
    exact List.mem_of_mem_head? h
  · rw [Diagnostic.anchor?, hprimary] at h
    obtain rfl := Option.some.inj h
    exact List.mem_of_find?_eq_some hprimary

section

variable (hcolors : r.colors = false) (hfiles : ∀ l ∈ d.labels, l.file < files.size)
  (hone : ∀ anchor ∈ d.anchor?, ∀ f, files.get anchor.file = .ok f → OneMessage d.labels anchor.file f)
include hcolors hfiles hone

theorem ends_snippet : Ends (snippet files d) r fun _ r' => ∃ width rows,
    r' = r.wrote (rows.flatMap (Row.print false width)) ∧
    ∀ anchor ∈ d.anchor?, ∃ f, files.get anchor.file = .ok f ∧ Shows files f anchor d.labels rows := by
  unfold snippet
  simp only [ends_bind, ends_get, hcolors]
  rcases hanchor : d.anchor? with _ | anchor
  · exact (ends_pure _).mpr ⟨0, [], r.wrote_nil.symm, by simp⟩
  · have hmem := mem_of_anchor? hanchor
    obtain ⟨f, hf⟩ := get_of_lt (hfiles anchor hmem)
    have hfar : (not ∘ fun l : Label => decide (l.file = anchor.file)) = fun l => decide (l.file ≠ anchor.file) :=
      funext fun l => by simp
    simp only [ends_bind, ends_ofExcept, ends_write, hf, Except.ok.injEq, exists_eq_left', List.partition_eq_filter_filter, hfar]
    refine (ends_others _ fun l hl => hfiles l (mem_filter.mp hl).1).mono ?_
    rintro - _ ⟨others, hothers, rfl⟩
    have hshows := shows_fileRows hmem (hone anchor hanchor f hf) hothers
    generalize d.labels.filter (·.file = anchor.file) = near at hshows ⊢
    refine ⟨numberWidth (labelledLines f near), _, ?_, by rintro _ ⟨⟩; exact ⟨f, hf, hshows⟩⟩
    have hwidth : others.flatMap (Row.print false 0) =
        others.flatMap (Row.print false (numberWidth (labelledLines f near))) :=
      List.flatMap_congr fun row hrow => print_place (isPlace_of_forall₂ hothers row hrow).1 _ _ _
    rw [Renderer.wrote_wrote, Renderer.wrote_wrote, List.flatMap_append, List.flatMap_cons, hwidth, List.append_assoc]
    rfl

end

theorem ofString_append (a b : String) : Bytes.ofString (a ++ b) = Bytes.ofString a ++ Bytes.ofString b := by
  simp [Bytes.ofString]

theorem message_in_headerText (d : Diagnostic) : Bytes.ofString d.message <:+: headerText false d := by
  refine ⟨Bytes.ofString d.severity.name ++ (if d.code = "" then [] else Bytes.ofString ("[" ++ d.code ++ "]")) ++
    Bytes.ofString ": ", [Bytes.newline], ?_⟩
  simp [headerText, paint, ofString_append]

theorem text_in_trailerText {text : String} (h : text ∈ d.notes ++ d.help) :
    Bytes.ofString text <:+: trailerText false d := by
  have hremark : ∀ color word, Bytes.ofString text <:+: remark false color word text := fun color word =>
    ⟨Bytes.ofString "  " ++ Bytes.ofString ("= " ++ word) ++ Bytes.ofString ": ", [Bytes.newline], by
      simp [remark, paint, ofString_append]⟩
  have hall : ∀ {texts : List String} {color word}, text ∈ texts →
      Bytes.ofString text <:+: texts.flatMap (remark false color word) := fun h =>
    (hremark _ _).trans (List.infix_of_mem_flatten (List.mem_map_of_mem h))
  unfold trailerText
  rcases mem_append.mp h with h | h
  · exact (hall h).trans ⟨[], _, by rw [List.nil_append, List.append_assoc]⟩
  · exact (hall h).trans ⟨_, _, rfl⟩

theorem message_in_print {text : String} (h : text ∈ row.message?) (width : Nat) :
    Bytes.ofString text <:+: row.print false width := by
  cases row with
  | place file location text' =>
    obtain rfl : text' = some text := h
    exact ⟨Bytes.ofString "  --> " ++ locationText file location ++ Bytes.ofString " ", [Bytes.newline], by
      simp [Row.print, paint, ofString_append]⟩
  | marks runs text' =>
    obtain rfl : text' = some text := h
    exact ⟨Bytes.blanks width ++ Bytes.ofString " | " ++ runs.flatMap (Mark.print false) ++ Bytes.ofString " ",
      [Bytes.newline], by simp [Row.print, paint]⟩
  | message column text' =>
    obtain rfl : text' = text := Option.some.inj h
    exact ⟨Bytes.blanks width ++ Bytes.ofString " | " ++ Bytes.blanks column, [Bytes.newline], by simp [Row.print, paint]⟩
  | _ => cases h

def sampleFiles : SourceFiles := ⟨#[sampleFile, ⟨"base.src", Bytes.ofString "let base"⟩]⟩

/-- An error with labels on one line, on the line before and in another file. -/
def sampleReport : Diagnostic :=
  (Diagnostic.error Code.undeclared "Unknown identifier totl" (sampleLabels ++ [.secondary 0 ⟨4, 9⟩ "similar",
    .secondary 1 ⟨4, 8⟩ "also here"])).withHelp "a binding with a similar name exists: total"

end BlockCompiler.Rendering
