/-
  BlockCompiler.Proofs.TargetText — the text of a module, line by line and word by word.

  Words are separated by blanks, commas, brackets and stars. Between quotes every character
  belongs to the word. A semicolon starts a comment, which ends with its line. A line without
  words is skipped.

  (1) A reader of texts (`textLines`). What it does with a text depends on what was read before
      only in that words and lines are added to it: `Reads s ws` says that the words `ws` are
      added, `ReadsLines s ls` that the lines `ls` are.
  (2) The words of types, operands, instructions and exits (`Instr.words`, `Exit.words`), and
      that the reader finds them in their texts.
  (3) The lines of a module (`ModuleCode.lines`), and that the reader finds them in its text
      (`textLines_text`).
-/
import BlockCompiler.Proofs.TargetTyping

namespace BlockCompiler.Target

variable {name s : String} {c : Char} {i : Instr} {α : Type}

/-! ## (1) Readers -/

/-- The words of a line. -/
abbrev Line := List String

inductive Mode where
  | code
  | quoted
  | comment
  deriving DecidableEq, Repr

/-- A reader in the middle of a text: the word that it is reading, and the words before it in the
line, and the lines before that. -/
structure Reader where
  mode : Mode := .code
  word : List Char := []
  line : Line := []
  lines : List Line := []
  deriving DecidableEq, Repr

/-- What stands between words. -/
def isGap (c : Char) : Bool := c ∈ [' ', ',', '(', ')', '[', ']', '*']

namespace Reader

def endWord (r : Reader) : Reader :=
  if r.word = [] then r else { r with word := [], line := r.line ++ [String.ofList r.word] }

def endLine (r : Reader) : Reader :=
  let r := r.endWord
  { mode := .code, word := [], line := [], lines := if r.line = [] then r.lines else r.lines ++ [r.line] }

def step (r : Reader) (c : Char) : Reader :=
  match r.mode with
  | .quoted => { r with word := r.word ++ [c], mode := if c = '"' then .code else .quoted }
  | .comment => if c = '\n' then r.endLine else r
  | .code =>
    if c = '\n' then r.endLine
    else if c = ';' then { r.endWord with mode := .comment }
    else if isGap c then r.endWord
    else { r with word := r.word ++ [c], mode := if c = '"' then .quoted else .code }

def run (r : Reader) (text : String) : Reader := text.toList.foldl step r

end Reader

/-- The lines of a text, without comments. -/
def textLines (text : String) : List Line := (Reader.run {} text).endLine.lines

/-- Whether a character outside of quotes belongs to a word. -/
def isWordChar (c : Char) : Bool := c ≠ '\n' && c ≠ ';' && c ≠ '"' && !isGap c

/-- A name can stand between quotes and in a comment. -/
def Plain (name : String) : Prop := '"' ∉ name.toList ∧ '\n' ∉ name.toList

instance (name : String) : Decidable (Plain name) := inferInstanceAs (Decidable (_ ∧ _))

/-- A reader between two words. -/
def Reader.AtWord (r : Reader) : Prop := r.mode = .code ∧ r.word = []

/-- After the text the reader has these words more, and the last one may go on. -/
def Reads (s : String) (ws : List String) : Prop := ∀ r : Reader, r.AtWord →
  (r.run s).mode = .code ∧ (r.run s).endWord = { r with line := r.line ++ ws }

/-- After the text the reader has these words more, and is between two words. -/
def Parts (s : String) (ws : List String) : Prop := ∀ r : Reader, r.AtWord →
  r.run s = { r with line := r.line ++ ws }

/-- After the text the reader has these lines more, and is at the start of a line. -/
def ReadsLines (s : String) (ls : List Line) : Prop := ∀ r : Reader, r.AtWord → r.line = [] →
  r.run s = { r with lines := r.lines ++ ls }

namespace Reader

variable {r : Reader}

theorem run_append (r : Reader) (s s' : String) : r.run (s ++ s') = (r.run s).run s' := by
  rw [run, String.toList_append, List.foldl_append]
  rfl

theorem endWord_of_nil (h : r.word = []) : r.endWord = r := if_pos h

theorem AtWord.of_line (h : r.AtWord) (line : Line) (lines : List Line) : AtWord { r with line, lines } := h

section

variable (hmode : r.mode = .code)
include hmode

theorem atWord_endWord : r.endWord.AtWord := by
  unfold endWord
  split
  · exact ⟨hmode, by assumption⟩
  · exact ⟨hmode, rfl⟩

theorem step_gap (hc : isGap c = true) : r.step c = r.endWord := by
  have hne : c ≠ '\n' ∧ c ≠ ';' := by constructor <;> rintro rfl <;> cases hc
  simp [step, hmode, hne.1, hne.2, hc]

/-- A text that starts with a gap ends the word before it. -/
theorem run_endWord (hs : s.toList.head?.any isGap = true) : r.run s = r.endWord.run s := by
  obtain ⟨c, hc, hgap⟩ := Option.any_eq_true _ _ |>.mp hs
  obtain ⟨cs, hcs⟩ := List.head?_eq_some_iff.mp hc
  have hat := atWord_endWord hmode
  unfold run
  rw [hcs, List.foldl_cons, List.foldl_cons, step_gap hmode hgap, step_gap hat.1 hgap, endWord_of_nil hat.2]

theorem step_word (hc : isWordChar c = true) : r.step c = { r with word := r.word ++ [c] } := by
  simp only [isWordChar, Bool.and_eq_true, decide_eq_true_eq, Bool.not_eq_true'] at hc
  obtain ⟨⟨⟨hn, hs⟩, hq⟩, hg⟩ := hc
  simp [step, hmode, hn, hs, hq, hg]

end

/-- Characters that go on with a word. -/
theorem run_collect {mode : Mode} (hmode : r.mode = mode)
    (hs : ∀ c ∈ s.toList, ∀ r : Reader, r.mode = mode → r.step c = { r with word := r.word ++ [c] }) :
    r.run s = { r with word := r.word ++ s.toList } := by
  unfold run
  generalize s.toList = cs at *
  induction cs generalizing r with
  | nil => simp
  | cons c cs ih =>
    rw [List.foldl_cons, hs c List.mem_cons_self r hmode]
    refine (ih (r := { r with word := r.word ++ [c] }) hmode fun x hx => hs x (.tail _ hx)).trans ?_
    simp

theorem run_word (hmode : r.mode = .code) (hs : s.toList.all isWordChar = true) :
    r.run s = { r with word := r.word ++ s.toList } :=
  run_collect hmode fun c hc _ hr => step_word hr (List.all_eq_true.mp hs c hc)

theorem run_quoted (hmode : r.mode = .quoted) (hs : '"' ∉ s.toList) :
    r.run s = { r with word := r.word ++ s.toList } := by
  refine run_collect hmode fun c hc q hq => ?_
  have hne : c ≠ '"' := fun he => hs (he ▸ hc)
  simp [step, hq, hne]

theorem run_comment (hmode : r.mode = .comment) (hs : '\n' ∉ s.toList) : r.run s = r := by
  unfold run
  generalize s.toList = cs at *
  induction cs with
  | nil => rfl
  | cons c cs ih =>
    have hc : c ≠ '\n' := fun he => hs (he ▸ .head _)
    have hstep : r.step c = r := by simp [step, hmode, hc]
    rw [List.foldl_cons, hstep]
    exact ih fun hmem => hs (.tail _ hmem)

/-- The reader with more words before those of its line, and other lines before that. -/
def after (r : Reader) (line : Line) (lines : List Line) : Reader := { r with line := line ++ r.line, lines }

theorem endWord_after (r : Reader) (line : Line) (lines : List Line) :
    (r.after line lines).endWord = r.endWord.after line lines := by
  unfold endWord after
  by_cases h : r.word = [] <;> simp [h]

/-- A reader between two words is told by its lines. -/
theorem AtWord.eq (h : r.AtWord) : r = after {} r.line r.lines := by
  obtain ⟨mode, word, line, lines⟩ := r
  obtain ⟨rfl, rfl⟩ := h
  simp [after]

theorem step_after (r : Reader) (hc : c ≠ '\n') (line : Line) (lines : List Line) :
    (r.after line lines).step c = (r.step c).after line lines := by
  have hmode : (r.after line lines).mode = r.mode := rfl
  unfold step
  rw [hmode, endWord_after]
  cases r.mode with
  | quoted => rfl
  | comment => simp [hc]
  | code =>
    simp only [hc, if_false]
    split
    · rfl
    · split <;> rfl

theorem run_after (hs : '\n' ∉ s.toList) (r : Reader) (line : Line) (lines : List Line) :
    (r.after line lines).run s = (r.run s).after line lines := by
  unfold run
  generalize s.toList = cs at *
  induction cs generalizing r with
  | nil => rfl
  | cons c cs ih =>
    have hc : c ≠ '\n' := fun he => hs (he ▸ .head _)
    rw [List.foldl_cons, List.foldl_cons, step_after r hc]
    exact ih _ fun hmem => hs (.tail _ hmem)

end Reader

section Words

variable {s s' : String} {ws ws' : List String}

/-- It is enough to read a text once if it has no line ends. -/
theorem parts_of_run (hs : '\n' ∉ s.toList) (h : Reader.run {} s = { line := ws }) : Parts s ws := by
  intro r hr
  rw [hr.eq, Reader.run_after hs, h]
  simp [Reader.after]

theorem reads_of_run (hs : '\n' ∉ s.toList) (hmode : (Reader.run {} s).mode = .code)
    (h : (Reader.run {} s).endWord = { line := ws }) : Reads s ws := by
  intro r hr
  rw [hr.eq, Reader.run_after hs, Reader.endWord_after, h]
  exact ⟨hmode, by simp [Reader.after]⟩

theorem Reads.parts (h : Reads s ws) (h' : Parts s' ws') (hgap : s'.toList.head?.any isGap = true) :
    Parts (s ++ s') (ws ++ ws') := by
  intro r hr
  obtain ⟨hmode, hend⟩ := h r hr
  rw [Reader.run_append, Reader.run_endWord hmode hgap, hend, h' _ (hr.of_line _ _)]
  simp

theorem Reads.before (h : Reads s ws) (h' : Reads s' ws') (hgap : s'.toList.head?.any isGap = true) :
    Reads (s ++ s') (ws ++ ws') := by
  intro r hr
  obtain ⟨hmode, hend⟩ := h r hr
  rw [Reader.run_append, Reader.run_endWord hmode hgap, hend]
  obtain ⟨hmode', hend'⟩ := h' _ (hr.of_line (r.line ++ ws) r.lines)
  refine ⟨hmode', hend'.trans ?_⟩
  simp

theorem Parts.reads (h : Parts s ws) : Reads s ws := by
  intro r hr
  rw [h r hr]
  exact ⟨hr.1, Reader.endWord_of_nil hr.2⟩

theorem Parts.then (h : Parts s ws) (h' : Reads s' ws') : Reads (s ++ s') (ws ++ ws') := by
  intro r hr
  rw [Reader.run_append, h r hr]
  obtain ⟨hmode, hend⟩ := h' _ (hr.of_line (r.line ++ ws) r.lines)
  refine ⟨hmode, hend.trans ?_⟩
  simp

theorem Reads.of_eq (h : Reads s ws) (hw : ws = ws') : Reads s ws' := hw ▸ h

theorem reads_empty : Reads "" [] := by
  intro r hr
  refine ⟨hr.1, ?_⟩
  rw [List.append_nil]
  exact Reader.endWord_of_nil hr.2

theorem reads_word (hne : s.toList ≠ []) (hs : s.toList.all isWordChar = true) : Reads s [s] := by
  intro r hr
  rw [Reader.run_word hr.1 hs, hr.2, List.nil_append]
  refine ⟨hr.1, ?_⟩
  rw [Reader.endWord, if_neg hne, String.ofList_toList]

/-- A name in quotes, with a sigil before it. -/
theorem reads_quoted (sigil : String) (hs : sigil.toList.all isWordChar = true) (hname : Plain name) :
    Reads (sigil ++ "\"" ++ name ++ "\"") [sigil ++ "\"" ++ name ++ "\""] := by
  intro r hr
  obtain ⟨mode, word, line, lines⟩ := r
  obtain ⟨rfl, rfl⟩ := hr
  have hopen : Reader.run { line, lines } (sigil ++ "\"") =
      { mode := .quoted, word := sigil.toList ++ ['"'], line, lines } := by
    rw [Reader.run_append, Reader.run_word rfl hs]
    rfl
  have hclose : Reader.run { line, lines } (sigil ++ "\"" ++ name ++ "\"") =
      { word := (sigil ++ "\"" ++ name ++ "\"").toList, line, lines } := by
    rw [Reader.run_append, Reader.run_append, hopen, Reader.run_quoted rfl hname.1]
    simp [Reader.run, Reader.step]
  rw [hclose]
  refine ⟨rfl, ?_⟩
  rw [Reader.endWord, if_neg (by simp), String.ofList_toList]

/-- A literal between words: it starts with a gap, ends with one and has these words. -/
def Between (s : String) (ws : List String) : Prop :=
  '\n' ∉ s.toList ∧ s.toList.head?.any isGap = true ∧ Reader.run {} s = { line := ws }

instance (s : String) (ws : List String) : Decidable (Between s ws) := inferInstanceAs (Decidable (_ ∧ _ ∧ _))

theorem Reads.lit (h : Reads s ws) (h' : Between s' ws') : Parts (s ++ s') (ws ++ ws') :=
  h.parts (parts_of_run h'.1 h'.2.2) h'.2.1

theorem reads_intercalate {text : α → String} {words : α → List String} : ∀ l : List α,
    (∀ a ∈ l, Reads (text a) (words a)) → Reads (", ".intercalate (l.map text)) (l.flatMap words)
  | [], _ => by
    rw [List.map_nil, String.intercalate_nil]
    exact reads_empty
  | [a], h => by
    rw [List.map_cons, List.map_nil, String.intercalate_singleton, List.flatMap_singleton]
    exact h a (.head _)
  | a :: b :: l, h => by
    have hrest := reads_intercalate (b :: l) fun x hx => h x (.tail _ hx)
    rw [List.map_cons, List.map_cons, String.intercalate_cons_cons, List.flatMap_cons, ← List.map_cons]
    have hcomma : Between ", " [] := by decide
    have hparts := ((h a (.head _)).lit hcomma).then hrest
    rwa [List.append_nil] at hparts

end Words

/-! ## (2) Words -/

theorem ne_of_isDigit {d : Char} (h : c.isDigit = true) (hd : d.isDigit = false) : c ≠ d := by
  rintro rfl
  cases h.symm.trans hd

theorem isWordChar_of_isDigit (h : c.isDigit = true) : isWordChar c = true := by
  simp (disch := decide) [isWordChar, isGap, ne_of_isDigit h]

theorem all_isWordChar_repr (n : Nat) : n.repr.toList.all isWordChar = true := by
  refine List.all_eq_true.mpr fun c hc => ?_
  rw [Nat.toList_repr] at hc
  exact isWordChar_of_isDigit (Nat.isDigit_of_mem_toDigits (by omega) (by omega) hc)

/-- A name that ends with a number. -/
theorem reads_numbered (stem : String) (h : stem.toList.all isWordChar = true) (n : Nat) :
    Reads (stem ++ n.repr) [stem ++ n.repr] := by
  refine reads_word ?_ ?_
  · rw [String.toList_append, Nat.toList_repr]
    simp
  · rw [String.toList_append, List.all_append, h, all_isWordChar_repr]
    rfl

theorem reads_nat (n : Nat) : Reads n.repr [n.repr] := by
  have h := reads_numbered "" (by simp) n
  rwa [String.empty_append] at h

namespace CodeType

mutual

def words : CodeType → List String
  | int width => ["i" ++ width.repr]
  | float => ["float"]
  | double => ["double"]
  | ptr pointee => pointee.words
  | array length element => length.toNat.repr :: "x" :: element.words
  | struct [] => ["\x7b\x7d"]
  | struct (field :: fields) => "\x7b" :: (field.words ++ wordsOf fields) ++ ["\x7d"]
  | named name => ["%\"" ++ name ++ "\""]
  | func result params => result.words ++ wordsOf params

def wordsOf : List CodeType → List String
  | [] => []
  | t :: rest => t.words ++ wordsOf rest

end

theorem wordsOf_eq (l : List CodeType) : wordsOf l = l.flatMap words := by
  induction l with
  | nil => rfl
  | cons t l ih => rw [wordsOf, ih, List.flatMap_cons]

mutual

theorem reads_text : ∀ ty : CodeType, (∀ name ∈ ty.names, Plain name) → Reads ty.text ty.words
  | int width, _ => reads_numbered "i" (by decide) width
  | float, _ | double, _ | struct [], _ => reads_word (by decide) (by decide)
  | ptr pointee, h => by
    have hstar : Between "*" [] := by decide
    have hparts := (reads_text pointee h).lit hstar
    rw [List.append_nil] at hparts
    exact hparts.reads
  | array length element, h => by
    have hopen : Parts "[" [] := parts_of_run (by decide) (by decide)
    have hx : Between " x " ["x"] := by decide
    have hclose : Between "]" [] := by decide
    have hparts := (((hopen.then (reads_nat length.toNat)).lit hx).then (reads_text element h)).lit hclose
    rw [List.append_nil] at hparts
    exact hparts.reads
  | struct (field :: fields), h => by
    have hfield : Reads field.text field.words := reads_text field fun name hname => h name (List.mem_append_left _ hname)
    have hfields := reads_texts fields fun name hname => h name (List.mem_append_right _ hname)
    have hopen : Parts "\x7b " ["\x7b"] := parts_of_run (by decide) (by decide)
    have hclose : Reads " \x7d" ["\x7d"] := reads_of_run (by decide) (by decide) (by decide)
    have hall := reads_intercalate (field :: fields) (List.forall_mem_cons.mpr ⟨hfield, hfields⟩)
    rw [text, words, texts_eq, wordsOf_eq, ← List.map_cons, ← List.flatMap_cons]
    exact (hopen.then hall).before hclose (by decide)
  | named name, h => reads_quoted "%" (by decide) (h name (by simp [names]))
  | func result params, h => by
    have hresult : Reads result.text result.words := reads_text result fun name hname => h name (List.mem_append_left _ hname)
    have hparams := reads_texts params fun name hname => h name (List.mem_append_right _ hname)
    have hopen : Between " (" [] := by decide
    have hclose : Between ")*" [] := by decide
    have hparts := ((hresult.lit hopen).then (reads_intercalate params hparams)).lit hclose
    rw [List.append_nil, List.append_nil] at hparts
    rw [text, words, texts_eq, wordsOf_eq]
    exact hparts.reads

theorem reads_texts : ∀ tys : List CodeType, (∀ name ∈ namesOf tys, Plain name) → ∀ t ∈ tys, Reads t.text t.words
  | [], _ => List.forall_mem_nil _
  | u :: rest, h => List.forall_mem_cons.mpr
    ⟨reads_text u fun name hname => h name (List.mem_append_left _ hname),
      reads_texts rest fun name hname => h name (List.mem_append_right _ hname)⟩

end

end CodeType

/-- Names in the type can be written in quotes. -/
def CodeType.Legible (ty : CodeType) : Prop := ∀ name ∈ ty.names, Plain name

def Operand.Legible (o : Operand) : Prop := ∀ name, o = .global name → Plain name

theorem Operand.reads_text : ∀ {o : Operand}, o.Legible → Reads o.text [o.text]
  | temp n, _ => reads_numbered "%t" (by decide) n
  | slot v, _ => reads_numbered "%var" (by decide) v.index
  | spill n, _ => reads_numbered "%spill" (by decide) n
  | arg n, _ => reads_numbered "%arg" (by decide) n
  | global name, h => reads_quoted "@" (by decide) (h name rfl)
  | int (.ofNat n), _ => reads_nat n
  | int (.negSucc n), _ => reads_numbered "-" (by decide) (n + 1)
  | float bits, _ => by
    have hdigit : ∀ n < 16, isWordChar (Double.hexDigit n) = true := by decide
    have hhex : (Double.hexText bits).toList.all isWordChar = true := by
      refine List.all_eq_true.mpr fun c hc => ?_
      rw [Double.hexText, String.toList_ofList, List.mem_map] at hc
      obtain ⟨i, -, rfl⟩ := hc
      exact hdigit _ (Nat.mod_lt _ (by omega))
    refine reads_word (by simp [text]) ?_
    rw [text, String.toList_append, List.all_append, hhex]
    decide
  | floatZero, _ | bool true, _ | bool false, _ | zero, _ => reads_word (by decide) (by decide)

theorem reads_typed {ty : CodeType} {o : Operand} (hty : ty.Legible) (ho : o.Legible) :
    Reads (typed ty o) (ty.words ++ [o.text]) := by
  have hblank : Between " " [] := by decide
  have hparts := ((ty.reads_text hty).lit hblank).then (Operand.reads_text ho)
  rwa [List.append_nil] at hparts

def BinaryOp.words : BinaryOp → List String
  | icmp p => ["icmp", p.text]
  | fcmp p => ["fcmp", p.text]
  | op => [op.text]

theorem BinaryOp.reads_text (op : BinaryOp) : Reads op.text op.words := by
  cases op with
  | icmp p | fcmp p => cases p <;> exact reads_of_run (by decide) (by decide) (by decide)
  | _ => exact reads_of_run (by decide) (by decide) (by decide)

theorem ConvertOp.reads_text (op : ConvertOp) : Reads op.text [op.text] := by
  cases op <;> exact reads_of_run (by decide) (by decide) (by decide)

namespace Instr

/-- The words of an instruction after those that say what it defines. -/
def rest : Instr → List String
  | store ty value address => "store" :: ty.words ++ [value.text] ++ ty.words ++ [address.text]
  | load _ ty addressTy address => "load" :: ty.words ++ addressTy.words ++ [address.text]
  | extract _ ty value index => "extractvalue" :: ty.words ++ [value.text, index.repr]
  | field _ ty address index =>
    "getelementptr" :: "inbounds" :: ty.words ++ ty.words ++ [address.text, "i32", "0", "i32", index.repr]
  | offset _ element addressTy address index =>
    "getelementptr" :: element.words ++ addressTy.words ++ [address.text, "i64", index.text]
  | binary _ op ty lhs rhs => op.words ++ ty.words ++ [lhs.text, rhs.text]
  | negate _ ty value => "fneg" :: ty.words ++ [value.text]
  | convert _ op source value target => op.text :: source.words ++ [value.text, "to"] ++ target.words
  | call _ ty callee args => "call" :: ty.words ++ [callee.text] ++ args.flatMap fun a => a.1.words ++ [a.2.text]
  | comment _ => []

def words (i : Instr) : List String :=
  match i.result? with
  | some result => result.text :: "=" :: i.rest
  | none => i.rest

structure Legible (i : Instr) : Prop where
  uses : ∀ u ∈ i.uses, u.1.Legible
  types : ∀ T ∈ i.types, T.Legible
  result : ∀ o, i.result? = some o → o.Legible
  note : ∀ note, i = comment note → '\n' ∉ note.toList

theorem reads_text (h : i.Legible) (hi : i.note? = none) : Reads i.text i.words := by
  have hcomma : Between ", " [] := by decide
  cases i with
  | store ty value address =>
    have hty : ty.Legible := h.types ty (by simp [types])
    have hptr : ty.ptr.Legible := hty
    have hvalue := reads_typed hty (h.uses (value, ty) (by simp [uses]))
    have haddress := reads_typed hptr (h.uses (address, ty.ptr) (by simp [uses]))
    have hop : Parts "store " ["store"] := parts_of_run (by decide) (by decide)
    exact (((hop.then hvalue).lit hcomma).then haddress).of_eq (by simp [words, rest, result?, CodeType.words])
  | load result ty addressTy address =>
    have hresult := Operand.reads_text (h.result result rfl)
    have hty := ty.reads_text (h.types ty (by simp [types]))
    have haddress := reads_typed (h.types addressTy (by simp [types])) (h.uses (address, addressTy) (by simp [uses]))
    have hop : Between " = load " ["=", "load"] := by decide
    exact ((((hresult.lit hop).then hty).lit hcomma).then haddress).of_eq (by simp [words, rest, result?])
  | extract result ty value index =>
    have hresult := Operand.reads_text (h.result result rfl)
    have hvalue := reads_typed (h.types ty (by simp [types])) (h.uses (value, ty) (by simp [uses]))
    have hop : Between " = extractvalue " ["=", "extractvalue"] := by decide
    have hall := (((hresult.lit hop).then hvalue).lit hcomma).then (reads_nat index)
    have htext : (extract result ty value index).text =
        result.text ++ " = extractvalue " ++ typed ty value ++ (", " ++ index.repr) := rfl
    rw [htext, ← String.append_assoc]
    exact hall.of_eq (by simp [words, rest, result?])
  | field result ty address index =>
    have hresult := Operand.reads_text (h.result result rfl)
    have hty : ty.Legible := h.types ty (by simp [types])
    have hptr : ty.ptr.Legible := hty
    have haddress := reads_typed hptr (h.uses (address, ty.ptr) (by simp [uses]))
    have hop : Between " = getelementptr inbounds " ["=", "getelementptr", "inbounds"] := by decide
    have hindex : Between ", i32 0, i32 " ["i32", "0", "i32"] := by decide
    have hall := (((((hresult.lit hop).then (ty.reads_text hty)).lit hcomma).then haddress).lit hindex).then
      (reads_nat index)
    have htext : (field result ty address index).text = result.text ++ " = getelementptr inbounds " ++ ty.text ++ ", " ++
        typed ty.ptr address ++ (", i32 0, i32 " ++ index.repr) := rfl
    rw [htext, ← String.append_assoc]
    exact hall.of_eq (by simp [words, rest, result?, CodeType.words])
  | offset result element addressTy address index =>
    have hresult := Operand.reads_text (h.result result rfl)
    have helement := element.reads_text (h.types element (by simp [types]))
    have haddress := reads_typed (h.types addressTy (by simp [types])) (h.uses (address, addressTy) (by simp [uses]))
    have hindex := Operand.reads_text (h.uses (index, .int 64) (by simp [uses]))
    have hop : Between " = getelementptr " ["=", "getelementptr"] := by decide
    have hwidth : Between ", i64 " ["i64"] := by decide
    exact ((((((hresult.lit hop).then helement).lit hcomma).then haddress).lit hwidth).then hindex).of_eq
      (by simp [words, rest, result?])
  | binary result op ty lhs rhs =>
    have hresult := Operand.reads_text (h.result result rfl)
    have hlhs := reads_typed (h.types ty (by simp [types])) (h.uses (lhs, ty) (by simp [uses]))
    have hrhs := Operand.reads_text (h.uses (rhs, ty) (by simp [uses]))
    have hdefine : Between " = " ["="] := by decide
    have hblank : Between " " [] := by decide
    exact ((((((hresult.lit hdefine).then op.reads_text).lit hblank).then hlhs).lit hcomma).then hrhs).of_eq
      (by simp [words, rest, result?])
  | negate result ty value =>
    have hresult := Operand.reads_text (h.result result rfl)
    have hvalue := reads_typed (h.types ty (by simp [types])) (h.uses (value, ty) (by simp [uses]))
    have hop : Between " = fneg " ["=", "fneg"] := by decide
    exact ((hresult.lit hop).then hvalue).of_eq (by simp [words, rest, result?])
  | convert result op source value target =>
    have hresult := Operand.reads_text (h.result result rfl)
    have hvalue := reads_typed (h.types source (by simp [types])) (h.uses (value, source) (by simp [uses]))
    have htarget := target.reads_text (h.types target (by simp [types]))
    have hdefine : Between " = " ["="] := by decide
    have hblank : Between " " [] := by decide
    have hto : Between " to " ["to"] := by decide
    exact ((((((hresult.lit hdefine).then op.reads_text).lit hblank).then hvalue).lit hto).then htarget).of_eq
      (by simp [words, rest, result?])
  | call result ty callee args =>
    have hresult := Operand.reads_text (h.result result rfl)
    have hcallee := reads_typed (h.types ty (by simp [types])) (h.uses (callee, .func ty (args.map (·.1))) (by simp [uses]))
    have htypes : ∀ a ∈ args, a.1.Legible := by
      intro a ha
      refine h.types a.1 ?_
      rw [types]
      exact .tail _ (List.mem_map_of_mem ha)
    have huses : ∀ a ∈ args, a.2.Legible := by
      intro a ha
      refine h.uses (a.2, a.1) ?_
      rw [uses]
      exact .tail _ (List.mem_map.mpr ⟨a, ha, rfl⟩)
    have hargs : Reads (", ".intercalate (args.map fun a => typed a.1 a.2)) (args.flatMap fun a => a.1.words ++ [a.2.text]) :=
      reads_intercalate args fun a ha => reads_typed (htypes a ha) (huses a ha)
    have hop : Between " = call " ["=", "call"] := by decide
    have hopen : Between "(" [] := by decide
    have hclose : Between ")" [] := by decide
    exact (((((hresult.lit hop).then hcallee).lit hopen).then hargs).lit hclose).reads.of_eq
      (by simp [words, rest, result?])
  | comment text => cases hi

end Instr

/-- A block as the target of a jump. -/
def labelWord (b : BlockId) : String := "%bb" ++ b.index.repr

theorem reads_labelWord (b : BlockId) : Reads (labelWord b) [labelWord b] := reads_numbered "%bb" (by decide) b.index

theorem percent_labelText (b : BlockId) : "%" ++ labelText b = labelWord b := by
  change "%" ++ ("bb" ++ b.index.repr) = "%bb" ++ b.index.repr
  rw [← String.append_assoc]
  rfl

/-- A label after other words. -/
theorem Reads.label {ws : List String} (h : Reads s ws) (b : BlockId) :
    Reads (s ++ ", label %" ++ labelText b) (ws ++ ["label", labelWord b]) := by
  have hlabel : Between ", label " ["label"] := by decide
  have hsplit : s ++ ", label %" ++ labelText b = s ++ ", label " ++ labelWord b := by
    rw [← percent_labelText, show ", label %" = ", label " ++ "%" from rfl]
    simp only [String.append_assoc]
  rw [hsplit]
  exact ((h.lit hlabel).then (reads_labelWord b)).of_eq (by simp)

theorem Reads.join {text : α → String} {words : α → List String} : ∀ {l : List α} {s : String}
    {ws : List String}, Reads s ws → (∀ a ∈ l, ∀ s ws, Reads s ws → Reads (s ++ text a) (ws ++ words a)) →
    Reads (s ++ String.join (l.map text)) (ws ++ l.flatMap words)
  | [], s, ws, h, _ => by
    rw [List.map_nil, String.join_nil, String.append_empty, List.flatMap_nil, List.append_nil]
    exact h
  | a :: l, s, ws, h, hl => by
    rw [List.map_cons, String.join_cons, List.flatMap_cons, ← String.append_assoc, ← List.append_assoc]
    exact Reads.join (hl a (.head _) s ws h) fun b hb => hl b (.tail _ hb)

namespace Exit

def words : Exit → List String
  | ret ty value => "ret" :: ty.words ++ [value.text]
  | jump target => ["br", "label", labelWord target]
  | branch condition ifTrue ifFalse =>
    ["br", "i1", condition.text, "label", labelWord ifTrue, "label", labelWord ifFalse]
  | switch tag fallback targets => ["switch", "i32", tag.text, "label", labelWord fallback] ++
      targets.flatMap fun t => ["i32", t.1.index.repr, "label", labelWord t.2]

theorem words_ne_nil (x : Exit) : x.words ≠ [] := by cases x <;> simp [words]

theorem reads_text {x : Exit} (huses : ∀ u ∈ x.uses, u.1.Legible) (htypes : ∀ T ∈ x.types, T.Legible) :
    Reads x.text x.words := by
  cases x with
  | ret ty value =>
    have hvalue := reads_typed (htypes ty (by simp [types])) (huses (value, ty) (by simp [uses]))
    have hret : Parts "ret " ["ret"] := parts_of_run (by decide) (by decide)
    exact hret.then hvalue
  | jump target =>
    have hbr : Parts "br label " ["br", "label"] := parts_of_run (by decide) (by decide)
    have htext : (jump target).text = "br label " ++ labelWord target := by
      rw [← percent_labelText, ← String.append_assoc]
      rfl
    rw [htext]
    exact hbr.then (reads_labelWord target)
  | branch condition ifTrue ifFalse =>
    have hcondition := Operand.reads_text (huses (condition, .int 1) (by simp [uses]))
    have hbr : Parts "br i1 " ["br", "i1"] := parts_of_run (by decide) (by decide)
    exact ((hbr.then hcondition).label ifTrue).label ifFalse
  | switch tag fallback targets =>
    have htag := Operand.reads_text (huses (tag, .int 32) (by simp [uses]))
    have hswitch : Parts "switch i32 " ["switch", "i32"] := parts_of_run (by decide) (by decide)
    have hopen : Between " [" [] := by decide
    have hclose : Between " ]" [] := by decide
    have hcase : ∀ t ∈ targets, ∀ s ws, Reads s ws →
        Reads (s ++ (s!" i32 {t.1.index}, label %" ++ labelText t.2))
          (ws ++ ["i32", t.1.index.repr, "label", labelWord t.2]) := by
      intro t _ s ws h
      have hint : Between " i32 " ["i32"] := by decide
      have hsplit : s ++ (s!" i32 {t.1.index}, label %" ++ labelText t.2) =
          s ++ " i32 " ++ t.1.index.repr ++ ", label %" ++ labelText t.2 := by
        change s ++ (" i32 " ++ t.1.index.repr ++ ", label %" ++ labelText t.2) = _
        simp only [String.append_assoc]
      rw [hsplit]
      exact (((h.lit hint).then (reads_nat t.1.index)).label t.2).of_eq (by simp)
    have hall := ((((hswitch.then htag).label fallback).lit hopen).reads.join hcase).lit hclose
    exact hall.reads.of_eq (by simp [words])

end Exit

/-! ## (3) Lines -/

section Lines

variable {s s' : String} {ws : List String} {ls ls' : List Line}

theorem readsLines_empty : ReadsLines "" [] := by
  intro r _ _
  rw [List.append_nil]
  rfl

theorem ReadsLines.of_eq (h : ReadsLines s ls) (hs : s = s') (hl : ls = ls') : ReadsLines s' ls' := hs ▸ hl ▸ h

theorem ReadsLines.append (h : ReadsLines s ls) (h' : ReadsLines s' ls') : ReadsLines (s ++ s') (ls ++ ls') := by
  intro r hr hline
  rw [Reader.run_append, h r hr hline]
  refine (h' { r with lines := r.lines ++ ls } (hr.of_line _ _) hline).trans ?_
  simp

theorem readsLines_join {text : α → String} {lines : α → List Line} : ∀ {l : List α},
    (∀ a ∈ l, ReadsLines (text a) (lines a)) → ReadsLines (String.join (l.map text)) (l.flatMap lines)
  | [], _ => readsLines_empty
  | a :: l, h => by
    rw [List.map_cons, String.join_cons, List.flatMap_cons]
    exact (h a (.head _)).append (readsLines_join fun b hb => h b (.tail _ hb))

/-- A line, if it has words. -/
def lineOf (ws : List String) : List Line := if ws = [] then [] else [ws]

theorem Reader.run_newline {r : Reader} (h : r.mode ≠ .quoted) : r.run "\n" = r.endLine := by
  change r.step '\n' = r.endLine
  unfold Reader.step
  cases hmode : r.mode with
  | quoted => exact absurd hmode h
  | comment => rfl
  | code => rfl

theorem Reader.endLine_eq (r : Reader) : r.endLine = { lines := r.endWord.lines ++ lineOf r.endWord.line } := by
  unfold Reader.endLine lineOf
  by_cases h : r.endWord.line = [] <;> simp [h]

theorem Reads.line (h : Reads s ws) : ReadsLines (s ++ "\n") (lineOf ws) := by
  intro r hr hline
  obtain ⟨mode, word, line, lines⟩ := r
  obtain ⟨rfl, rfl⟩ := hr
  subst hline
  obtain ⟨hmode, hend⟩ := h { lines } ⟨rfl, rfl⟩
  rw [Reader.run_append, Reader.run_newline (by rw [hmode]; decide), Reader.endLine_eq, hend]
  rfl

/-- A line that ends with a comment. -/
theorem Reads.commented (h : Reads s ws) {note : String} (hnote : '\n' ∉ note.toList) :
    ReadsLines (s ++ ";" ++ note ++ "\n") (lineOf ws) := by
  intro r hr hline
  obtain ⟨mode, word, line, lines⟩ := r
  obtain ⟨rfl, rfl⟩ := hr
  subst hline
  obtain ⟨hmode, hend⟩ := h { lines } ⟨rfl, rfl⟩
  have hcomment : (Reader.run { lines } s).run ";" = { mode := .comment, line := ws, lines } := by
    change (Reader.run { lines } s).step ';' = _
    rw [Reader.step, hmode]
    simp [hend]
  rw [Reader.run_append, Reader.run_append, Reader.run_append, hcomment, Reader.run_comment rfl hnote,
    Reader.run_newline (by simp), Reader.endLine_eq]
  rfl

theorem parts_indent : Parts "    " [] := parts_of_run (by decide) (by decide)

theorem Reads.indented (h : Reads s ws) : ReadsLines (indented s) (lineOf ws) := (parts_indent.then h).line

end Lines

/-- The line of an instruction; a comment has none. -/
theorem Instr.readsLines (h : i.Legible) : ReadsLines (indented i.text) (lineOf i.words) := by
  cases hi : i.note? with
  | none => exact (reads_text h hi).indented
  | some note =>
    cases i with
    | comment text =>
      have hnote : '\n' ∉ (" " ++ text).toList := by simpa using h.note text rfl
      have hline := parts_indent.reads.commented hnote
      have hsplit : Target.indented (comment text).text = "    " ++ ";" ++ (" " ++ text) ++ "\n" := by
        change "    " ++ ("; " ++ text) ++ "\n" = _
        rw [show "; " = ";" ++ " " from rfl]
        simp only [String.append_assoc]
      rw [hsplit]
      exact hline
    | _ => cases hi

namespace Alloca

def words (a : Alloca) : List String := [a.slot.text, "=", "alloca"] ++ a.ty.words

structure Legible (a : Alloca) : Prop where
  slot : a.slot.Legible
  ty : a.ty.Legible
  note : ∀ note ∈ a.comment, '\n' ∉ note.toList

theorem readsLines {a : Alloca} (h : a.Legible) : ReadsLines (indented a.text) [a.words] := by
  have hop : Between " = alloca " ["=", "alloca"] := by decide
  have hreads := ((Operand.reads_text h.slot).lit hop).then (a.ty.reads_text h.ty)
  have hline : lineOf (a.slot.text :: "=" :: "alloca" :: a.ty.words) = [a.words] := rfl
  cases hc : a.comment with
  | none =>
    have htext : a.text = a.slot.text ++ " = alloca " ++ a.ty.text := by
      rw [text, hc]
      exact String.append_empty
    rw [htext, ← hline]
    exact hreads.indented
  | some note =>
    have hblank : Between " " [] := by decide
    have hnote : '\n' ∉ (" " ++ note).toList := by simpa using h.note note hc
    have hcommented := ((parts_indent.then hreads).lit hblank).reads.commented hnote
    have htext : a.text = a.slot.text ++ " = alloca " ++ a.ty.text ++ (" ; " ++ note) := by rw [text, hc]
    have hsplit : indented a.text =
        "    " ++ (a.slot.text ++ " = alloca " ++ a.ty.text) ++ " " ++ ";" ++ (" " ++ note) ++ "\n" := by
      rw [indented, htext, show " ; " = " " ++ ";" ++ " " from rfl]
      simp only [String.append_assoc]
    rw [hsplit, ← hline]
    rwa [List.append_nil] at hcommented

end Alloca

namespace CodeBlock

def lines (b : CodeBlock) : List Line :=
  ["bb" ++ b.label.index.repr ++ ":"] :: (b.code.flatMap fun i => lineOf i.words) ++ [b.exit.words]

structure Legible (b : CodeBlock) : Prop where
  code : ∀ i ∈ b.code, i.Legible
  uses : ∀ u ∈ b.exit.uses, u.1.Legible
  types : ∀ T ∈ b.exit.types, T.Legible

theorem reads_label (b : BlockId) : Reads ("bb" ++ b.index.repr ++ ":") ["bb" ++ b.index.repr ++ ":"] := by
  refine reads_word (by simp) ?_
  rw [String.toList_append, String.toList_append, List.all_append, List.all_append, all_isWordChar_repr]
  decide

theorem readsLines {b : CodeBlock} (h : b.Legible) : ReadsLines b.text b.lines := by
  have hcode : ReadsLines (String.join (b.code.map fun i => indented i.text)) (b.code.flatMap fun i => lineOf i.words) :=
    readsLines_join fun i hi => Instr.readsLines (h.code i hi)
  have hexit := (Exit.reads_text h.uses h.types).indented
  have hall := ((reads_empty.line.append (reads_label b.label).line).append hcode).append hexit
  refine hall.of_eq ?_ ?_
  · rw [String.empty_append]
    change _ = "\n" ++ ("bb" ++ b.label.index.repr) ++ ":\n" ++ _ ++ _
    rw [show ":\n" = ":" ++ "\n" from rfl]
    simp only [String.append_assoc]
  · simp [lines, lineOf, b.exit.words_ne_nil]

end CodeBlock

namespace FunCode

def header (result : CodeType) (name : String) (params : List CodeType) (inlineHint : Bool) : Line :=
  "define" :: result.words ++ [(Operand.global name).text] ++
    (params.zipIdx.flatMap fun p => p.1.words ++ [(Operand.arg p.2).text]) ++
    (if inlineHint then ["inlinehint"] else []) ++ ["\x7b"]

/-- The lines of a body. -/
def bodyLines (slots : List Alloca) (entry : BlockId) (blocks : List CodeBlock) : List Line :=
  ["entry:"] :: slots.map Alloca.words ++ [(Exit.jump entry).words] ++ blocks.flatMap CodeBlock.lines

def lines : FunCode → List Line
  | declare result name params => ["declare" :: result.words ++ [(Operand.global name).text] ++ params.flatMap CodeType.words]
  | define result name params inlineHint slots entry blocks =>
    header result name params inlineHint :: bodyLines slots entry blocks ++ [["\x7d"]]

structure Legible (f : FunCode) : Prop where
  name : Plain f.name
  types : f.type.Legible
  slots : ∀ a ∈ f.slots, a.Legible
  blocks : ∀ b ∈ f.blocks, b.Legible

section

variable (result : CodeType) (name : String) (params : List CodeType)

theorem reads_declare (hname : Plain name) (hresult : result.Legible) (hparams : ∀ p ∈ params, p.Legible) :
    Reads ("declare " ++ typed result (.global name) ++ "(" ++ ", ".intercalate (params.map CodeType.text) ++ ")")
      ("declare" :: result.words ++ [(Operand.global name).text] ++ params.flatMap CodeType.words) := by
  have hdeclare : Parts "declare " ["declare"] := parts_of_run (by decide) (by decide)
  have hopen : Between "(" [] := by decide
  have hclose : Between ")" [] := by decide
  have hfun := reads_typed (o := .global name) hresult fun _ he => Operand.global.inj he ▸ hname
  have hall := reads_intercalate params fun p hp => p.reads_text (hparams p hp)
  exact ((((hdeclare.then hfun).lit hopen).then hall).lit hclose).reads.of_eq (by simp)

theorem reads_header (inlineHint : Bool) (hname : Plain name) (hresult : result.Legible)
    (hparams : ∀ p ∈ params, p.Legible) :
    Reads ("define " ++ typed result (.global name) ++ "(" ++
        ", ".intercalate (params.zipIdx.map fun p => typed p.1 (.arg p.2)) ++ ")" ++
        (if inlineHint then " inlinehint" else "") ++ " \x7b") (header result name params inlineHint) := by
  have hdefine : Parts "define " ["define"] := parts_of_run (by decide) (by decide)
  have hopen : Between "(" [] := by decide
  have hclose : Between ")" [] := by decide
  have hfun := reads_typed (o := .global name) hresult fun _ he => Operand.global.inj he ▸ hname
  have hall : Reads (", ".intercalate (params.zipIdx.map fun p => typed p.1 (.arg p.2)))
      (params.zipIdx.flatMap fun p => p.1.words ++ [(Operand.arg p.2).text]) := by
    refine reads_intercalate _ fun p hp => reads_typed (hparams p.1 ?_) fun _ he => by cases he
    exact List.fst_mem_of_mem_zipIdx hp
  have hhint : Reads (if inlineHint then " inlinehint" else "") (if inlineHint then ["inlinehint"] else []) := by
    cases inlineHint with
    | true => exact reads_of_run (by decide) (by decide) (by decide)
    | false => exact reads_empty
  have hbrace : Reads " \x7b" ["\x7b"] := reads_of_run (by decide) (by decide) (by decide)
  have hsignature := (((hdefine.then hfun).lit hopen).then hall).lit hclose
  exact ((hsignature.then hhint).before hbrace (by decide)).of_eq (by simp [header])

end

theorem readsLines {f : FunCode} (h : f.Legible) : ReadsLines f.text f.lines := by
  have hname := h.name
  have hresult : f.result.Legible := fun name hname => h.types name (List.mem_append_left _ hname)
  have hparams : ∀ p ∈ f.params, p.Legible := by
    intro p hp name hname
    refine h.types name (List.mem_append_right _ ?_)
    rw [CodeType.namesOf_eq]
    exact List.mem_flatMap.mpr ⟨p, hp, hname⟩
  have hblank := reads_empty.line
  cases f with
  | declare result name params =>
    have hdeclare := reads_declare result name params hname hresult hparams
    refine (hdeclare.line.append hblank).of_eq ?_ ?_
    · change _ = "declare " ++ typed result (.global name) ++ "(" ++ _ ++ ")\n\n"
      rw [String.empty_append, show ")\n\n" = ")" ++ "\n" ++ "\n" from rfl]
      simp only [String.append_assoc]
    · simp [lines, lineOf]
  | define result name params inlineHint slots entry blocks =>
    have hheader := (reads_header result name params inlineHint hname hresult hparams).line
    have hentry : Reads "entry:" ["entry:"] := reads_word (by decide) (by decide)
    have hslots : ReadsLines (String.join (slots.map fun a => indented a.text)) (slots.flatMap fun a => [a.words]) :=
      readsLines_join fun a ha => Alloca.readsLines (h.slots a ha)
    have hjump := (Exit.reads_text (x := .jump entry) (List.forall_mem_nil _) (List.forall_mem_nil _)).indented
    have hblocks : ReadsLines (String.join (blocks.map CodeBlock.text)) (blocks.flatMap CodeBlock.lines) :=
      readsLines_join fun b hb => CodeBlock.readsLines (h.blocks b hb)
    have hclose : Reads "\x7d" ["\x7d"] := reads_word (by decide) (by decide)
    have hall := (((((hheader.append hentry.line).append hslots).append hjump).append hblocks).append hclose.line).append hblank
    refine hall.of_eq ?_ ?_
    · change _ = "define " ++ typed result (.global name) ++ "(" ++ _ ++ ")" ++ _ ++ " \x7b\nentry:\n" ++ _ ++ _ ++ _ ++
        "\x7d\n\n"
      rw [String.empty_append, show " \x7b\nentry:\n" = " \x7b" ++ "\n" ++ ("entry:" ++ "\n") from rfl,
        show "\x7d\n\n" = "\x7d" ++ "\n" ++ "\n" from rfl]
      simp only [String.append_assoc]
    · simp [lines, bodyLines, lineOf, header, Exit.words, List.map_eq_flatMap]

end FunCode

namespace ModuleCode

def lines (m : ModuleCode) : List Line :=
  [["source_filename", "=", "\"" ++ m.name ++ "\""]] ++
    (if m.triple.isEmpty then [] else [["target", "triple", "=", "\"" ++ m.triple ++ "\""]]) ++
    m.types.map (fun d => ["%\"" ++ d.1 ++ "\"", "=", "type"] ++ d.2.words) ++ m.funs.flatMap FunCode.lines

structure Legible (m : ModuleCode) : Prop where
  name : Plain m.name
  triple : Plain m.triple
  types : ∀ d ∈ m.types, Plain d.1 ∧ d.2.Legible
  funs : ∀ f ∈ m.funs, f.Legible

theorem readsLines_source (h : Plain name) :
    ReadsLines ("; ModuleID = '" ++ name ++ "'\nsource_filename = \"" ++ name ++ "\"\n")
      [["source_filename", "=", "\"" ++ name ++ "\""]] := by
  have hnote : '\n' ∉ (" ModuleID = '" ++ name ++ "'").toList := by simpa using h.2
  have hsource : Parts "source_filename = " ["source_filename", "="] := parts_of_run (by decide) (by decide)
  have hfile := (hsource.then (reads_quoted "" (by simp) h)).line
  refine ((reads_empty.commented hnote).append hfile).of_eq ?_ ?_
  · rw [String.empty_append, String.empty_append, show "; ModuleID = '" = ";" ++ " ModuleID = '" from rfl,
      show "'\nsource_filename = \"" = "'" ++ "\n" ++ "source_filename = " ++ "\"" from rfl,
      show "\"\n" = "\"" ++ "\n" from rfl]
    simp only [String.append_assoc]
  · simp [lineOf]

theorem readsLines_triple {triple : String} (h : Plain triple) :
    ReadsLines (if triple.isEmpty then "" else "target triple = \"" ++ triple ++ "\"\n")
      (if triple.isEmpty then [] else [["target", "triple", "=", "\"" ++ triple ++ "\""]]) := by
  split
  · exact readsLines_empty
  · have htarget : Parts "target triple = " ["target", "triple", "="] := parts_of_run (by decide) (by decide)
    refine (htarget.then (reads_quoted "" (by simp) h)).line.of_eq ?_ ?_
    · rw [String.empty_append, show "target triple = \"" = "target triple = " ++ "\"" from rfl,
        show "\"\n" = "\"" ++ "\n" from rfl]
      simp only [String.append_assoc]
    · simp [lineOf]

theorem readsLines_typeDef {d : String × CodeType} (hname : Plain d.1) (hty : d.2.Legible) :
    ReadsLines ((CodeType.named d.1).text ++ " = type " ++ d.2.text ++ "\n")
      [["%\"" ++ d.1 ++ "\"", "=", "type"] ++ d.2.words] := by
  have hop : Between " = type " ["=", "type"] := by decide
  have hleft : Reads (CodeType.named d.1).text (CodeType.named d.1).words :=
    CodeType.reads_text _ fun n hn => List.mem_singleton.mp hn ▸ hname
  exact ((hleft.lit hop).then (d.2.reads_text hty)).line.of_eq rfl (by simp [lineOf, CodeType.words])

theorem textLines_text {m : ModuleCode} (h : m.Legible) : textLines m.text = m.lines := by
  have htypes : ReadsLines (String.join (m.types.map fun d => (CodeType.named d.1).text ++ " = type " ++ d.2.text ++ "\n"))
      (m.types.flatMap fun d => [["%\"" ++ d.1 ++ "\"", "=", "type"] ++ d.2.words]) :=
    readsLines_join fun d hd => readsLines_typeDef (h.types d hd).1 (h.types d hd).2
  have hgap : ReadsLines (if m.types.isEmpty then "" else "\n") [] := by
    split
    · exact readsLines_empty
    · exact reads_empty.line.of_eq String.empty_append rfl
  have hfuns : ReadsLines (String.join (m.funs.map FunCode.text)) (m.funs.flatMap FunCode.lines) :=
    readsLines_join fun f hf => FunCode.readsLines (h.funs f hf)
  have hblank : ReadsLines "\n" [] := reads_empty.line.of_eq String.empty_append rfl
  have hall := (((((readsLines_source h.name).append (readsLines_triple h.triple)).append hblank).append htypes).append
    hgap).append hfuns
  have hrun : Reader.run {} m.text = { lines := m.lines } := by
    refine (hall {} ⟨rfl, rfl⟩ rfl).trans ?_
    simp [lines, List.map_eq_flatMap]
  rw [textLines, hrun]
  rfl

end ModuleCode

end BlockCompiler.Target
