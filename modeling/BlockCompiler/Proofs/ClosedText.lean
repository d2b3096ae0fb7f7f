/-
  BlockCompiler.Proofs.ClosedText — texts in which every name that is used is defined.

  (1) What a closed text is (`ClosedText`): its bodies are closed (`ClosedBody`), and its
      functions and types are declared once.
  (2) What is read as a function is one (`definedFuns_lines`), and it is declared in its first line
      only (`FunCode.countP_declaresFun`).
  (3) All functions and types in the lines of closed code are declared
      (`ModuleCode.declared_of_mem_lines`), so that its text is closed (`ModuleCode.closedText`).
  (4) The text of a lowered module is closed (`generate_closed`).
-/
import BlockCompiler.Proofs.ClosedBody
import BlockCompiler.Proofs.GeneratedCode

namespace BlockCompiler.Target

open List (countP_append mem_append mem_cons mem_flatMap mem_map mem_singleton not_mem_nil)
open Operand (bare_text not_bare take_text)

variable {f : FunCode} {name w : String} {l : Line} {slots : List Alloca} {code : List Instr} {S : Scene}

/-! ## (1) Closed texts -/

def definesType (name : String) (line : Line) : Bool := line.take 3 = [name, "=", "type"]

/-- The line declares or starts to define the function of this name. -/
def declaresFun (name : String) (line : Line) : Bool :=
  (line.head? = some "define" ∨ line.head? = some "declare") ∧ name ∈ line

/-- The functions that are defined, each with its first line and those of its body. -/
def definedFuns : List Line → List (Line × List Line)
  | [] => []
  | line :: rest =>
    if line.head? = some "define" then (line, rest.takeWhile (· ≠ ["\x7d"])) :: definedFuns rest else definedFuns rest

/-- The bodies of functions are closed, and every function and type that is mentioned is declared
or defined in one line. -/
structure ClosedText (text : String) : Prop where
  bodies : ∀ d ∈ definedFuns (textLines text), ClosedBody d.1 d.2
  funs : ∀ line ∈ textLines text, ∀ w ∈ line, w.toList.head? = some '@' →
    (textLines text).countP (declaresFun w) = 1
  types : ∀ line ∈ textLines text, ∀ w ∈ line, w.toList.take 2 = ['%', '"'] →
    (textLines text).countP (definesType w) = 1

/-! ## (2) Functions -/

/-- Where the words of the first line of a function come from. -/
abbrev HeaderWord (f : FunCode) : String → Prop :=
  Word (· ∈ f.type.names) (fun o => o = .global f.name ∨ ∃ n, o = .arg n) (fun _ => False)

section HeaderWord

variable {f : FunCode} {w : String} {result : CodeType} {params : List CodeType}

theorem headerWord_result (h : w ∈ f.result.words) : HeaderWord f w :=
  f.result.word (fun _ hname => List.mem_append_left _ hname) w h

theorem headerWord_param {ty : CodeType} (hty : ty ∈ f.params) (h : w ∈ ty.words) : HeaderWord f w := by
  refine ty.word (fun name hname => List.mem_append_right _ ?_) w h
  rw [CodeType.namesOf_eq]
  exact mem_flatMap.mpr ⟨ty, hty, hname⟩

theorem headerWord_of_mem_declare
    (h : w ∈ "declare" :: result.words ++ [(Operand.global name).text] ++ params.flatMap CodeType.words) :
    HeaderWord (.declare result name params) w := by
  simp only [mem_append, mem_cons, not_mem_nil, or_false, mem_flatMap] at h
  rcases h with ((rfl | h) | h) | ⟨ty, hty, h⟩
  · exact .bare (by decide)
  · exact headerWord_result h
  · exact .operand (.inl rfl) h
  · exact headerWord_param hty h

theorem headerWord_of_mem_header {inlineHint : Bool} {entry : BlockId} {blocks : List CodeBlock}
    (h : w ∈ FunCode.header result name params inlineHint) :
    HeaderWord (.define result name params inlineHint slots entry blocks) w := by
  simp only [FunCode.header, mem_append, mem_cons, not_mem_nil, or_false, mem_flatMap] at h
  rcases h with ((((rfl | h) | h) | ⟨p, hp, h | h⟩) | h) | rfl
  · exact .bare (by decide)
  · exact headerWord_result h
  · exact .operand (.inl rfl) h
  · exact headerWord_param (List.fst_mem_of_mem_zipIdx hp) h
  · exact .operand (.inr ⟨_, rfl⟩) h
  · cases inlineHint with
    | true => exact .bare (mem_singleton.mp h ▸ by decide)
    | false => cases h
  · exact .bare (by decide)

/-- The only function in the first line is the one that it declares. -/
theorem eq_name_of_headerWord (h : HeaderWord f (Operand.global name).text) : f.name = name := by
  rcases h.of_text rfl with h | ⟨n, h⟩
  · exact (Operand.global.inj h).symm
  · cases h

end HeaderWord

/-- The words that start the first or the last line of a function. -/
def framing : List String := ["define", "declare", "\x7d"]

theorem bare_of_mem_framing (h : w ∈ framing) : Bare w := by
  revert w
  decide

/-- No line of a body starts or ends a function. -/
theorem BodyLine.head?_not_mem (hl : BodyLine f l) (h : f.Closed S) : ∀ w ∈ l.head?, w ∉ framing := by
  intro w hw hmem
  have hbare := bare_of_mem_framing hmem
  cases hl with
  | entry =>
    obtain rfl := Option.some.inj hw
    revert hmem
    decide
  | @slot a ha =>
    obtain ⟨o, ho, -, he⟩ := (BodyLine.slot ha).exists_local h (w := a.slot.text) rfl
    exact not_bare ho (he ▸ Option.some.inj hw ▸ hbare)
  | jump _ => cases hw; revert hmem; decide
  | @label b hb =>
    obtain rfl := Option.some.inj hw
    have hhead : ("bb" ++ b.label.index.repr ++ ":").toList.head? = some 'b' := by simp
    have hother : ∀ w ∈ framing, w.toList.head? ≠ some 'b' := by decide
    exact hother _ hmem hhead
  | @instr b i hb hi hne =>
    cases hresult : i.result? with
    | some o =>
      obtain ⟨n, rfl⟩ := (h.blocks b hb).results i hi o hresult
      rw [Instr.words, hresult] at hw
      exact not_bare (o := .temp n) rfl (Option.some.inj hw ▸ hbare)
    | none =>
      cases i with
      | store ty value address => cases hw; revert hmem; decide
      | comment text => exact hne rfl
      | _ => cases hresult
  | @exit b hb =>
    cases hexit : b.exit <;> rw [hexit] at hw <;> cases hw <;> revert hmem <;> decide

theorem definedFuns_append {xs ys : List Line} (h : ∀ l ∈ xs, l.head? ≠ some "define") :
    definedFuns (xs ++ ys) = definedFuns ys := by
  induction xs with
  | nil => rfl
  | cons l xs ih =>
    rw [List.cons_append, definedFuns, if_neg (h l (.head _))]
    exact ih fun l' hl' => h l' (.tail _ hl')

/-- The first line of a function with a body, and those of the body. -/
def FunCode.defined? : FunCode → Option (Line × List Line)
  | declare _ _ _ => none
  | define result name params inlineHint slots entry blocks =>
    some (header result name params inlineHint, bodyLines slots entry blocks)

/-- What is read as a function with a body is one. -/
theorem definedFuns_lines {S : FunCode → Scene} {funs : List FunCode} (h : ∀ f ∈ funs, f.Closed (S f)) :
    definedFuns (funs.flatMap FunCode.lines) = funs.filterMap FunCode.defined? := by
  induction funs with
  | nil => rfl
  | cons f funs ih =>
    have hrest := ih fun f' hf' => h f' (.tail f hf')
    rw [List.flatMap_cons]
    cases f with
    | declare result name params =>
      have hnone : ∀ l ∈ (FunCode.declare result name params).lines, l.head? ≠ some "define" := by
        simp [FunCode.lines]
      rw [definedFuns_append hnone, hrest]
      rfl
    | define result name params inlineHint slots entry blocks =>
      have hclosed := h _ (.head _)
      have hbody : ∀ l ∈ FunCode.bodyLines slots entry blocks, ∀ w ∈ l.head?, w ∉ framing :=
        fun l hl => (bodyLine_of_mem hl).head?_not_mem hclosed
      have hfirst : (FunCode.header result name params inlineHint).head? = some "define" := rfl
      have hlines : FunCode.lines (.define result name params inlineHint slots entry blocks) ++ funs.flatMap FunCode.lines =
          FunCode.header result name params inlineHint ::
            ((FunCode.bodyLines slots entry blocks ++ [["\x7d"]]) ++ funs.flatMap FunCode.lines) := rfl
      have hopen : ∀ l ∈ FunCode.bodyLines slots entry blocks, decide (l ≠ ["\x7d"]) = true := fun l hl =>
        decide_eq_true fun he => hbody l hl "\x7d" (he ▸ rfl) (by decide)
      have hnone : ∀ l ∈ FunCode.bodyLines slots entry blocks ++ [["\x7d"]], l.head? ≠ some "define" :=
        List.forall_mem_append.mpr ⟨fun l hl he => hbody l hl "define" he (by decide), by decide⟩
      rw [hlines, definedFuns, if_pos hfirst, definedFuns_append hnone, hrest, List.append_assoc,
        List.takeWhile_append_of_pos hopen, List.singleton_append, List.takeWhile_cons_of_neg (by simp), List.append_nil]
      rfl

theorem not_declaresFun (h : ∀ w ∈ l.head?, w ∉ framing) (word : String) : ¬ declaresFun word l = true := fun hdecl =>
  (of_decide_eq_true hdecl).1.elim (h _ · (by decide)) (h _ · (by decide))

/-- How often a function is declared in the lines of one. -/
theorem FunCode.countP_declaresFun (h : f.Closed S) (name : String) :
    f.lines.countP (declaresFun (Operand.global name).text) = if f.name = name then 1 else 0 := by
  cases f with
  | declare result fname params =>
    have hfirst : declaresFun (Operand.global name).text
        ("declare" :: result.words ++ [(Operand.global fname).text] ++ params.flatMap CodeType.words) =
          decide (fname = name) := by
      refine decide_eq_decide.mpr ⟨fun hdecl => eq_name_of_headerWord (headerWord_of_mem_declare hdecl.2), fun he => ⟨.inr rfl, ?_⟩⟩
      rw [he]
      simp
    rw [FunCode.lines, List.countP_singleton, hfirst]
    by_cases he : fname = name <;> simp [FunCode.name, he]
  | define result fname params inlineHint slots entry blocks =>
    have hfirst : declaresFun (Operand.global name).text (FunCode.header result fname params inlineHint) =
        decide (fname = name) := by
      refine decide_eq_decide.mpr ⟨fun hdecl => ?_, fun he => ⟨.inl rfl, ?_⟩⟩
      · have hword : HeaderWord (.define result fname params inlineHint slots entry blocks) (Operand.global name).text :=
          headerWord_of_mem_header hdecl.2
        exact eq_name_of_headerWord hword
      · rw [he]
        simp [FunCode.header]
    have hbody : ∀ l ∈ FunCode.bodyLines slots entry blocks ++ [["\x7d"]],
        ¬ declaresFun (Operand.global name).text l = true := by
      refine List.forall_mem_append.mpr ⟨fun l hl => ?_, by simp [declaresFun]⟩
      exact not_declaresFun ((bodyLine_of_mem hl).head?_not_mem h) _
    rw [FunCode.lines, List.cons_append, List.countP_cons, List.countP_eq_zero.mpr hbody, hfirst]
    by_cases he : fname = name <;> simp [FunCode.name, he]

theorem Bare.ne_typeWord (h : Bare w) (name : String) : w ≠ typeWord name := fun he =>
  h.1 (he ▸ head?_of_take (take_typeWord name))

/-- The lines of a function define no type. -/
theorem FunCode.not_definesType (h : f.Closed S) (name : String) :
    ∀ l ∈ f.lines, ¬ definesType (typeWord name) l = true := by
  intro l hl hdef
  have htake : l.take 3 = [typeWord name, "=", "type"] := of_decide_eq_true hdef
  have hdefined := definedBy_of_take htake
  have hhead : l.head? = some (typeWord name) := head?_of_take htake
  cases f with
  | declare result fname params =>
    rw [mem_singleton.mp hl] at hhead
    exact Bare.ne_typeWord (w := "declare") (by decide) name (Option.some.inj hhead)
  | define result fname params inlineHint slots entry blocks =>
    rcases mem_append.mp hl with hl | hl
    · rcases mem_cons.mp hl with rfl | hl
      · exact Bare.ne_typeWord (w := "define") (by decide) name (Option.some.inj hhead)
      · obtain ⟨o, ho, -, he⟩ := (bodyLine_of_mem hl).exists_local h hdefined
        exact Operand.text_ne_typeWord ho name he.symm
    · rw [mem_singleton.mp hl] at hhead
      exact Bare.ne_typeWord (w := "\x7d") (by decide) name (Option.some.inj hhead)

/-! ## (3) Modules -/

/-- If the word names a function or a type, then the module declares it. -/
structure Declared (m : ModuleCode) (w : String) : Prop where
  funs : w.toList.head? = some '@' → ∃ name ∈ m.funs.map (·.name), w = (Operand.global name).text
  types : w.toList.take 2 = ['%', '"'] → ∃ name ∈ m.types.map (·.1), w = typeWord name

section Declared

variable {m : ModuleCode} {w : String}

theorem Bare.declared (h : Bare w) : Declared m w :=
  ⟨fun hat => absurd hat h.2.1, fun htake => absurd (head?_of_take htake) h.1⟩

theorem declared_type (h : name ∈ m.types.map (·.1)) : Declared m (typeWord name) := by
  refine ⟨fun hat => ?_, fun _ => ⟨name, h, rfl⟩⟩
  cases (head?_of_take (take_typeWord name)).symm.trans hat

/-- Locals and labels. -/
theorem declared_of_take {c : Char} (h : w.toList.take 2 = ['%', c]) (hc : c ≠ '"') : Declared m w := by
  refine ⟨fun hat => ?_, fun htake => ?_⟩
  · cases (head?_of_take h).symm.trans hat
  · cases h.symm.trans htake
    exact absurd rfl hc

theorem declared_equals : Declared m "=" := ⟨fun h => absurd h (by decide), fun h => absurd h (by decide)⟩

theorem declared_fun (h : name ∈ m.funs.map (·.name)) : Declared m (Operand.global name).text := by
  refine ⟨fun _ => ⟨name, h, rfl⟩, fun htake => ?_⟩
  cases (take_text rfl).symm.trans htake

theorem declared_operand {o : Operand} (h : ∀ name, o = .global name → name ∈ m.funs.map (·.name)) : Declared m o.text := by
  cases o with
  | global name => exact declared_fun (h name rfl)
  | temp | slot | spill | arg => exact declared_of_take (take_text rfl) (by decide)
  | _ => exact Bare.declared (bare_text rfl)

theorem mem_funs_of_known (h : (Operand.global name).Known (m.scene f) slots code) : name ∈ m.funs.map (·.name) := by
  change name ∈ (m.funs.map fun f => (f.name, f.type)).map (·.1) at h
  rw [List.map_map] at h
  exact h

theorem Word.declared {T : String → Prop} {U : Operand → Prop} {B : BlockId → Prop} (h : Word T U B w)
    (hT : ∀ name, T name → name ∈ m.types.map (·.1)) (hU : ∀ name, U (.global name) → name ∈ m.funs.map (·.name)) :
    Declared m w := by
  cases h with
  | bare hb => exact hb.declared
  | type hname he => exact he ▸ declared_type (hT _ hname)
  | label _ he => exact declared_of_take (he ▸ take_labelWord _) (by decide)
  | operand ho he => exact he ▸ declared_operand fun name h => hU name (h ▸ ho)

theorem declared_of_headerWord (h : HeaderWord f w) (hf : f ∈ m.funs) (htype : (m.scene f).Declares f.type) :
    Declared m w := by
  refine h.declared htype fun name hname => ?_
  rcases hname with hname | ⟨n, hn⟩
  · exact Operand.global.inj hname ▸ List.mem_map_of_mem hf
  · cases hn

theorem FunCode.declared_of_mem_lines (hf : f ∈ m.funs) (h : f.Closed (m.scene f)) (hl : l ∈ f.lines) (hw : w ∈ l) :
    Declared m w := by
  cases f with
  | declare result name params =>
    rw [mem_singleton.mp hl] at hw
    exact declared_of_headerWord (headerWord_of_mem_declare hw) hf h.type
  | define result name params inlineHint slots entry blocks =>
    rcases mem_append.mp hl with hl | hl
    · rcases mem_cons.mp hl with rfl | hl
      · exact declared_of_headerWord (headerWord_of_mem_header hw) hf h.type
      · have hline : BodyLine (.define result name params inlineHint slots entry blocks) l := bodyLine_of_mem hl
        rcases mem_usedBy_or_definedBy hw with hused | hdefined | rfl
        · refine (hline.resolves h hused).declared (fun _ hname => hname) fun name hname => ?_
          obtain ⟨code, hknown⟩ := hname
          exact mem_funs_of_known hknown
        · obtain ⟨o, ho, hsigil, rfl⟩ := hline.exists_local h hdefined
          refine declared_operand fun name he => ?_
          rw [he] at hsigil
          cases hsigil
        · exact declared_equals
    · rw [mem_singleton.mp hl] at hw
      rw [mem_singleton.mp hw]
      exact Bare.declared (by decide)

end Declared

namespace ModuleCode

variable {m : ModuleCode}

/-- The lines before those of the functions. -/
inductive TopLine (m : ModuleCode) : Line → Prop
  | source : TopLine m ["source_filename", "=", "\"" ++ m.name ++ "\""]
  | triple : TopLine m ["target", "triple", "=", "\"" ++ m.triple ++ "\""]
  | type {d : String × CodeType} : d ∈ m.types → TopLine m ([typeWord d.1, "=", "type"] ++ d.2.words)

def topLines (m : ModuleCode) : List Line :=
  [["source_filename", "=", "\"" ++ m.name ++ "\""]] ++
    (if m.triple.isEmpty then [] else [["target", "triple", "=", "\"" ++ m.triple ++ "\""]]) ++
    m.types.map fun d => [typeWord d.1, "=", "type"] ++ d.2.words

theorem lines_eq (m : ModuleCode) : m.lines = m.topLines ++ m.funs.flatMap FunCode.lines := rfl

theorem topLine_of_mem (h : l ∈ m.topLines) : m.TopLine l := by
  rcases mem_append.mp h with h | h
  · rcases mem_append.mp h with h | h
    · exact mem_singleton.mp h ▸ .source
    · split at h
      · cases h
      · exact mem_singleton.mp h ▸ .triple
  · obtain ⟨d, hd, rfl⟩ := mem_map.mp h
    exact .type hd

theorem TopLine.head?_not_mem (hl : m.TopLine l) : ∀ w ∈ l.head?, w ∉ framing := by
  intro w hw hmem
  cases hl with
  | source | triple => cases hw; revert hmem; decide
  | type hd =>
    obtain rfl := Option.some.inj hw
    exact (bare_of_mem_framing hmem).1 (head?_of_take (take_typeWord _))

theorem TopLine.declared (hl : m.TopLine l) (h : m.Closed) (hw : w ∈ l) : Declared m w := by
  have hquote : ∀ text : String, Bare ("\"" ++ text ++ "\"") := fun text => bare_of_head? (c := '"') (by simp) (by decide)
  cases hl with
  | source =>
    simp only [mem_cons, not_mem_nil, or_false] at hw
    rcases hw with rfl | rfl | rfl
    exacts [Bare.declared (by decide), declared_equals, (hquote _).declared]
  | triple =>
    simp only [mem_cons, not_mem_nil, or_false] at hw
    rcases hw with rfl | rfl | rfl | rfl
    exacts [Bare.declared (by decide), Bare.declared (by decide), declared_equals, (hquote _).declared]
  | @type d hd =>
    simp only [mem_append, mem_cons, not_mem_nil, or_false] at hw
    rcases hw with (rfl | rfl | rfl) | hw
    · exact declared_type (List.mem_map_of_mem hd)
    · exact declared_equals
    · exact Bare.declared (by decide)
    · have hword : Word (· ∈ m.types.map (·.1)) (fun _ => False) (fun _ => False) w := d.2.word (h.types d hd) w hw
      exact hword.declared (fun _ hname => hname) fun _ => False.elim

theorem declared_of_mem_lines (h : m.Closed) (hl : l ∈ m.lines) (hw : w ∈ l) : Declared m w := by
  rcases mem_append.mp (m.lines_eq ▸ hl) with hl | hl
  · exact (topLine_of_mem hl).declared h hw
  · obtain ⟨f, hf, hl⟩ := mem_flatMap.mp hl
    exact FunCode.declared_of_mem_lines hf (h.funs f hf) hl hw

theorem countP_declaresFun (h : m.Closed) (name : String) :
    m.lines.countP (declaresFun (Operand.global name).text) = (m.funs.map (·.name)).count name := by
  have htop : ∀ l ∈ m.topLines, ¬ declaresFun (Operand.global name).text l = true := fun l hl =>
    not_declaresFun (topLine_of_mem hl).head?_not_mem _
  have hfuns : ∀ funs : List FunCode, (∀ f ∈ funs, f.Closed (m.scene f)) →
      (funs.flatMap FunCode.lines).countP (declaresFun (Operand.global name).text) = (funs.map (·.name)).count name := by
    intro funs hclosed
    induction funs with
    | nil => rfl
    | cons f funs ih =>
      rw [List.flatMap_cons, countP_append, FunCode.countP_declaresFun (hclosed f (.head _)),
        ih fun f' hf' => hclosed f' (.tail _ hf'), List.map_cons, List.count_cons, Nat.add_comm]
      simp
  rw [lines_eq, countP_append, List.countP_eq_zero.mpr htop, hfuns m.funs h.funs, Nat.zero_add]

theorem countP_definesType (h : m.Closed) (name : String) :
    m.lines.countP (definesType (typeWord name)) = (m.types.map (·.1)).count name := by
  have hother : ∀ l ∈ [["source_filename", "=", "\"" ++ m.name ++ "\""]] ++
      (if m.triple.isEmpty then [] else [["target", "triple", "=", "\"" ++ m.triple ++ "\""]]),
      ¬ definesType (typeWord name) l = true := by
    have hsource := Bare.ne_typeWord (w := "source_filename") (by decide) name
    have htarget := Bare.ne_typeWord (w := "target") (by decide) name
    split <;> simp [definesType, hsource, htarget]
  have htypes : (m.types.map fun d => [typeWord d.1, "=", "type"] ++ d.2.words).countP (definesType (typeWord name)) =
      (m.types.map (·.1)).count name := by
    rw [List.count, List.countP_map, List.countP_map]
    refine List.countP_congr fun d _ => ?_
    rw [Function.comp_apply, Function.comp_apply, beq_iff_eq]
    constructor
    · intro hdef
      have htake : ([typeWord d.1, "=", "type"] ++ d.2.words).take 3 = [typeWord name, "=", "type"] := of_decide_eq_true hdef
      exact typeWord_inj (List.cons.inj htake).1
    · intro he
      rw [he]
      exact decide_eq_true rfl
  have hfuns : ∀ l ∈ m.funs.flatMap FunCode.lines, ¬ definesType (typeWord name) l = true :=
    List.forall_mem_flatMap.mpr fun f hf => FunCode.not_definesType (h.funs f hf) name
  rw [lines_eq, topLines, countP_append, countP_append, List.countP_eq_zero.mpr hother, htypes,
    List.countP_eq_zero.mpr hfuns, Nat.zero_add, Nat.add_zero]

/-! ### Names -/

section

variable (h : m.Named Plain)
include h

theorem legible_type {T : CodeType} (hT : (m.scene f).Declares T) : T.Legible := by
  intro name hname
  obtain ⟨d, hd, rfl⟩ := mem_map.mp (hT name hname)
  exact h.types d hd

theorem legible_operand {o : Operand} (ho : o.Known (m.scene f) slots code) : o.Legible := by
  rintro name rfl
  obtain ⟨f, hf, rfl⟩ := mem_map.mp (mem_funs_of_known ho)
  exact h.funs f hf

theorem legible_note (hf : f ∈ m.funs) {note : String} (hnote : note ∈ f.notes) : '\n' ∉ note.toList := by
  obtain ⟨x, hx, rfl | rfl⟩ := h.notes f hf note hnote
  · exact hx.2
  · simpa using hx.2

theorem legible_instr (hf : f ∈ m.funs) {b : CodeBlock} (hb : b ∈ f.blocks) (hclosed : b.Closed (m.scene f) f.slots)
    {i : Instr} (hi : i ∈ b.code) : i.Legible := by
  obtain ⟨k, hk⟩ := List.getElem?_of_mem hi
  obtain ⟨huses, htypes⟩ := hclosed.code k i hk
  refine ⟨fun u hu => legible_operand h (huses u hu), fun T hT => legible_type h (htypes T hT), ?_, ?_⟩
  · intro o ho name he
    obtain ⟨n, rfl⟩ := hclosed.results i hi o ho
    cases he
  · intro note he
    refine legible_note h hf (List.mem_append_right _ ?_)
    exact mem_flatMap.mpr ⟨b, hb, List.mem_filterMap.mpr ⟨i, hi, by rw [he]; rfl⟩⟩

theorem legible_fun (hf : f ∈ m.funs) (hclosed : f.Closed (m.scene f)) : f.Legible where
  name := h.funs f hf
  types := legible_type h hclosed.type
  slots := by
    intro a ha
    refine ⟨fun name he => ?_, legible_type h (hclosed.slots a ha).2, fun note hnote => ?_⟩
    · rcases (hclosed.slots a ha).1 with ⟨_, ha⟩ | ⟨_, ha⟩ <;> cases ha.symm.trans he
    · exact legible_note h hf (List.mem_append_left _ (List.mem_filterMap.mpr ⟨a, ha, hnote⟩))
  blocks := by
    intro b hb
    have hblock := hclosed.blocks b hb
    exact ⟨fun i hi => legible_instr h hf hb hblock hi, fun u hu => legible_operand h (hblock.exit u hu),
      fun T hT => legible_type h (hblock.types T hT)⟩

end

theorem legible (h : m.Closed) (hnamed : m.Named Plain) (hname : Plain m.name) (htriple : Plain m.triple) : m.Legible where
  name := hname
  triple := htriple
  types := by
    intro d hd
    refine ⟨hnamed.types d hd, fun name hmem => ?_⟩
    obtain ⟨d', hd', rfl⟩ := mem_map.mp (h.types d hd name hmem)
    exact hnamed.types d' hd'
  funs := fun f hf => legible_fun hnamed hf (h.funs f hf)

/-- Closed code that defines nothing twice is written as a closed text. -/
theorem closedText (h : m.Closed) (hdistinct : m.Distinct) (hlegible : m.Legible) : ClosedText m.text where
  bodies := by
    intro d hd
    have htop : ∀ l ∈ m.topLines, l.head? ≠ some "define" :=
      fun l hl he => (topLine_of_mem hl).head?_not_mem _ he (by decide)
    rw [textLines_text hlegible, lines_eq, definedFuns_append htop, definedFuns_lines h.funs] at hd
    obtain ⟨f, hf, hd⟩ := List.mem_filterMap.mp hd
    cases f with
    | declare => cases hd
    | define =>
      cases hd
      exact closedBody (h.funs _ hf) rfl (hdistinct.locals _ hf) (hdistinct.labels _ hf)
  funs := by
    intro l hl w hw hat
    rw [textLines_text hlegible] at hl ⊢
    obtain ⟨name, hname, rfl⟩ := (declared_of_mem_lines h hl hw).funs hat
    rw [countP_declaresFun h]
    exact List.count_eq_one_of_mem hdistinct.funs hname
  types := by
    intro l hl w hw htake
    rw [textLines_text hlegible] at hl ⊢
    obtain ⟨name, hname, rfl⟩ := (declared_of_mem_lines h hl hw).types htake
    rw [countP_definesType h]
    exact List.count_eq_one_of_mem hdistinct.types hname

end ModuleCode

end BlockCompiler.Target

namespace BlockCompiler.Lowering

open Surface (Module)
open Target

/-! ## (4) Lowered modules -/

/-- If no name in a module has a quote or a line break in it, then its text is closed, and every
function of the module is declared in it once. -/
theorem generate_closed {cfg : Settings} {m : Module} {journal : Log.Journal} {fns : List FunId} {s' : State}
    (h : lowerModule cfg m { journal } = .ok (.ok fns) s') (hplain : ∀ n ∈ moduleBinders m, Plain n) (g : Generator)
    {name : String} (hname : Plain name) (htriple : Plain g.triple) :
    ∃ text, g.generate s'.context name = (.ok text, g) ∧ ClosedText text ∧
      ∀ fn f, s'.context.funs.get? fn = some f → (textLines text).countP (declaresFun ("@\"" ++ f.name ++ "\"")) = 1 := by
  have hreserved : ∀ n ∈ reservedNames, Plain n := by decide
  obtain ⟨code, hrun, rfl, hcodeTriple, hclosed, hdistinct, hnamed, hfuns, -⟩ :=
    exists_code_of_lowerModule h hreserved hplain g name
  have hlegible := ModuleCode.legible hclosed hnamed hname (hcodeTriple ▸ htriple)
  refine ⟨code.text, Generator.generate_of_code hrun, ModuleCode.closedText hclosed hdistinct hlegible, ?_⟩
  intro fn f hf
  rw [ModuleCode.textLines_text hlegible]
  exact (ModuleCode.countP_declaresFun hclosed f.name).trans (List.count_eq_one_of_mem hdistinct.funs (hfuns fn f hf))

theorem visitor_generate_closed : ∃ fns s', lowerModule {} visitorModule {} = .ok (.ok fns) s' ∧
    (∀ n ∈ moduleBinders visitorModule, Plain n) ∧ 0 < s'.context.funs.size ∧
    ∃ text, Generator.generate {} s'.context "visitor" = (.ok text, {}) ∧ ClosedText text ∧
      ∀ fn f, s'.context.funs.get? fn = some f → (textLines text).countP (declaresFun ("@\"" ++ f.name ++ "\"")) = 1 := by
  have hrun : lowersTo visitorModule fun s => 0 < s.funs.size := by decide +kernel
  obtain ⟨fns, s', h, htest⟩ := exists_of_lowersTo hrun
  have hplain : ∀ n ∈ moduleBinders visitorModule, Plain n := by decide +kernel
  exact ⟨fns, s', h, hplain, of_decide_eq_true htest, generate_closed h hplain {} (by decide) (by decide)⟩

end BlockCompiler.Lowering
