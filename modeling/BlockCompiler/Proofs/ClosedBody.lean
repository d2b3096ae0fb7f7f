/-
  BlockCompiler.Proofs.ClosedBody — bodies in which every name that is used is defined.

  `%tN` is a temporary, `%varN` and `%spillN` are slots, `%argN` is a parameter, `%bbN` is a
  block, `@"f"` is a function and `%"T"` is a type.

  (1) What a closed body is (`ClosedBody`), said of its lines and words only.
  (2) Different things have different names (`Operand.text_inj`), and what a line uses is what
      its instruction or exit uses (`Instr.refers_rest`, `Exit.refers_words`).
  (3) The code of a function is written with a closed body (`closedBody`).
-/
import Mathlib
import BlockCompiler.Proofs.TargetText
import BlockCompiler.Proofs.Ways

namespace BlockCompiler.Target

open List (append_assoc append_nil cons_append countP_append count_append count_cons count_eq_zero filterMap_append
  filterMap_cons_none flatMap_cons forall_mem_append forall_mem_cons forall_mem_nil forall_mem_singleton length_append
  length_cons map_map mem_append mem_append_left mem_append_right mem_cons mem_filterMap mem_flatMap mem_map
  mem_map_of_mem mem_reverse nil_append)

variable {o : Operand} {l : Line} {w : String} {b : BlockId} {f : FunCode} {n : Nat} {S : Scene} {before : List Line}

/-! ## (1) Closed bodies -/

/-- The name that a line defines. -/
def definedBy (l : Line) : Option String := if l[1]? = some "=" then l[0]? else none

/-- The words of a line without the name that it defines. -/
def usedBy (l : Line) : List String := if l[1]? = some "=" then l.drop 2 else l

def isLabel (line : Line) : Bool := line.length = 1 ∧ (line.any fun w => w.toList.getLast? = some ':')

/-- The line makes a slot of this name. -/
def allocates (name : String) (line : Line) : Bool := line.take 3 = [name, "=", "alloca"]

/-- Names other than those of types and functions. -/
def isLocal (w : String) : Bool := w.toList.head? = some '%' ∧ w.toList[1]? ≠ some '"'

/-- In a function nothing is defined twice, and what its body uses is defined: a temporary before
its use in the same block, a slot once and in the first block, a parameter in the first line, and
a block once. -/
structure ClosedBody (header : Line) (body : List Line) : Prop where
  once : (header.filter isLocal ++ body.filterMap definedBy).Nodup
  temps : ∀ before line after, body = before ++ line :: after → ∀ n : Nat, s!"%t{n}" ∈ usedBy line →
    s!"%t{n}" ∈ (before.rtakeWhile fun l => !isLabel l).filterMap definedBy
  entry : body.head? = some ["entry:"]
  slots : ∀ n : Nat, ∀ w ∈ [s!"%var{n}", s!"%spill{n}"], ∀ line ∈ body, w ∈ usedBy line →
    body.countP (allocates w) = 1 ∧ (body.tail.takeWhile fun l => !isLabel l).countP (allocates w) = 1
  params : ∀ n : Nat, ∀ line ∈ body, s!"%arg{n}" ∈ usedBy line → s!"%arg{n}" ∈ header
  blocks : ∀ n : Nat, ∀ line ∈ body, s!"%bb{n}" ∈ line → body.count [s!"bb{n}:"] = 1

/-! ## (2) Words -/

/-- A word that is no name. -/
def Bare (w : String) : Prop := w.toList.head? ≠ some '%' ∧ w.toList.head? ≠ some '@' ∧ w ≠ "="

instance (w : String) : Decidable (Bare w) := inferInstanceAs (Decidable (_ ∧ _ ∧ _))

theorem head?_of_take {α : Type} {xs rest : List α} {k : Nat} {x : α} (h : xs.take k = x :: rest) : xs.head? = some x := by
  rw [← List.take_append_drop k xs, h]
  rfl

theorem bare_of_head? {c : Char} (hw : w.toList.head? = some c) (h : c ≠ '%' ∧ c ≠ '@' ∧ c ≠ '=') : Bare w := by
  refine ⟨by simpa [hw] using h.1, by simpa [hw] using h.2.1, ?_⟩
  rintro rfl
  exact h.2.2 (Option.some.inj hw).symm

theorem bare_repr (n : Nat) : Bare n.repr := by
  have hne : n.repr.toList ≠ [] := by simp [Nat.toList_repr]
  obtain ⟨c, cs, hcs⟩ := List.exists_cons_of_ne_nil hne
  have hmem : c ∈ n.repr.toList := hcs ▸ .head _
  rw [Nat.toList_repr] at hmem
  have hdigit := Nat.isDigit_of_mem_toDigits (by omega) (by omega) hmem
  exact bare_of_head? (by rw [hcs]; rfl) ⟨ne_of_isDigit hdigit rfl, ne_of_isDigit hdigit rfl, ne_of_isDigit hdigit rfl⟩

/-- A name in quotes. -/
def typeWord (name : String) : String := "%\"" ++ name ++ "\""

namespace Operand

/-- Constants have no name. -/
def isNamed : Operand → Bool
  | temp _ | slot _ | spill _ | arg _ | global _ => true
  | int _ | float _ | floatZero | bool _ | zero => false

/-- What a name starts with tells what it is a name of. -/
def sigil : Operand → List Char
  | temp _ => ['%', 't']
  | slot _ => ['%', 'v']
  | spill _ => ['%', 's']
  | arg _ => ['%', 'a']
  | global _ => ['@', '"']
  | int _ | float _ | floatZero | bool _ | zero => []

theorem text_temp (n : Nat) : (temp n).text = "%t" ++ n.repr := rfl

theorem text_slot (v : VarId) : (slot v).text = "%var" ++ v.index.repr := rfl

theorem text_spill (n : Nat) : (spill n).text = "%spill" ++ n.repr := rfl

theorem text_arg (n : Nat) : (arg n).text = "%arg" ++ n.repr := rfl

theorem take_text (h : o.isNamed = true) : o.text.toList.take 2 = o.sigil := by
  cases o with
  | temp | slot | spill | arg => simp [text_temp, text_slot, text_spill, text_arg, sigil]
  | global name => simp [text, sigil]
  | _ => cases h

theorem bare_text (h : o.isNamed = false) : Bare o.text := by
  cases o with
  | int value =>
    cases value with
    | ofNat n => exact bare_repr n
    | negSucc n =>
      have htext : (int (.negSucc n)).text = "-" ++ (n + 1).repr := rfl
      exact bare_of_head? (c := '-') (by simp [htext]) (by decide)
  | float bits => exact bare_of_head? (c := '0') (by simp [text]) (by decide)
  | floatZero | zero => decide
  | bool value => cases value <;> decide
  | _ => cases h

theorem not_bare (h : o.isNamed = true) : ¬ Bare o.text := by
  intro hb
  cases o with
  | global => exact hb.2.1 (head?_of_take (take_text h))
  | temp | slot | spill | arg => exact hb.1 (head?_of_take (take_text h))
  | _ => cases h

theorem repr_inj_of_append (stem : String) {m : Nat} (h : stem ++ m.repr = stem ++ n.repr) : m = n :=
  Nat.repr_inj.mp ((String.append_right_inj stem).mp h)

theorem text_inj {o' : Operand} (h : o.isNamed = true) (ht : o.text = o'.text) : o = o' := by
  have h' : o'.isNamed = true := by
    by_contra hnot
    exact not_bare h (ht ▸ bare_text (Bool.eq_false_iff.mpr hnot))
  have hsigil : o.sigil = o'.sigil := by rw [← take_text h, ← take_text h', ht]
  cases o with
  | temp n =>
    cases o' with
    | temp m => rw [repr_inj_of_append "%t" ht]
    | _ => simp [sigil] at hsigil
  | slot v =>
    cases o' with
    | slot w => exact congrArg slot (Handle.eq_of_index (repr_inj_of_append "%var" ht))
    | _ => simp [sigil] at hsigil
  | spill n =>
    cases o' with
    | spill m => rw [repr_inj_of_append "%spill" ht]
    | _ => simp [sigil] at hsigil
  | arg n =>
    cases o' with
    | arg m => rw [repr_inj_of_append "%arg" ht]
    | _ => simp [sigil] at hsigil
  | global name =>
    cases o' with
    | global other =>
      rw [text, text, String.append_left_inj, String.append_right_inj] at ht
      rw [ht]
    | _ => simp [sigil] at hsigil
  | _ => cases h

end Operand

theorem typeWord_inj {name other : String} (h : typeWord name = typeWord other) : name = other := by
  rw [typeWord, typeWord, String.append_left_inj, String.append_right_inj] at h
  exact h

theorem take_typeWord (name : String) : (typeWord name).toList.take 2 = ['%', '"'] := by simp [typeWord]

theorem take_labelWord (b : BlockId) : (labelWord b).toList.take 2 = ['%', 'b'] := by simp [labelWord]

theorem Operand.text_ne_typeWord (h : o.isNamed = true) (name : String) : o.text ≠ typeWord name := by
  intro he
  have htake := Operand.take_text h
  rw [he, take_typeWord] at htake
  cases o <;> simp [Operand.sigil] at htake

theorem Operand.text_ne_labelWord (h : o.isNamed = true) (b : BlockId) : o.text ≠ labelWord b := by
  intro he
  have htake := Operand.take_text h
  rw [he, take_labelWord] at htake
  cases o <;> simp [Operand.sigil] at htake

/-- What a word is, where such types, operands and blocks may be named. -/
inductive Word (T : String → Prop) (U : Operand → Prop) (B : BlockId → Prop) (w : String) : Prop
  | bare : Bare w → Word T U B w
  | type {name : String} : T name → w = typeWord name → Word T U B w
  | operand {o : Operand} : U o → w = o.text → Word T U B w
  | label {b : BlockId} : B b → w = labelWord b → Word T U B w

section Word

variable {T T' : String → Prop} {U U' : Operand → Prop} {B B' : BlockId → Prop} {w : String}

theorem Word.mono (h : Word T U B w) (hT : ∀ name, T name → T' name) (hU : ∀ o, U o → U' o) (hB : ∀ b, B b → B' b) :
    Word T' U' B' w := by
  cases h with
  | bare hb => exact .bare hb
  | type hname he => exact .type (hT _ hname) he
  | operand ho he => exact .operand (hU _ ho) he
  | label hb he => exact .label (hB _ hb) he

/-- The sign between a name and its definition is no word of the definition. -/
theorem Word.ne_equals (h : Word T U B w) : w ≠ "=" := by
  have hname : ∀ {cs : List Char}, w.toList.take 2 = cs → cs ≠ ['='] → w ≠ "=" := by
    intro cs hcs hne he
    rw [he] at hcs
    exact hne (hcs.symm.trans (by decide))
  cases h with
  | bare hb => exact hb.2.2
  | type _ he => exact hname (he ▸ take_typeWord _) (by decide)
  | label _ he => exact hname (he ▸ take_labelWord _) (by decide)
  | @operand o _ he =>
    by_cases ho : o.isNamed = true
    · refine hname (he ▸ Operand.take_text ho) ?_
      cases o <;> simp [Operand.sigil]
    · exact he ▸ (Operand.bare_text (Bool.eq_false_iff.mpr ho)).2.2

theorem Word.of_text (h : Word T U B o.text) (ho : o.isNamed = true) : U o := by
  cases h with
  | bare hb => exact absurd hb (Operand.not_bare ho)
  | type _ he => exact absurd he (Operand.text_ne_typeWord ho _)
  | label _ he => exact absurd he (Operand.text_ne_labelWord ho _)
  | operand hu he => exact Operand.text_inj ho he ▸ hu

theorem Word.of_labelWord (h : Word T U B (labelWord b)) : B b := by
  have hpercent : (labelWord b).toList.head? = some '%' := by simp [labelWord]
  cases h with
  | bare hb => exact absurd hpercent hb.1
  | type _ he =>
    have htake := take_labelWord b
    rw [he, take_typeWord] at htake
    simp at htake
  | label hb he => exact Handle.eq_of_index (Operand.repr_inj_of_append "%bb" he) ▸ hb
  | @operand o _ he =>
    by_cases ho : o.isNamed = true
    · exact absurd he.symm (Operand.text_ne_labelWord ho b)
    · exact absurd (he ▸ hpercent) (Operand.bare_text (Bool.eq_false_iff.mpr ho)).1

mutual

theorem CodeType.word : ∀ ty : CodeType, (∀ name ∈ ty.names, T name) → ∀ w ∈ ty.words, Word T U B w
  | .int width, _ => forall_mem_singleton.mpr (.bare (bare_of_head? (c := 'i') (by simp) (by decide)))
  | .float, _ | .double, _ | .struct [], _ => forall_mem_singleton.mpr (.bare (by decide))
  | .ptr pointee, hT => pointee.word hT
  | .array length element, hT =>
    forall_mem_cons.mpr ⟨.bare (bare_repr _), forall_mem_cons.mpr ⟨.bare (by decide), element.word hT⟩⟩
  | .struct (field :: fields), hT => by
    rw [CodeType.words]
    refine forall_mem_append.mpr ⟨forall_mem_cons.mpr ⟨.bare (by decide), ?_⟩, ?_⟩
    · exact CodeType.word_of_list (field :: fields) hT
    · exact forall_mem_singleton.mpr (.bare (by decide))
  | .named name, hT => forall_mem_singleton.mpr (.type (hT name (List.mem_singleton_self name)) rfl)
  | .func result params, hT => by
    obtain ⟨hresult, hparams⟩ := forall_mem_append.mp hT
    exact forall_mem_append.mpr ⟨result.word hresult, CodeType.word_of_list params hparams⟩

theorem CodeType.word_of_list : ∀ tys : List CodeType, (∀ name ∈ CodeType.namesOf tys, T name) →
    ∀ w ∈ CodeType.wordsOf tys, Word T U B w
  | [], _ => forall_mem_nil _
  | ty :: rest, hT => by
    obtain ⟨hty, hrest⟩ := forall_mem_append.mp hT
    exact forall_mem_append.mpr ⟨ty.word hty, CodeType.word_of_list rest hrest⟩

end

end Word

/-- Where the words of a line come from: from types, operands and blocks that it mentions. -/
abbrev Refers (types : List CodeType) (uses : List Operand) (targets : List BlockId) : String → Prop :=
  Word (fun name => ∃ ty ∈ types, name ∈ ty.names) (· ∈ uses) (· ∈ targets)

section Refers

variable {types : List CodeType} {uses : List Operand} {targets : List BlockId} {w : String}

/-- All of the words come from there. -/
def RefersAll (types : List CodeType) (uses : List Operand) (targets : List BlockId) (ws : List String) : Prop :=
  ∀ w ∈ ws, Refers types uses targets w

namespace RefersAll

variable {ws : List String}

theorem nil : RefersAll types uses targets [] := forall_mem_nil _

theorem bare (hw : Bare w) (h : RefersAll types uses targets ws) : RefersAll types uses targets (w :: ws) :=
  forall_mem_cons.mpr ⟨.bare hw, h⟩

theorem operand (ho : o ∈ uses) (h : RefersAll types uses targets ws) : RefersAll types uses targets (o.text :: ws) :=
  forall_mem_cons.mpr ⟨.operand ho rfl, h⟩

theorem label (hb : b ∈ targets) (h : RefersAll types uses targets ws) : RefersAll types uses targets (labelWord b :: ws) :=
  forall_mem_cons.mpr ⟨.label hb rfl, h⟩

theorem type {ty : CodeType} (hty : ty ∈ types) (h : RefersAll types uses targets ws) :
    RefersAll types uses targets (ty.words ++ ws) :=
  forall_mem_append.mpr ⟨ty.word fun _ hname => ⟨ty, hty, hname⟩, h⟩

theorem flatMap {α : Type} {xs : List α} {f : α → List String} (h : ∀ x ∈ xs, RefersAll types uses targets (f x)) :
    RefersAll types uses targets (xs.flatMap f) := fun w hw => by
  obtain ⟨x, hx, hw⟩ := mem_flatMap.mp hw
  exact h x hx w hw

theorem second_ne (h : RefersAll types uses targets ws) : ws[1]? ≠ some "=" := fun he =>
  (h _ (List.mem_of_getElem? he)).ne_equals rfl

end RefersAll

theorem Alloca.refers_words (a : Alloca) : RefersAll [a.ty] [] [] (usedBy a.words) := by
  have hwords : RefersAll [a.ty] [] [] (a.ty.words ++ []) := .type (.head _) .nil
  rw [append_nil] at hwords
  exact .bare (by decide) hwords

end Refers

namespace Instr

theorem refers_rest (i : Instr) : RefersAll i.types (i.uses.map (·.1)) [] i.rest := by
  cases i with
  | store =>
    simp only [rest, cons_append, append_assoc, nil_append]
    exact .bare (by decide) (.type (.head _) (.operand (.head _) (.type (.head _) (.operand (.tail _ (.head _)) .nil))))
  | load =>
    simp only [rest, cons_append, append_assoc]
    exact .bare (by decide) (.type (.head _) (.type (.tail _ (.head _)) (.operand (.head _) .nil)))
  | extract =>
    simp only [rest, cons_append]
    exact .bare (by decide) (.type (.head _) (.operand (.head _) (.bare (bare_repr _) .nil)))
  | field =>
    simp only [rest, cons_append, append_assoc]
    exact .bare (by decide) (.bare (by decide) (.type (.head _) (.type (.head _) (.operand (.head _)
      (.bare (by decide) (.bare (by decide) (.bare (by decide) (.bare (bare_repr _) .nil))))))))
  | offset =>
    simp only [rest, cons_append, append_assoc]
    exact .bare (by decide) (.type (.head _) (.type (.tail _ (.head _)) (.operand (.head _)
      (.bare (by decide) (.operand (.tail _ (.head _)) .nil)))))
  | binary result op ty lhs rhs =>
    simp only [rest, append_assoc]
    have hrest : RefersAll [ty] [lhs, rhs] [] (ty.words ++ [lhs.text, rhs.text]) :=
      .type (.head _) (.operand (.head _) (.operand (.tail _ (.head _)) .nil))
    refine forall_mem_append.mpr ⟨fun w hw => .bare ?_, hrest⟩
    cases op with
    | icmp p => cases p <;> revert w <;> decide
    | fcmp p => cases p <;> revert w <;> decide
    | _ => revert w; decide
  | negate =>
    simp only [rest, cons_append]
    exact .bare (by decide) (.type (.head _) (.operand (.head _) .nil))
  | convert result op source value target =>
    simp only [rest, cons_append, append_assoc, nil_append]
    refine .bare ?_ (.type (.head _) (.operand (.head _) (.bare (by decide) ?_)))
    · cases op <;> decide
    · rw [← append_nil target.words]
      exact .type (.tail _ (.head _)) .nil
  | call result ty callee args =>
    simp only [rest, cons_append, append_assoc, nil_append]
    refine .bare (by decide) (.type (.head _) (.operand (.head _) (.flatMap fun a ha => ?_)))
    refine .type (.tail _ (mem_map_of_mem ha)) (.operand (.tail _ ?_) .nil)
    rw [map_map]
    exact mem_map.mpr ⟨a, ha, rfl⟩
  | comment => exact .nil

theorem definedBy_words (i : Instr) : definedBy i.words = i.result?.map Operand.text := by
  unfold words
  cases i.result? with
  | some result => rfl
  | none => exact if_neg (refers_rest i).second_ne

theorem usedBy_words (i : Instr) : usedBy i.words = i.rest := by
  unfold words
  cases i.result? with
  | some result => rfl
  | none => exact if_neg (refers_rest i).second_ne

/-- A comment has no words, and everything else has at least two. -/
theorem words_length (i : Instr) (h : i.words ≠ []) : 2 ≤ i.words.length := by
  cases i with
  | comment text => exact absurd rfl h
  | store ty value address =>
    simp only [words, result?, rest, length_append, length_cons]
    omega
  | _ =>
    simp only [words, result?, length_cons]
    omega

end Instr

namespace Exit

theorem refers_words (x : Exit) : RefersAll x.types (x.uses.map (·.1)) x.targets x.words := by
  cases x with
  | ret => exact .bare (by decide) (.type (.head _) (.operand (.head _) .nil))
  | jump => exact .bare (by decide) (.bare (by decide) (.label (.head _) .nil))
  | branch =>
    exact .bare (by decide) (.bare (by decide) (.operand (.head _)
      (.bare (by decide) (.label (.head _) (.bare (by decide) (.label (.tail _ (.head _)) .nil))))))
  | switch tag fallback targets =>
    refine .bare (by decide) (.bare (by decide) (.operand (.head _) (.bare (by decide) (.label ?_ (.flatMap fun t ht => ?_)))))
    · exact mem_append_right _ (.head _)
    · exact .bare (by decide) (.bare (bare_repr _) (.bare (by decide)
        (.label (mem_append_left _ (mem_map_of_mem ht)) .nil)))

theorem definedBy_words (x : Exit) : definedBy x.words = none :=
  if_neg (refers_words x).second_ne

theorem usedBy_words (x : Exit) : usedBy x.words = x.words :=
  if_neg (refers_words x).second_ne

theorem words_length (x : Exit) : 2 ≤ x.words.length := by
  cases x <;> simp only [words, length_append, length_cons] <;> omega

end Exit

def labelLine (b : BlockId) : Line := ["bb" ++ b.index.repr ++ ":"]

theorem bare_labelText (b : BlockId) : Bare ("bb" ++ b.index.repr ++ ":") :=
  bare_of_head? (c := 'b') (by simp) (by decide)

/-! ## (3) Bodies -/

/-- The lines of a body, by where they come from. -/
inductive BodyLine (f : FunCode) : Line → Prop
  | entry : BodyLine f ["entry:"]
  | slot {a : Alloca} : a ∈ f.slots → BodyLine f a.words
  | jump {b : BlockId} : f.entry? = some b → BodyLine f (Exit.jump b).words
  | label {b : CodeBlock} : b ∈ f.blocks → BodyLine f (labelLine b.label)
  | instr {b : CodeBlock} {i : Instr} : b ∈ f.blocks → i ∈ b.code → i.words ≠ [] → BodyLine f i.words
  | exit {b : CodeBlock} : b ∈ f.blocks → BodyLine f b.exit.words

theorem mem_lineOf {ws : List String} : l ∈ lineOf ws ↔ ws ≠ [] ∧ l = ws := by
  unfold lineOf
  by_cases h : ws = [] <;> simp [h]

/-- What a word of a function stands for. -/
abbrev Resolves (S : Scene) (f : FunCode) : String → Prop :=
  Word (· ∈ S.types.map (·.1)) (fun o => ∃ code, o.Known S f.slots code) (· ∈ f.labels)

theorem Refers.resolves {types : List CodeType} {uses : List Operand} {targets : List BlockId}
    (h : Refers types uses targets w) (code : List Instr) (htypes : ∀ ty ∈ types, S.Declares ty)
    (huses : ∀ o ∈ uses, o.Known S f.slots code) (htargets : ∀ b ∈ targets, b ∈ f.labels) : Resolves S f w := by
  refine h.mono ?_ (fun o ho => ⟨code, huses o ho⟩) htargets
  rintro name ⟨ty, hty, hname⟩
  exact htypes ty hty name hname

namespace BodyLine

variable {S : Scene} {f : FunCode} {l : Line} {w : String}

theorem definedBy_eq_some (h : BodyLine f l) (hw : definedBy l = some w) :
    (∃ a ∈ f.slots, l = a.words ∧ w = a.slot.text) ∨
      ∃ b ∈ f.blocks, ∃ i ∈ b.code, ∃ o, i.result? = some o ∧ l = i.words ∧ w = o.text := by
  cases h with
  | entry | label hb => cases hw
  | slot ha => exact .inl ⟨_, ha, rfl, (Option.some.inj hw).symm⟩
  | jump _ | exit _ => cases (Exit.definedBy_words _).symm.trans hw
  | instr hb hi hne =>
    rw [Instr.definedBy_words] at hw
    obtain ⟨o, ho, rfl⟩ := Option.map_eq_some_iff.mp hw
    exact .inr ⟨_, hb, _, hi, o, ho, rfl, rfl⟩

/-- A line defines a slot or a temporary. -/
theorem exists_local (hl : BodyLine f l) (h : f.Closed S) (hw : definedBy l = some w) :
    ∃ o : Operand, o.isNamed = true ∧ o.sigil.head? = some '%' ∧ w = o.text := by
  rcases hl.definedBy_eq_some hw with ⟨a, ha, -, rfl⟩ | ⟨b, hb, i, hi, o, ho, -, rfl⟩
  · rcases (h.slots a ha).1 with ⟨v, hv⟩ | ⟨n, hn⟩
    · exact ⟨.slot v, rfl, rfl, by rw [hv]⟩
    · exact ⟨.spill n, rfl, rfl, by rw [hn]⟩
  · obtain ⟨n, rfl⟩ := (h.blocks b hb).results i hi o ho
    exact ⟨.temp n, rfl, rfl, rfl⟩

/-- All that a body uses is known. -/
theorem resolves (hl : BodyLine f l) (h : f.Closed S) (hw : w ∈ usedBy l) : Resolves S f w := by
  cases hl with
  | entry =>
    rw [List.mem_singleton.mp hw]
    exact .bare (by decide)
  | @slot a ha =>
    exact (a.refers_words _ hw).resolves [] (fun T hT => List.mem_singleton.mp hT ▸ (h.slots a ha).2)
      (forall_mem_nil _) (forall_mem_nil _)
  | jump hb =>
    rw [Exit.usedBy_words] at hw
    refine (Exit.refers_words _ _ hw).resolves [] (forall_mem_nil _) (forall_mem_nil _) fun b hmem => ?_
    rw [List.mem_singleton.mp hmem]
    exact h.entry _ hb
  | label hb =>
    rw [List.mem_singleton.mp hw]
    exact .bare (bare_labelText _)
  | @instr b i hb hi _ =>
    rw [Instr.usedBy_words] at hw
    obtain ⟨k, hk⟩ := List.getElem?_of_mem hi
    have hclosed := (h.blocks b hb).code k i hk
    refine (i.refers_rest _ hw).resolves (b.code.take k) hclosed.2 (fun o ho => ?_) (forall_mem_nil _)
    obtain ⟨u, hu, rfl⟩ := mem_map.mp ho
    exact hclosed.1 u hu
  | @exit b hb =>
    rw [Exit.usedBy_words] at hw
    have hclosed := h.blocks b hb
    refine (Exit.refers_words _ _ hw).resolves b.code hclosed.types (fun o ho => ?_) (h.targets b hb)
    obtain ⟨u, hu, rfl⟩ := mem_map.mp ho
    exact hclosed.exit u hu

end BodyLine

/-! ### What is defined -/

theorem isLocal_typeWords {ty : CodeType} : ty.words.filter isLocal = [] := by
  refine List.filter_eq_nil_iff.mpr fun w hw hlocal => ?_
  obtain ⟨hhead, hsecond⟩ := of_decide_eq_true hlocal
  have hword : Word (fun _ => True) (fun _ => False) (fun _ => False) w := ty.word (fun _ _ => trivial) w hw
  cases hword with
  | bare hb => exact hb.1 hhead
  | type _ he => exact hsecond (by simp [he, typeWord])
  | operand ho _ => exact ho
  | label hb _ => exact hb

theorem isLocal_arg (n : Nat) : isLocal (Operand.arg n).text = true := by
  simp [isLocal, Operand.text_arg]

theorem filter_header (result : CodeType) (name : String) (params : List CodeType) (inlineHint : Bool) :
    (FunCode.header result name params inlineHint).filter isLocal =
      ((List.range params.length).map .arg).map Operand.text := by
  have hdefine : isLocal "define" = false := by decide
  have hname : isLocal (Operand.global name).text = false := by simp [isLocal, Operand.text]
  have hhint : (if inlineHint then ["inlinehint"] else []).filter isLocal = [] := by cases inlineHint <;> decide
  have hbrace : isLocal "\x7b" = false := by decide
  have hparams : (params.zipIdx.flatMap fun p => p.1.words ++ [(Operand.arg p.2).text]).filter isLocal =
      params.zipIdx.map fun p => (Operand.arg p.2).text := by
    rw [List.filter_flatMap, List.map_eq_flatMap]
    refine List.flatMap_congr fun p _ => ?_
    rw [List.filter_append, isLocal_typeWords, nil_append, List.filter_singleton, isLocal_arg]
    rfl
  have hrange : params.zipIdx.map (fun p => (Operand.arg p.2).text) =
      ((List.range params.length).map .arg).map Operand.text := by
    rw [List.range_eq_range', ← List.zipIdx_map_snd 0 params, map_map, map_map]
    rfl
  simp only [FunCode.header, List.filter_append, List.filter_cons, List.filter_nil, hdefine, hname, hbrace, hhint, hparams,
    isLocal_typeWords, hrange]
  simp

theorem filterMap_code (code : List Instr) :
    (code.flatMap fun i => lineOf i.words).filterMap definedBy = (code.filterMap Instr.result?).map Operand.text := by
  rw [List.filterMap_flatMap, List.map_filterMap, List.filterMap_eq_flatMap_toList]
  refine List.flatMap_congr fun i _ => ?_
  rw [← Instr.definedBy_words]
  unfold lineOf
  split
  · rename_i he
    rw [he]
    rfl
  · cases hd : definedBy i.words <;> simp [hd]

theorem filterMap_lines (b : CodeBlock) : b.lines.filterMap definedBy = b.results.map Operand.text := by
  have hlabel : definedBy (labelLine b.label) = none := rfl
  change (labelLine b.label :: (b.code.flatMap fun i => lineOf i.words) ++ [b.exit.words]).filterMap definedBy = _
  rw [cons_append, filterMap_cons_none hlabel, filterMap_append, filterMap_code,
    filterMap_cons_none (Exit.definedBy_words _), List.filterMap_nil, append_nil]
  rfl

section Body

variable {result : CodeType} {name : String} {params : List CodeType} {inlineHint : Bool} {slots : List Alloca}
  {entry : BlockId} {blocks : List CodeBlock}

theorem filterMap_bodyLines : (FunCode.bodyLines slots entry blocks).filterMap definedBy =
    (slots.map (·.slot) ++ blocks.flatMap CodeBlock.results).map Operand.text := by
  have hentry : definedBy ["entry:"] = none := rfl
  have hslots : (slots.map Alloca.words).filterMap definedBy = (slots.map (·.slot)).map Operand.text := by
    rw [List.filterMap_map, map_map, ← List.filterMap_eq_map]
    rfl
  have hjump : [(Exit.jump entry).words].filterMap definedBy = [] := by
    rw [filterMap_cons_none (Exit.definedBy_words _)]
    rfl
  have hblocks : (blocks.flatMap CodeBlock.lines).filterMap definedBy =
      (blocks.flatMap CodeBlock.results).map Operand.text := by
    rw [List.filterMap_flatMap, List.map_flatMap]
    exact List.flatMap_congr fun b _ => filterMap_lines b
  unfold FunCode.bodyLines
  rw [filterMap_append, filterMap_append, filterMap_cons_none hentry, hslots, hjump, hblocks,
    append_nil, List.map_append]

theorem bodyLine_of_mem (h : l ∈ FunCode.bodyLines slots entry blocks) :
    BodyLine (.define result name params inlineHint slots entry blocks) l := by
  refine forall_mem_append.mpr ⟨forall_mem_append.mpr ⟨?_, forall_mem_singleton.mpr (.jump rfl)⟩, ?_⟩ l h
  · exact forall_mem_cons.mpr ⟨.entry, List.forall_mem_map.mpr fun a ha => .slot ha⟩
  · refine List.forall_mem_flatMap.mpr fun b hb => forall_mem_append.mpr ⟨?_, forall_mem_singleton.mpr (.exit hb)⟩
    refine forall_mem_cons.mpr ⟨.label hb, List.forall_mem_flatMap.mpr fun i hi l hl => ?_⟩
    obtain ⟨hne, rfl⟩ := mem_lineOf.mp hl
    exact .instr hb hi hne

/-! ### Places in a body -/

theorem mem_rtakeWhile_append {α : Type} {p : α → Bool} {xs ys : List α} (h : ∀ y ∈ ys, p y = true) {y : α} (hy : y ∈ ys) :
    y ∈ (xs ++ ys).rtakeWhile p := by
  have hys : ∀ z ∈ ys.reverse, p z = true := fun z hz => h z (mem_reverse.mp hz)
  rw [List.rtakeWhile, List.reverse_append, List.takeWhile_append_of_pos hys, mem_reverse]
  exact mem_append_left _ (mem_reverse.mpr hy)

/-- A place in a concatenation lies in one of the parts. -/
theorem exists_of_flatMap_eq {α β : Type} {f : α → List β} {xs : List α} {before after : List β} {y : β}
    (h : xs.flatMap f = before ++ y :: after) :
    ∃ front x back before' after', xs = front ++ x :: back ∧ f x = before' ++ y :: after' ∧
      before = front.flatMap f ++ before' := by
  induction xs generalizing before with
  | nil => simp at h
  | cons x xs ih =>
    rw [flatMap_cons] at h
    rcases List.append_eq_append_iff.mp h with ⟨rest, rfl, hrest⟩ | ⟨rest, hx, hrest⟩
    · obtain ⟨front, z, back, before', after', rfl, hz, rfl⟩ := ih hrest
      exact ⟨x :: front, z, back, before', after', rfl, hz, by rw [flatMap_cons, append_assoc]⟩
    · cases rest with
      | cons z rest =>
        obtain ⟨rfl, -⟩ := List.cons.inj hrest
        exact ⟨[], x, xs, before, rest, rfl, hx, rfl⟩
      | nil =>
        rw [append_nil] at hx
        obtain ⟨front, z, back, before', after', rfl, hz, he⟩ := @ih [] hrest.symm
        refine ⟨x :: front, z, back, before', after', rfl, hz, ?_⟩
        rw [flatMap_cons, append_assoc, ← he, append_nil, hx]

/-- A line of a block is its label, an instruction, or its exit, and what comes before it is known. -/
theorem CodeBlock.place_of_lines {b : CodeBlock} {after : List Line} (h : b.lines = before ++ l :: after) :
    l = labelLine b.label ∨
      (∃ front i back, b.code = front ++ i :: back ∧ l = i.words ∧
        before = labelLine b.label :: front.flatMap fun i => lineOf i.words) ∨
      (l = b.exit.words ∧ before = labelLine b.label :: b.code.flatMap fun i => lineOf i.words) := by
  change labelLine b.label :: ((b.code.flatMap fun i => lineOf i.words) ++ [b.exit.words]) = _ at h
  cases before with
  | nil => exact .inl (List.cons.inj h).1.symm
  | cons first before =>
    obtain ⟨rfl, htail⟩ := List.cons.inj h
    right
    rcases List.append_eq_append_iff.mp htail with ⟨rest, rfl, hrest⟩ | ⟨rest, hcode, hrest⟩
    · obtain ⟨rfl, hl⟩ : rest = [] ∧ b.exit.words = l := by
        cases rest with
        | nil => exact ⟨rfl, (List.cons.inj hrest).1⟩
        | cons _ _ => simp at hrest
      exact .inr ⟨hl.symm, by rw [append_nil]⟩
    · cases rest with
      | nil => exact .inr ⟨(List.cons.inj hrest).1, by rw [hcode, append_nil]⟩
      | cons l' rest =>
        obtain ⟨rfl, -⟩ := List.cons.inj hrest
        obtain ⟨front, i, back, before', after', hsplit, hi, rfl⟩ := exists_of_flatMap_eq hcode
        obtain ⟨-, hl⟩ := mem_lineOf.mp (hi ▸ mem_append_right before' (.head _))
        have hnil : before' = [] := by
          have hlength : (lineOf i.words).length ≤ 1 := by
            unfold lineOf
            split <;> simp
          rw [hi, length_append, length_cons] at hlength
          exact List.eq_nil_of_length_eq_zero (by omega)
        exact .inl ⟨front, i, back, hsplit, hl, by rw [hnil, append_nil]⟩

/-- A line of a body is in its first part, which makes the slots, or in one of the blocks. -/
theorem place_of_bodyLines {after : List Line} (h : FunCode.bodyLines slots entry blocks = before ++ l :: after) :
    (l = ["entry:"] ∨ (∃ a ∈ slots, l = a.words) ∨ l = (Exit.jump entry).words) ∨
      ∃ b ∈ blocks, ∃ front before' after', b.lines = before' ++ l :: after' ∧ before = front ++ before' := by
  have hparts : FunCode.bodyLines slots entry blocks =
      ((["entry:"] :: slots.map Alloca.words ++ [(Exit.jump entry).words]) :: blocks.map CodeBlock.lines).flatMap id := by
    rw [flatMap_cons, List.flatMap_map]
    rfl
  rw [hparts] at h
  obtain ⟨front, part, back, before', after', hsplit, hpart, rfl⟩ := exists_of_flatMap_eq h
  have hl : l ∈ part := by
    change part = _ at hpart
    rw [hpart]
    exact mem_append_right _ (.head _)
  have hmem : part ∈ (["entry:"] :: slots.map Alloca.words ++ [(Exit.jump entry).words]) :: blocks.map CodeBlock.lines :=
    hsplit ▸ mem_append_right _ (.head _)
  rcases mem_cons.mp hmem with rfl | hmem
  · exact .inl (by simpa [or_assoc, eq_comm (b := l)] using hl)
  · obtain ⟨b, hb, rfl⟩ := mem_map.mp hmem
    exact .inr ⟨b, hb, _, before', after', hpart, rfl⟩

/-! ### Bodies are closed -/

theorem temp_mem_before {front : List Line} {code : List Instr} {i : Instr} (hi : i ∈ code) (ho : i.result? = some o) :
    o.text ∈ ((front ++ labelLine b :: code.flatMap fun i => lineOf i.words).rtakeWhile fun l => !isLabel l).filterMap
      definedBy := by
  have hwords : i.words ≠ [] := by
    rw [Instr.words, ho]
    exact List.cons_ne_nil _ _
  refine mem_filterMap.mpr ⟨i.words, ?_, by rw [Instr.definedBy_words, ho]; rfl⟩
  rw [List.append_cons]
  refine mem_rtakeWhile_append (fun l hl => ?_) (mem_flatMap.mpr ⟨i, hi, mem_lineOf.mpr ⟨hwords, rfl⟩⟩)
  obtain ⟨j, _, hl⟩ := mem_flatMap.mp hl
  obtain ⟨hne, rfl⟩ := mem_lineOf.mp hl
  have hlong := Instr.words_length j hne
  rw [isLabel, decide_eq_false fun hl => by omega]
  rfl

variable {S : Scene}

/-- A temporary that is used is defined before in the same block. -/
theorem temp_defined (h : (FunCode.define result name params inlineHint slots entry blocks).Closed S)
    {after : List Line} (hplace : FunCode.bodyLines slots entry blocks = before ++ l :: after)
    (hn : (Operand.temp n).text ∈ usedBy l) :
    (Operand.temp n).text ∈ (before.rtakeWhile fun l => !isLabel l).filterMap definedBy := by
  rcases place_of_bodyLines hplace with (rfl | ⟨a, -, rfl⟩ | rfl) | ⟨b, hb, front, before', after', hlines, rfl⟩
  · have hbare : Bare (Operand.temp n).text := List.mem_singleton.mp hn ▸ (by decide : Bare "entry:")
    exact absurd hbare (Operand.not_bare rfl)
  · cases (a.refers_words _ hn).of_text rfl
  · rw [Exit.usedBy_words] at hn
    cases (Exit.refers_words _ _ hn).of_text rfl
  · have hclosed := h.blocks b hb
    rcases CodeBlock.place_of_lines hlines with rfl | ⟨before, i, back, hcode, rfl, rfl⟩ | ⟨rfl, rfl⟩
    · exact absurd (List.mem_singleton.mp hn ▸ bare_labelText b.label) (Operand.not_bare (o := .temp n) rfl)
    · rw [Instr.usedBy_words] at hn
      obtain ⟨u, hu, hut⟩ := mem_map.mp ((i.refers_rest _ hn).of_text rfl)
      have hat : b.code[before.length]? = some i := by rw [hcode, List.getElem?_append_right (le_refl _)]; simp
      have hknown := (hclosed.code _ i hat).1 u hu
      rw [hut, hcode, List.take_left] at hknown
      obtain ⟨j, hj, hresult⟩ := hknown
      exact temp_mem_before hj hresult
    · rw [Exit.usedBy_words] at hn
      obtain ⟨u, hu, hut⟩ := mem_map.mp ((Exit.refers_words _ _ hn).of_text rfl)
      have hknown := hclosed.exit u hu
      rw [hut] at hknown
      obtain ⟨j, hj, hresult⟩ := hknown
      exact temp_mem_before hj hresult

theorem definedBy_of_take {keyword : String} (h : l.take 3 = [w, "=", keyword]) : definedBy l = some w := by
  rw [← List.take_append_drop 3 l, h]
  exact if_pos rfl

theorem not_allocates_of_mem_lines {b : CodeBlock} (h : b.Closed S slots) (hw : ∀ n, w ≠ (Operand.temp n).text)
    (hl : l ∈ b.lines) : ¬ allocates w l = true := by
  intro ha
  have hdefined := definedBy_of_take (of_decide_eq_true ha)
  have hmem : w ∈ b.results.map Operand.text := filterMap_lines b ▸ mem_filterMap.mpr ⟨l, hl, hdefined⟩
  obtain ⟨o, ho, rfl⟩ := mem_map.mp hmem
  obtain ⟨i, hi, hresult⟩ := mem_filterMap.mp ho
  obtain ⟨n, rfl⟩ := h.results i hi o hresult
  exact hw n rfl

theorem countP_slots (ho : o.isNamed = true) (hnodup : (slots.map (·.slot)).Nodup) (hmem : o ∈ slots.map (·.slot)) :
    (slots.map Alloca.words).countP (allocates o.text) = 1 := by
  have hcount := List.count_eq_one_of_mem hnodup hmem
  rw [List.count, List.countP_map] at hcount
  rw [List.countP_map, ← hcount]
  refine List.countP_congr fun a _ => ?_
  rw [Function.comp_apply, Function.comp_apply, beq_iff_eq]
  constructor
  · intro h
    have htake : a.words.take 3 = [o.text, "=", "alloca"] := of_decide_eq_true h
    exact (Operand.text_inj ho (List.cons.inj htake).1.symm).symm
  · intro h
    rw [← h]
    exact decide_eq_true rfl

/-- A slot that is used is made once, and before the first block is left. -/
theorem slot_allocated (h : (FunCode.define result name params inlineHint slots entry blocks).Closed S)
    (hnodup : (slots.map (·.slot)).Nodup) (ho : o.isNamed = true) (hmem : o ∈ slots.map (·.slot)) :
    (FunCode.bodyLines slots entry blocks).countP (allocates o.text) = 1 ∧
      ((FunCode.bodyLines slots entry blocks).tail.takeWhile fun l => !isLabel l).countP (allocates o.text) = 1 := by
  have hslots := countP_slots ho hnodup hmem
  have htemp : ∀ n, o.text ≠ (Operand.temp n).text := by
    intro n he
    obtain ⟨a, ha, rfl⟩ := mem_map.mp hmem
    have hslot := Operand.text_inj ho he
    rcases (h.slots a ha).1 with ⟨_, ha⟩ | ⟨_, ha⟩ <;> simp [ha] at hslot
  have hblocks : ∀ l ∈ blocks.flatMap CodeBlock.lines, ¬ allocates o.text l = true :=
    List.forall_mem_flatMap.mpr fun b hb l hl => not_allocates_of_mem_lines (h.blocks b hb) htemp hl
  have hentry : allocates o.text ["entry:"] = false := decide_eq_false (by simp)
  have hjump : allocates o.text (Exit.jump entry).words = false := decide_eq_false (by simp [Exit.words])
  -- The lines of the first block are no labels, so the block reaches at least to its jump.
  have hfirst : ∀ l ∈ slots.map Alloca.words ++ [(Exit.jump entry).words], (!isLabel l) = true :=
    forall_mem_append.mpr ⟨List.forall_mem_map.mpr fun _ _ => rfl, forall_mem_singleton.mpr rfl⟩
  have hrest : ((blocks.flatMap CodeBlock.lines).takeWhile fun l => !isLabel l).countP (allocates o.text) = 0 :=
    List.countP_eq_zero.mpr fun l hl => hblocks l ((List.takeWhile_sublist _).subset hl)
  constructor
  · rw [FunCode.bodyLines, countP_append, countP_append, List.countP_cons, hslots, List.countP_singleton, hjump,
      List.countP_eq_zero.mpr hblocks, hentry]
    rfl
  · have htail : (FunCode.bodyLines slots entry blocks).tail =
        slots.map Alloca.words ++ [(Exit.jump entry).words] ++ blocks.flatMap CodeBlock.lines := rfl
    rw [htail, List.takeWhile_append_of_pos hfirst, countP_append, countP_append, hslots,
      List.countP_singleton, hjump, hrest]
    rfl

theorem count_lines (b : CodeBlock) (target : BlockId) :
    b.lines.count (labelLine target) = if b.label = target then 1 else 0 := by
  have hlong : ∀ {l : Line}, 2 ≤ l.length → labelLine target ≠ l := by
    rintro _ hlength rfl
    simp [labelLine] at hlength
  have hcode : (b.code.flatMap fun i => lineOf i.words).count (labelLine target) = 0 := by
    refine count_eq_zero.mpr fun hmem => ?_
    obtain ⟨i, -, hi⟩ := mem_flatMap.mp hmem
    obtain ⟨hne, he⟩ := mem_lineOf.mp hi
    exact hlong (i.words_length hne) he
  have hexit : [b.exit.words].count (labelLine target) = 0 :=
    count_eq_zero.mpr fun hmem => hlong b.exit.words_length (List.mem_singleton.mp hmem)
  have hlabel : labelLine b.label = labelLine target ↔ b.label = target := by
    refine ⟨fun he => ?_, congrArg labelLine⟩
    have hword := (List.cons.inj he).1
    rw [String.append_left_inj] at hword
    exact Handle.eq_of_index (Operand.repr_inj_of_append "bb" hword)
  change (labelLine b.label :: (b.code.flatMap fun i => lineOf i.words) ++ [b.exit.words]).count _ = _
  rw [count_append, count_cons, hcode, hexit]
  simp [hlabel]

theorem count_bodyLines (target : BlockId) :
    (FunCode.bodyLines slots entry blocks).count (labelLine target) = (blocks.map (·.label)).count target := by
  have hentry : (["entry:"] == labelLine target) = false := by
    refine beq_eq_false_iff_ne.mpr fun he => ?_
    have hhead := congrArg (fun w : String => w.toList.head?) (List.cons.inj he).1
    simp at hhead
  have hslots : (slots.map Alloca.words).count (labelLine target) = 0 := by
    refine count_eq_zero.mpr fun hmem => ?_
    obtain ⟨a, -, ha⟩ := mem_map.mp hmem
    simp [Alloca.words, labelLine] at ha
  have hjump : [(Exit.jump entry).words].count (labelLine target) = 0 :=
    count_eq_zero.mpr (by simp [Exit.words, labelLine])
  have hblocks : (blocks.flatMap CodeBlock.lines).count (labelLine target) = (blocks.map (·.label)).count target := by
    induction blocks with
    | nil => rfl
    | cons b blocks ih =>
      rw [flatMap_cons, count_append, ih, count_lines, List.map_cons, count_cons, Nat.add_comm]
      simp
  rw [FunCode.bodyLines, count_append, count_append, count_cons, hentry, hslots, hjump, hblocks]
  simp

theorem mem_usedBy_or_definedBy (h : w ∈ l) : w ∈ usedBy l ∨ definedBy l = some w ∨ w = "=" := by
  unfold usedBy definedBy
  by_cases hequals : l[1]? = some "="
  · rw [if_pos hequals, if_pos hequals]
    cases l with
    | nil => cases h
    | cons first l =>
      rcases mem_cons.mp h with rfl | h
      · exact .inr (.inl rfl)
      · cases l with
        | nil => cases h
        | cons second rest =>
          rcases mem_cons.mp h with rfl | h
          · exact .inr (.inr (Option.some.inj hequals))
          · exact .inl h
  · rw [if_neg hequals]
    exact .inl h

theorem block_labelled (h : (FunCode.define result name params inlineHint slots entry blocks).Closed S)
    (hnodup : (blocks.map (·.label)).Nodup) (hl : l ∈ FunCode.bodyLines slots entry blocks) (hb : labelWord b ∈ l) :
    (FunCode.bodyLines slots entry blocks).count (labelLine b) = 1 := by
  have hline : BodyLine (.define result name params inlineHint slots entry blocks) l := bodyLine_of_mem hl
  rw [count_bodyLines]
  refine List.count_eq_one_of_mem hnodup ?_
  rcases mem_usedBy_or_definedBy hb with hused | hdefined | hequals
  · exact (hline.resolves h hused).of_labelWord
  · obtain ⟨o, ho, -, he⟩ := hline.exists_local h hdefined
    exact absurd he.symm (Operand.text_ne_labelWord ho b)
  · have htake := take_labelWord b
    rw [hequals] at htake
    exact absurd htake (by decide)

theorem mem_header_of_lt (h : n < params.length) :
    (Operand.arg n).text ∈ FunCode.header result name params inlineHint := by
  have hmem : (Operand.arg n).text ∈ (FunCode.header result name params inlineHint).filter isLocal := by
    rw [filter_header]
    exact mem_map_of_mem (mem_map_of_mem (List.mem_range.mpr h))
  exact (List.mem_filter.mp hmem).1

theorem isNamed_of_mem_locals (h : f.Closed S) (ho : o ∈ f.locals) : o.isNamed = true := by
  rcases mem_append.mp ho with ho | ho
  · rcases mem_append.mp ho with ho | ho
    · obtain ⟨n, -, rfl⟩ := mem_map.mp ho
      rfl
    · obtain ⟨a, ha, rfl⟩ := mem_map.mp ho
      rcases (h.slots a ha).1 with ⟨v, hslot⟩ | ⟨n, hslot⟩ <;> rw [hslot] <;> rfl
  · obtain ⟨b, hb, ho⟩ := mem_flatMap.mp ho
    obtain ⟨i, hi, hresult⟩ := mem_filterMap.mp ho
    obtain ⟨n, rfl⟩ := (h.blocks b hb).results i hi o hresult
    rfl

/-- Closed code that defines nothing twice is written as a closed body. -/
theorem closedBody (h : (FunCode.define result name params inlineHint slots entry blocks).Closed S) (hS : S.params = params)
    (hlocals : (FunCode.define result name params inlineHint slots entry blocks).locals.Nodup)
    (hlabels : (FunCode.define result name params inlineHint slots entry blocks).labels.Nodup) :
    ClosedBody (FunCode.header result name params inlineHint) (FunCode.bodyLines slots entry blocks) where
  once := by
    rw [filter_header, filterMap_bodyLines, ← List.map_append, ← append_assoc]
    exact List.Nodup.map_on (fun o ho o' _ he => Operand.text_inj (isNamed_of_mem_locals h ho) he) hlocals
  temps := fun before l after hplace n hn => temp_defined h hplace hn
  entry := rfl
  slots := by
    have hslots : (slots.map (·.slot)).Nodup := (List.nodup_append.mp (List.nodup_append.mp hlocals).1).2.1
    intro n w hw l hl hused
    have hresolves := (bodyLine_of_mem hl).resolves h hused
    rcases mem_cons.mp hw with rfl | hw
    · obtain ⟨code, hknown⟩ := Word.of_text (o := .slot ⟨n⟩) hresolves rfl
      exact slot_allocated h hslots (o := .slot ⟨n⟩) rfl hknown
    · rw [List.mem_singleton.mp hw] at hresolves ⊢
      obtain ⟨code, hknown⟩ := Word.of_text (o := .spill n) hresolves rfl
      exact slot_allocated h hslots (o := .spill n) rfl hknown
  params := by
    intro n l hl hused
    obtain ⟨code, hknown⟩ := Word.of_text (o := .arg n) ((bodyLine_of_mem hl).resolves h hused) rfl
    exact mem_header_of_lt (hS ▸ hknown)
  blocks := fun n l hl hb => block_labelled h hlabels hl (b := ⟨n⟩) hb

end Body

end BlockCompiler.Target
