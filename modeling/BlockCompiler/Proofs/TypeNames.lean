/-
  BlockCompiler.Proofs.TypeNames — what the name of a type says.

  Names have few brackets: a pointer, an array and a function end where their last part ends, and a sum
  is its variants, each with a bar after it. So the bars of a sum can be taken for those of the type that it
  ends, and two types can have one name (`pointer_sum_ambiguous`). That is the only way in which they can.

  (1) A name starts with a sign or with a word, which can be told from what follows (`Head.read_text`).
  (2) Behind it stand the names of the parts (`Ty.Body`, `body_of_name`).
  (3) Where the end of every sum is marked (`Delimited`), one name is read in one way, together with the
      text behind it (`reads`). So it belongs to one type (`typeName_identifies`).
-/
import BlockCompiler.Proofs.Builds
import BlockCompiler.Proofs.Interning

namespace BlockCompiler

open List (append_assoc cons_append mem_cons mem_map_of_mem)

/-! ## (1) Heads -/

namespace Naming

/-- The characters that names of types are put together with. -/
def marks : List Char := [' ', '*', '[', ']', '{', '}', '(', ')', ',', '|']

/-- Can be told from what stands around it. -/
def IsWord (name : String) : Prop := name ≠ "" ∧ ∀ c ∈ name.toList, c ∉ marks

instance : DecidablePred IsWord := fun _ => @instDecidableAnd _ _ _ (List.decidableBAll _ _)

/-- A text is cut where its first part goes on and the second does not. -/
theorem cut {p : Char → Bool} {w r : List Char} (hw : ∀ c ∈ w, p c = true) (hr : ∀ c ∈ r.head?, p c = false) :
    (w ++ r).takeWhile p = w ∧ (w ++ r).dropWhile p = r := by
  rw [List.takeWhile_append_of_pos hw, List.dropWhile_append_of_pos hw]
  cases r with
  | nil => simp
  | cons c r => simp [hr c rfl]

theorem append_inj {p : Char → Bool} {w w' r r' : List Char} (hw : ∀ c ∈ w, p c = true) (hw' : ∀ c ∈ w', p c = true)
    (hr : ∀ c ∈ r.head?, p c = false) (hr' : ∀ c ∈ r'.head?, p c = false) (h : w ++ r = w' ++ r') : w = w' ∧ r = r' := by
  rw [← (cut hw hr).1, ← (cut hw' hr').1, h, (cut hw' hr').1, ← (cut hw hr).2, h]
  exact ⟨rfl, (cut hw' hr').2⟩

/-- What can follow the name of a part: nothing, or a blank and no character of those given. -/
def Stops (except : List Char) (text : List Char) : Prop := text = [] ∨ ∃ c rest, text = ' ' :: c :: rest ∧ c ∉ except

theorem Stops.mono {except except' : List Char} {text : List Char} (h : Stops except text) (hsub : except' ⊆ except) :
    Stops except' text := by
  rcases h with rfl | ⟨c, rest, rfl, hc⟩
  · exact .inl rfl
  · exact .inr ⟨c, rest, rfl, fun hmem => hc (hsub hmem)⟩

/-- What the name of a type starts with. -/
inductive Head where
  | ptr
  | array
  | struct
  | func
  | word (text : List Char)
  deriving DecidableEq

namespace Head

def text : Head → List Char
  | ptr => ['*']
  | array => ['[']
  | struct => ['{']
  | func => ['f', 'u', 'n', ' ', '(']
  | word text => text

/-- The head of a name, and the text behind it. -/
def read : List Char → Head × List Char
  | '*' :: rest => (ptr, rest)
  | '[' :: rest => (array, rest)
  | '{' :: rest => (struct, rest)
  | text =>
    let first := text.takeWhile (· ≠ ' ')
    let rest := text.dropWhile (· ≠ ' ')
    if first = ['f', 'u', 'n'] ∧ rest.take 2 = [' ', '('] then (func, rest.drop 2) else (word first, rest)

/-- A word has no blank and starts with no sign. -/
def Legible : Head → Prop
  | word text => ' ' ∉ text ∧ ∀ c ∈ text.head?, c ≠ '*' ∧ c ≠ '[' ∧ c ≠ '{'
  | _ => True

theorem read_text {head : Head} (h : head.Legible) {rest : List Char} (hstop : ∀ w, head = word w → Stops ['('] rest) :
    read (head.text ++ rest) = (head, rest) := by
  cases head with
  | ptr | array | struct => rfl
  | func => simp [text, read]
  | word w =>
    have hrest : ∀ c ∈ rest.head?, decide (c ≠ ' ') = false := by
      rcases hstop w rfl with rfl | ⟨c, rest, rfl, -⟩ <;> simp
    have hnot : rest.take 2 ≠ [' ', '('] := by
      rcases hstop w rfl with rfl | ⟨c, rest, rfl, hc⟩ <;> simp_all
    obtain ⟨hfirst, hrest⟩ := cut (p := fun c => decide (c ≠ ' ')) (w := w) (fun c hc => by
      simp only [ne_eq, decide_not, Bool.not_eq_eq_eq_not, Bool.not_true, decide_eq_false_iff_not]
      rintro rfl
      exact h.1 hc) hrest
    have hsign : ∀ c k, w ++ rest = c :: k → c ≠ '*' ∧ c ≠ '[' ∧ c ≠ '{' := fun c k heq => by
      cases w with
      | nil =>
        rcases hstop [] rfl with rfl | ⟨c', k', rfl, -⟩
        · cases heq
        · cases heq
          decide
      | cons c' w => exact (List.cons.inj heq).1 ▸ h.2 c' rfl
    rw [text, read]
    · simp only [hfirst, hrest, hnot, and_false, if_false]
    · exact fun k heq => (hsign _ k heq).1 rfl
    · exact fun k heq => (hsign _ k heq).2.1 rfl
    · exact fun k heq => (hsign _ k heq).2.2 rfl

end Head

end Naming

/-! ## (2) Parts -/

open Naming

namespace Ty

/-- The word that a type is shown by which is not made of others. -/
def word : Ty → String
  | int signed width => (if signed then "i" else "u") ++ toString width
  | float double => if double then "f64" else "f32"
  | bool => "bool"
  | unit => "()"
  | invalid => "INVALID"
  | named name _ => name
  | _ => ""

def head : Ty → Head
  | ptr _ => .ptr
  | array _ _ => .array
  | struct _ => .struct
  | func _ => .func
  | ty => .word ty.word.toList

/-- Names, each with the text behind it. -/
def Listed (names : TypeId → List Char → Prop) : List (TypeId × List Char) → List Char → Prop
  | [], text => text = []
  | (id, after) :: rest, text => ∃ name others, names id name ∧ Listed names rest others ∧ text = name ++ (after ++ others)

def label (name : String) (gap : List Char) : List Char := ' ' :: (name.toList ++ ',' :: gap)

def fieldItem (f : Field) : TypeId × List Char := (f.ty, label f.name [])

def paramItem (p : Parameter) : TypeId × List Char := (p.ty, label (p.name.getD "") [' '])

def variantItem (v : TypeId) : TypeId × List Char := (v, [' ', '|', ' '])

/-- The text behind the head, given the names of the parts. -/
def Body (names : TypeId → List Char → Prop) : Ty → List Char → Prop
  | ptr pointee, body => names pointee body
  | array element length, body => ∃ name, names element name ∧ body = (toString length).toList ++ ']' :: name
  | struct fields, body => ∃ items, Listed names (fields.map fieldItem) items ∧ body = items ++ ['}']
  | sum variants, body => Listed names (variants.map variantItem) body
  | func signature, body => ∃ items name, Listed names (signature.params.map paramItem) items ∧
      names signature.result name ∧ body = items ++ [')', ' ', '-', '>', ' '] ++ name
  | _, body => body = []

end Ty

namespace TypeTable

variable {t : TypeTable}

/-- The name of a type, which is some levels deep. -/
def Shows (t : TypeTable) (id : TypeId) (text : List Char) : Prop :=
  ∃ depth name, t.nameWithin depth id = .ok name ∧ name.toList = text

theorem listed_of_mapM {α : Type} {item : α → TypeId × List Char} {f : α → Except Fault String}
    (h : ∀ x s, f x = .ok s → ∃ name, t.Shows (item x).1 name ∧ s.toList = name ++ (item x).2) :
    ∀ {xs : List α} {parts : List String}, xs.mapM f = .ok parts →
      Ty.Listed t.Shows (xs.map item) (String.join parts).toList
  | [], parts, hmap => by
    cases hmap
    rfl
  | x :: rest, parts, hmap => by
    rw [List.mapM_cons] at hmap
    obtain ⟨s, hs, hmap⟩ := bind_eq_ok.mp hmap
    obtain ⟨others, hothers, hmap⟩ := bind_eq_ok.mp hmap
    cases hmap
    obtain ⟨name, hname, hs⟩ := h x s hs
    refine ⟨name, _, hname, listed_of_mapM h hothers, ?_⟩
    simp [String.join_cons, hs]

theorem body_of_name {id : TypeId} {text : List Char} (h : t.Shows id text) :
    ∃ ty body, t.get? id = some ty ∧ ty.Body t.Shows body ∧ text = ty.head.text ++ body := by
  obtain ⟨_ | n, s, hs, rfl⟩ := h
  · cases hs
  rw [nameWithin] at hs
  obtain ⟨ty, hty, hs⟩ := bind_eq_ok.mp hs
  have hty := Interner.get_eq_ok.mp hty
  refine ⟨ty, ?_⟩
  cases ty with
  | ptr pointee =>
    obtain ⟨name, hname, ⟨⟩⟩ := bind_eq_ok.mp hs
    exact ⟨_, hty, ⟨n, name, hname, rfl⟩, by simp [Ty.head, Head.text]⟩
  | array element length =>
    obtain ⟨name, hname, ⟨⟩⟩ := bind_eq_ok.mp hs
    refine ⟨_, hty, ⟨_, ⟨n, name, hname, rfl⟩, rfl⟩, ?_⟩
    have hopen : (toString "[").toList = ['['] := rfl
    have hclose : (toString "]").toList = [']'] := rfl
    simp [Ty.head, Head.text, hopen, hclose]
  | struct fields =>
    obtain ⟨parts, hparts, ⟨⟩⟩ := bind_eq_ok.mp hs
    have hitems : Ty.Listed t.Shows (fields.map Ty.fieldItem) (String.join parts).toList := by
      refine listed_of_mapM (fun f s hf => ?_) hparts
      obtain ⟨name, hname, ⟨⟩⟩ := bind_eq_ok.mp hf
      exact ⟨_, ⟨n, name, hname, rfl⟩, by simp [Ty.fieldItem, Ty.label]⟩
    exact ⟨_, hty, ⟨_, hitems, rfl⟩, by simp [Ty.head, Head.text]⟩
  | sum variants =>
    obtain ⟨parts, hparts, ⟨⟩⟩ := bind_eq_ok.mp hs
    have hitems : Ty.Listed t.Shows (variants.map Ty.variantItem) (String.join parts).toList := by
      refine listed_of_mapM (fun v s hv => ?_) hparts
      obtain ⟨name, hname, ⟨⟩⟩ := bind_eq_ok.mp hv
      exact ⟨_, ⟨n, name, hname, rfl⟩, by simp [Ty.variantItem]⟩
    exact ⟨_, hty, hitems, rfl⟩
  | func signature =>
    obtain ⟨parts, hparts, hs⟩ := bind_eq_ok.mp hs
    obtain ⟨name, hname, ⟨⟩⟩ := bind_eq_ok.mp hs
    have hitems : Ty.Listed t.Shows (signature.params.map Ty.paramItem) (String.join parts).toList := by
      refine listed_of_mapM (fun p s hp => ?_) hparts
      obtain ⟨name, hname, ⟨⟩⟩ := bind_eq_ok.mp hp
      exact ⟨_, ⟨n, name, hname, rfl⟩, by simp [Ty.paramItem, Ty.label]⟩
    exact ⟨_, hty, ⟨_, _, hitems, ⟨n, name, hname, rfl⟩, rfl⟩, by simp [Ty.head, Head.text]⟩
  | _ =>
    cases hs
    exact ⟨_, hty, rfl, (List.append_nil _).symm⟩

end TypeTable

/-! ## (3) Reading names -/

/-- Lists of items are read in one way if items are, and the list's end cannot be taken for one. -/
theorem Ty.Listed.inj {α : Type} {item : α → TypeId × List Char} {names : TypeId → List Char → Prop}
    {E : List Char → Prop} {r r' : List Char} (hr : E r) (hr' : E r') : ∀ {xs ys : List α} {x y : List Char},
    Listed names (xs.map item) x → Listed names (ys.map item) y →
    (∀ p ∈ xs, ∀ q ∈ ys, ∀ s s' k k', names (item p).1 s → names (item q).1 s' →
      s ++ ((item p).2 ++ k) = s' ++ ((item q).2 ++ k') → p = q ∧ k = k') →
    (∀ p, p ∈ xs ∨ p ∈ ys → ∀ s k, names (item p).1 s → ¬ E (s ++ ((item p).2 ++ k))) → x ++ r = y ++ r' →
    xs = ys ∧ r = r'
  | [], [], _, _, hx, hy, _, _, heq => by
    cases hx
    cases hy
    exact ⟨rfl, heq⟩
  | [], q :: ys, _, _, hx, hy, _, hend, heq => by
    cases hx
    obtain ⟨s, others, hs, -, rfl⟩ := hy
    rw [List.nil_append, append_assoc, append_assoc] at heq
    exact absurd (heq ▸ hr) (hend q (.inr (.head _)) s _ hs)
  | p :: xs, [], _, _, hx, hy, _, hend, heq => by
    cases hy
    obtain ⟨s, others, hs, -, rfl⟩ := hx
    rw [List.nil_append, append_assoc, append_assoc] at heq
    exact absurd (heq ▸ hr') (hend p (.inl (.head _)) s _ hs)
  | p :: xs, q :: ys, _, _, hx, hy, hitem, hend, heq => by
    obtain ⟨s, others, hs, hothers, rfl⟩ := hx
    obtain ⟨s', others', hs', hothers', rfl⟩ := hy
    rw [append_assoc, append_assoc, append_assoc, append_assoc] at heq
    obtain ⟨rfl, hrest⟩ := hitem p (.head _) q (.head _) s s' _ _ hs hs' heq
    obtain ⟨rfl, hr⟩ := inj hr hr' hothers hothers' (fun p hp q hq => hitem p (.tail _ hp) q (.tail _ hq))
      (fun p hp => hend p (hp.imp (.tail _) (.tail _))) hrest
    exact ⟨rfl, hr⟩

namespace Ty

/-- A sum with variants. -/
def isListing : Ty → Bool
  | sum (_ :: _) => true
  | _ => false

/-- The names of fields and parameters are words, and so are those of aliases, but not the words that the
primitive types are shown by. -/
def WellNamed : Ty → Prop
  | named name _ => IsWord name ∧ name ∉ primitives.map word
  | struct fields => ∀ f ∈ fields, IsWord f.name
  | func signature => ∀ p ∈ signature.params, ∀ name ∈ p.name, IsWord name
  | _ => True

instance : DecidablePred WellNamed
  | named name _ => inferInstanceAs (Decidable (IsWord name ∧ name ∉ primitives.map word))
  | struct fields => inferInstanceAs (Decidable (∀ f ∈ fields, IsWord f.name))
  | func signature => inferInstanceAs (Decidable (∀ p ∈ signature.params, ∀ name ∈ p.name, IsWord name))
  | int _ _ | float _ | bool | unit | ptr _ | array _ _ | sum _ | invalid => .isTrue trivial

/-- The key of the type shown by a word. -/
def ofWord (w : List Char) : Ty :=
  if w = [] then sum [] else (primitives.find? (·.word.toList = w)).getD (named (String.ofList w) TypeId.invalid)

/-- The parts whose end nothing marks. -/
def trailing : Ty → List TypeId
  | ptr pointee => [pointee]
  | array element _ => [element]
  | sum variants => variants
  | func signature => [signature.result]
  | _ => []

theorem mentions_of_trailing {ty : Ty} {part : TypeId} (h : part ∈ ty.trailing) :
    ty.isNamed = false ∧ part ∈ ty.mentions := by
  cases ty <;> simp_all [trailing, isNamed, mentions]

end Ty

namespace TypeTable

variable {t : TypeTable} {a b : TypeId} {x y r r' : List Char}

/-- No sum with variants. -/
def Single (t : TypeTable) (id : TypeId) : Prop := ∀ ty ∈ t.get? id, ty.isListing = false

instance (id : TypeId) : Decidable (t.Single id) := inferInstanceAs (Decidable (∀ ty ∈ t.get? id, ty.isListing = false))

/-- No sum with variants stands in the type where nothing marks its end. Aliases are shown by their names, so
what they stand for is no matter. -/
inductive Delimited (t : TypeTable) : TypeId → Prop
  | intro {id : TypeId} {ty : Ty} : t.get? id = some ty → (∀ part ∈ ty.trailing, t.Single part) →
      (ty.isNamed = false → ∀ part ∈ ty.mentions, Delimited t part) → Delimited t id

/-- Types are delimited if they are made of earlier ones, and none has a sum with variants where its end is not
marked. -/
theorem delimited_of_earlier (h : ∀ i < t.size, ∀ ty ∈ t.get? ⟨i⟩, (∀ part ∈ ty.trailing, t.Single part) ∧
    (ty.isNamed = false → ∀ part ∈ ty.mentions, part.index < i)) (i : Nat) (hi : i < t.size) : t.Delimited ⟨i⟩ := by
  induction i using Nat.strongRecOn with
  | _ i ih =>
    obtain ⟨ty, hty⟩ := Interner.get?_of_lt (s := t) (h := ⟨i⟩) hi
    obtain ⟨htrail, hearlier⟩ := h i hi ty hty
    refine .intro hty htrail fun hn part hpart => ?_
    have hlt := hearlier hn part hpart
    exact ih part.index hlt (Nat.lt_trans hlt hi)

theorem Delimited.parts (h : t.Delimited a) {ty : Ty} (hty : t.get? a = some ty) :
    (∀ part ∈ ty.trailing, t.Single part) ∧ (ty.isNamed = false → ∀ part ∈ ty.mentions, t.Delimited part) := by
  cases h with
  | intro hty' htrailing hmentions =>
    cases hty.symm.trans hty'
    exact ⟨htrailing, hmentions⟩

/-- No type is there twice, and those that are not made of others are aliases and the primitive ones. -/
structure Readable (t : TypeTable) : Prop where
  names : ∀ id ty, t.get? id = some ty → ty.WellNamed
  single : ∀ id id' ty ty', t.get? id = some ty → t.get? id' = some ty' → ty.key = ty'.key → id = id'
  primitive : ∀ id ty, t.get? id = some ty → ty.isCompound = false → ty.isNamed = false → ty ∈ Ty.primitives

section

variable (h : t.Readable)
include h

section

variable {ty : Ty} (hty : t.get? a = some ty)
include hty

/-- A type that is not made of others is shown by a word. -/
theorem Readable.word (hplain : ty.isCompound = false) :
    ty.word.toList ≠ [] ∧ ' ' ∉ ty.word.toList ∧ ∀ c ∈ ty.word.toList.head?, c ∉ ['*', '[', '{', '}', ')'] := by
  cases hn : ty.isNamed with
  | false =>
    have hall : ∀ ty ∈ Ty.primitives, ty.word.toList ≠ [] ∧ ' ' ∉ ty.word.toList ∧
        ty.word.toList.head?.all (· ∉ ['*', '[', '{', '}', ')']) = true := by decide +kernel
    obtain ⟨hne, hblank, hstart⟩ := hall ty (h.primitive a ty hty hplain hn)
    refine ⟨hne, hblank, fun c hc => ?_⟩
    rw [hc] at hstart
    exact of_decide_eq_true hstart
  | true =>
    cases ty with
    | named name u =>
      obtain ⟨⟨hne, hmarks⟩, -⟩ := h.names a _ hty
      refine ⟨by simpa [Ty.word] using hne, fun hblank => hmarks ' ' hblank (by decide), fun c hc hmem => ?_⟩
      refine hmarks c (List.mem_of_mem_head? hc) ?_
      revert hmem
      simp only [marks, mem_cons]
      tauto
    | _ => cases hn

theorem Readable.legible : ty.head.Legible := by
  cases hc : ty.isCompound with
  | false =>
    obtain ⟨-, hblank, hstart⟩ := h.word hty hc
    have hsign : ∀ c ∈ ty.word.toList.head?, c ≠ '*' ∧ c ≠ '[' ∧ c ≠ '{' := fun c hmem => by
      have hnot := hstart c hmem
      simp only [mem_cons, not_or] at hnot
      exact ⟨hnot.1, hnot.2.1, hnot.2.2.1⟩
    cases ty <;> first | exact ⟨hblank, hsign⟩ | trivial
  | true =>
    cases ty with
    | sum => exact ⟨by simp [Ty.word], by simp [Ty.word]⟩
    | ptr | array | struct | func => trivial
    | _ => cases hc

theorem Readable.key_eq_ofWord {w : List Char} (hs : ty.isListing = false) (hhead : ty.head = .word w)
    : ty.key = Ty.ofWord w := by
  cases hc : ty.isCompound with
  | true =>
    cases ty with
    | sum variants =>
      cases variants with
      | nil =>
        cases hhead
        rfl
      | cons => cases hs
    | ptr | array | struct | func => cases hhead
    | _ => cases hc
  | false =>
    cases hn : ty.isNamed with
    | false =>
      have hall : ∀ ty ∈ Ty.primitives, ty.head = .word ty.word.toList ∧ ty.key = Ty.ofWord ty.word.toList := by
        decide +kernel
      obtain ⟨hword, hkey⟩ := hall ty (h.primitive a ty hty hc hn)
      cases hhead.symm.trans hword
      exact hkey
    | true =>
      cases ty with
      | named name u =>
        cases hhead
        obtain ⟨⟨hne, -⟩, hnot⟩ := h.names a _ hty
        have hfind : Ty.primitives.find? (·.word.toList = name.toList) = none := by
          refine List.find?_eq_none.mpr fun p hp hword => hnot (List.mem_map.mpr ⟨p, hp, ?_⟩)
          exact String.toList_inj.mp (of_decide_eq_true hword)
        have hword : (Ty.named name u).word.toList = name.toList := rfl
        rw [hword, Ty.ofWord, hfind, if_neg (by simpa using hne), String.ofList_toList]
        rfl
      | _ => cases hn

end

end

/-- A name that starts with a word is that word, unless it is the name of a sum with variants. -/
theorem body_of_word {names : TypeId → List Char → Prop} {ty : Ty} {body w : List Char} (hbody : ty.Body names body)
    (hhead : ty.head = .word w) (hs : ty.isListing = false) : body = [] := by
  cases ty with
  | ptr | array | struct | func => cases hhead
  | sum variants =>
    cases variants with
    | nil => exact hbody
    | cons => cases hs
  | _ => exact hbody

/-- Among types other than sums with variants, only this one has its name. -/
def Reads (t : TypeTable) (a : TypeId) : Prop := ∀ ⦃b x y r r'⦄, t.Shows a x → t.Shows b y → t.Delimited b →
  t.Single a → t.Single b → Stops ['('] r → Stops ['('] r' → x ++ r = y ++ r' → a = b ∧ r = r'

/-- Among all types only this one does, if no bar can follow. -/
def ReadsAll (t : TypeTable) (a : TypeId) : Prop := ∀ ⦃b x y r r'⦄, t.Shows a x → t.Shows b y → t.Delimited b →
  Stops ['(', '|'] r → Stops ['(', '|'] r' → x ++ r = y ++ r' → a = b ∧ r = r'

/-- A sum with variants is known by its list of variants, none of which is such a sum. -/
theorem Delimited.single_or_listing (hd : t.Delimited a) (hx : t.Shows a x) : t.Single a ∨
    ∃ v vs, t.get? a = some (.sum (v :: vs)) ∧ (∀ u ∈ v :: vs, t.Single u ∧ t.Delimited u) ∧
      Ty.Listed t.Shows ((v :: vs).map Ty.variantItem) x := by
  obtain ⟨ty, body, hty, hbody, rfl⟩ := body_of_name hx
  cases hs : ty.isListing with
  | false => exact .inl fun ty' hty' => Option.some.inj (hty.symm.trans hty') ▸ hs
  | true =>
    refine .inr ?_
    cases ty with
    | sum variants =>
      cases variants with
      | nil => cases hs
      | cons v vs =>
        obtain ⟨htrail, hment⟩ := hd.parts hty
        exact ⟨v, vs, hty, fun u hu => ⟨htrail u hu, hment rfl u hu⟩, hbody⟩
    | _ => cases hs

theorem stops_bar (k : List Char) : Stops ['('] ([' ', '|', ' '] ++ k) := .inr ⟨_, _, rfl, by decide⟩

theorem not_stops_bar (k : List Char) : ¬ Stops ['(', '|'] ([' ', '|', ' '] ++ k) := by
  rintro (h | ⟨c, rest, h, hc⟩)
  · cases h
  · cases h
    revert hc
    decide

theorem stops_label {name : String} (hname : ∀ c ∈ name.toList, c ∉ marks) (gap k : List Char) :
    Stops ['(', '|'] (Ty.label name gap ++ k) := by
  rw [Ty.label]
  cases hl : name.toList with
  | nil => exact .inr ⟨',', _, rfl, by decide⟩
  | cons c rest =>
    refine .inr ⟨c, _, rfl, fun hmem => hname c (by simp [hl]) ?_⟩
    simp only [mem_cons, List.not_mem_nil, or_false] at hmem
    rcases hmem with rfl | rfl <;> decide

theorem label_inj {name name' : String} (hname : ∀ c ∈ name.toList, c ∉ marks) (hname' : ∀ c ∈ name'.toList, c ∉ marks)
    {gap k k' : List Char} (heq : Ty.label name gap ++ k = Ty.label name' gap ++ k') : name = name' ∧ k = k' := by
  have hcomma : ∀ {w : List Char}, (∀ c ∈ w, c ∉ marks) → ∀ c ∈ w, decide (c ≠ ',') = true := fun hw c hc => by
    simp only [ne_eq, decide_not, Bool.not_eq_eq_eq_not, Bool.not_true, decide_eq_false_iff_not]
    rintro rfl
    exact hw _ hc (by decide)
  simp only [Ty.label, cons_append, append_assoc, List.cons.injEq, true_and] at heq
  obtain ⟨hw, hrest⟩ := append_inj (hcomma hname) (hcomma hname') (by simp) (by simp) heq
  exact ⟨String.toList_inj.mp hw, List.append_cancel_left (List.cons.inj hrest).2⟩

/-- A missing name can be told from a word. -/
theorem getD_marks {name : Option String} (h : ∀ w ∈ name, IsWord w) : ∀ c ∈ (name.getD "").toList, c ∉ marks := by
  cases name with
  | none => simp
  | some w => exact (h w rfl).2

theorem getD_inj {name name' : Option String} (h : ∀ w ∈ name, IsWord w) (h' : ∀ w ∈ name', IsWord w)
    (heq : name.getD "" = name'.getD "") : name = name' := by
  cases name with
  | none =>
    cases name' with
    | none => rfl
    | some w => exact absurd heq.symm (h' w rfl).1
  | some w =>
    cases name' with
    | none => exact absurd heq (h w rfl).1
    | some w' => exact congrArg some heq

theorem digits_inj {length length' : UInt64} {k k' : List Char}
    (heq : (toString length).toList ++ ']' :: k = (toString length').toList ++ ']' :: k') : length = length' ∧ k = k' := by
  have htext : ∀ l : UInt64, (toString l).toList = Nat.toDigits 10 l.toNat := fun l => Nat.toList_repr
  rw [htext, htext] at heq
  have hdigit : ∀ l c, c ∈ Nat.toDigits 10 l → c.isDigit = true := fun l c hc =>
    Nat.isDigit_of_mem_toDigits (by decide) (by decide) hc
  obtain ⟨hl, hrest⟩ := append_inj (hdigit _) (hdigit _) (by simp) (by simp) heq
  have hnum := congrArg (Nat.ofDigitChars 10 · 0) hl
  simp only [Nat.ofDigitChars_ten_toDigits] at hnum
  exact ⟨UInt64.toNat_inj.mp hnum, (List.cons.inj hrest).2⟩

section

variable (h : t.Readable)
include h

/-- Only a name with a bar starts with a blank: that of a sum whose first variant has no name. -/
theorem Readable.start (hx : t.Shows a x) (hs : t.Single a) : ∀ c ∈ x.head?, c ∉ [' ', '}', ')'] := by
  obtain ⟨ty, body, hty, hbody, rfl⟩ := body_of_name hx
  have hword : ∀ w, ty.head = .word w → ty.isCompound = false → ty.word.toList = w →
      ∀ c ∈ (ty.head.text ++ body).head?, c ∉ [' ', '}', ')'] := fun w hhead hc hw c hmem => by
    obtain ⟨hne, hblank, hstart⟩ := h.word hty hc
    rw [body_of_word hbody hhead (hs ty hty), hhead, List.append_nil, Head.text, ← hw] at hmem
    have hnot := hstart c hmem
    have hmem := List.mem_of_mem_head? hmem
    simp only [mem_cons, not_or] at hnot ⊢
    refine ⟨?_, hnot.2.2.2⟩
    rintro rfl
    exact hblank hmem
  cases ty with
  | ptr | array | struct | func =>
    intro c hc
    cases hc
    decide
  | sum variants =>
    rw [body_of_word hbody rfl (hs _ hty)]
    simp [Ty.head, Ty.word, Head.text]
  | _ => exact hword _ rfl rfl rfl

theorem Readable.start_ne (hx : t.Shows a x) (hd : t.Delimited a) : ∀ c ∈ x.head?, c ∉ ['}', ')'] := by
  intro c hc
  rcases hd.single_or_listing hx with hs | ⟨v, vs, -, hparts, hlist⟩
  · exact List.not_mem_of_not_mem_cons (h.start hx hs c hc)
  · obtain ⟨s, others, hshow, -, rfl⟩ := hlist
    cases s with
    | nil =>
      cases hc
      decide
    | cons d s => exact List.not_mem_of_not_mem_cons (h.start hshow (hparts v (.head _)).1 c hc)

/-- Labelled items are read in one way, up to the bracket that closes their list. -/
theorem Readable.labels {α : Type} (ty : α → TypeId) (name : α → String) (gap : List Char) {close : Char}
    (hclose : close ∈ ['}', ')']) {xs ys : List α} {k k' : List Char} (hall : ∀ p ∈ xs, t.ReadsAll (ty p))
    (hitems : ∀ p, p ∈ xs ∨ p ∈ ys → t.Delimited (ty p) ∧ ∀ c ∈ (name p).toList, c ∉ marks)
    (hinj : ∀ p ∈ xs, ∀ q ∈ ys, ty p = ty q → name p = name q → p = q)
    (hx : Ty.Listed t.Shows (xs.map fun p => (ty p, Ty.label (name p) gap)) x)
    (hy : Ty.Listed t.Shows (ys.map fun q => (ty q, Ty.label (name q) gap)) y)
    (heq : x ++ close :: k = y ++ close :: k') : xs = ys ∧ k = k' := by
  have hend : ∀ p, p ∈ xs ∨ p ∈ ys → ∀ s k, t.Shows (ty p) s →
      ¬ (s ++ (Ty.label (name p) gap ++ k)).head? = some close := by
    intro p hp s k hshow hhead
    cases s with
    | nil =>
      cases hhead
      revert hclose
      decide
    | cons c s => exact h.start_ne hshow (hitems p hp).1 close hhead hclose
  have hread := Ty.Listed.inj (E := fun text => text.head? = some close) rfl rfl hx hy
    (fun p hp q hq s s' k k' hs hs' heq => by
      obtain ⟨-, hname⟩ := hitems p (.inl hp)
      obtain ⟨hd, hname'⟩ := hitems q (.inr hq)
      obtain ⟨hty, hrest⟩ := hall p hp hs hs' hd (stops_label hname gap k) (stops_label hname' gap k') heq
      obtain ⟨hname, hk⟩ := label_inj hname hname' hrest
      exact ⟨hinj p hp q hq hty hname, hk⟩) hend heq
  exact ⟨hread.1, (List.cons.inj hread.2).2⟩

theorem reads_step (hd : t.Delimited a) (ih : ∀ ty ∈ t.get? a, ty.isNamed = false →
    ∀ part ∈ ty.mentions, t.Reads part ∧ t.ReadsAll part) : t.Reads a := by
  intro b x y r r' hx hy hd' hs hs' hr hr' heq
  obtain ⟨ty, body, hty, hbody, rfl⟩ := body_of_name hx
  obtain ⟨ty', body', hty', hbody', rfl⟩ := body_of_name hy
  have hread := congrArg Head.read heq
  rw [append_assoc, append_assoc, Head.read_text (h.legible hty) fun w hw => by
      rwa [body_of_word hbody hw (hs ty hty)],
    Head.read_text (h.legible hty') fun w hw => by rwa [body_of_word hbody' hw (hs' ty' hty')]] at hread
  obtain ⟨hhead, htext⟩ := Prod.mk.inj hread
  obtain ⟨htrail, hment⟩ := hd.parts hty
  obtain ⟨htrail', hment'⟩ := hd'.parts hty'
  suffices hkey : ty.key = ty'.key ∧ r = r' from ⟨h.single a b ty ty' hty hty' hkey.1, hkey.2⟩
  have hword : ∀ w, ty.head = .word w → ty.key = ty'.key ∧ r = r' := fun w hw => by
    have hw' := hhead ▸ hw
    rw [body_of_word hbody hw (hs ty hty), body_of_word hbody' hw' (hs' ty' hty')] at htext
    exact ⟨(h.key_eq_ofWord hty (hs ty hty) hw).trans (h.key_eq_ofWord hty' (hs' ty' hty') hw').symm, htext⟩
  have hlast : ∀ {p p' s s'}, p ∈ ty.trailing → p' ∈ ty'.trailing → t.Shows p s → t.Shows p' s' →
      s ++ r = s' ++ r' → p = p' ∧ r = r' := fun hp hp' hshow hshow' heq => by
    obtain ⟨hn, hmem⟩ := Ty.mentions_of_trailing hp
    obtain ⟨hn', hmem'⟩ := Ty.mentions_of_trailing hp'
    exact (ih ty hty hn _ hmem).1 hshow hshow' (hment' hn' _ hmem') (htrail _ hp) (htrail' _ hp') hr hr' heq
  cases ty with
  | ptr p =>
    cases ty' with
    | ptr p' =>
      obtain ⟨rfl, hrest⟩ := hlast (.head _) (.head _) hbody hbody' htext
      exact ⟨rfl, hrest⟩
    | _ => cases hhead
  | array e len =>
    cases ty' with
    | array e' len' =>
      obtain ⟨s, hs, rfl⟩ := hbody
      obtain ⟨s', hs', rfl⟩ := hbody'
      rw [append_assoc, append_assoc, cons_append, cons_append] at htext
      obtain ⟨rfl, hafter⟩ := digits_inj htext
      obtain ⟨rfl, hrest⟩ := hlast (.head _) (.head _) hs hs' hafter
      exact ⟨rfl, hrest⟩
    | _ => cases hhead
  | struct fields =>
    cases ty' with
    | struct fields' =>
      obtain ⟨s, hs, rfl⟩ := hbody
      obtain ⟨s', hs', rfl⟩ := hbody'
      rw [append_assoc, append_assoc] at htext
      obtain ⟨rfl, hrest⟩ := h.labels Field.ty Field.name [] (by decide)
        (fun f hf => (ih _ hty rfl f.ty (mem_map_of_mem hf)).2)
        (fun f => Or.rec (fun hf => ⟨hment rfl f.ty (mem_map_of_mem hf), (h.names a _ hty f hf).2⟩)
          fun hf => ⟨hment' rfl f.ty (mem_map_of_mem hf), (h.names b _ hty' f hf).2⟩)
        (fun f _ g _ hty hname => by cases f; cases g; cases hty; cases hname; rfl) hs hs' htext
      exact ⟨rfl, hrest⟩
    | _ => cases hhead
  | func signature =>
    cases ty' with
    | func signature' =>
      obtain ⟨s, res, hs, hres, rfl⟩ := hbody
      obtain ⟨s', res', hs', hres', rfl⟩ := hbody'
      rw [append_assoc, append_assoc, append_assoc, append_assoc] at htext
      have hwords : ∀ p ∈ signature.params, ∀ name ∈ p.name, IsWord name := h.names a _ hty
      have hwords' : ∀ p ∈ signature'.params, ∀ name ∈ p.name, IsWord name := h.names b _ hty'
      obtain ⟨hparams, htext⟩ := h.labels Parameter.ty (·.name.getD "") [' '] (by decide)
        (fun p hp => (ih _ hty rfl p.ty (.tail _ (mem_map_of_mem hp))).2)
        (fun p => Or.rec (fun hp => ⟨hment rfl p.ty (.tail _ (mem_map_of_mem hp)), getD_marks (hwords p hp)⟩)
          fun hp => ⟨hment' rfl p.ty (.tail _ (mem_map_of_mem hp)), getD_marks (hwords' p hp)⟩)
        (fun p hp q hq hty hname => by
          have hname := getD_inj (hwords p hp) (hwords' q hq) hname
          cases p; cases q; cases hty; cases hname; rfl) hs hs' htext
      obtain ⟨hresult, hrest⟩ := hlast (.head _) (.head _) hres hres' (List.append_cancel_left htext)
      refine ⟨?_, hrest⟩
      cases signature; cases signature'; cases hparams; cases hresult; rfl
    | _ => cases hhead
  | _ => exact hword _ rfl

/-- A sum with variants starts like no other type, as a bar follows its first variant. -/
theorem readsAll_step (hd : t.Delimited a) (hreads : t.Reads a) (ih : ∀ ty ∈ t.get? a, ty.isNamed = false →
    ∀ part ∈ ty.mentions, t.Reads part ∧ t.ReadsAll part) : t.ReadsAll a := by
  intro b x y r r' hx hy hd' hr hr' heq
  rcases hd.single_or_listing hx with hs | ⟨v, vs, hty, hparts, hlist⟩
  · have hr1 : Stops ['('] r := hr.mono (by simp)
    rcases hd'.single_or_listing hy with hs' | ⟨v, vs, -, hparts, hlist⟩
    · exact hreads hx hy hd' hs hs' hr1 (hr'.mono (by simp)) heq
    · obtain ⟨s, others, hshow, -, rfl⟩ := hlist
      obtain ⟨hsv, hdv⟩ := hparts v (.head _)
      rw [append_assoc, append_assoc] at heq
      obtain ⟨-, rfl⟩ := hreads hx hshow hdv hs hsv hr1 (stops_bar _) heq
      exact absurd hr (not_stops_bar _)
  · have hvs : ∀ u ∈ v :: vs, t.Reads u := fun u hu => (ih _ hty rfl u hu).1
    rcases hd'.single_or_listing hy with hs' | ⟨v', vs', hty', hparts', hlist'⟩
    · obtain ⟨s, others, hshow, -, rfl⟩ := hlist
      rw [append_assoc, append_assoc] at heq
      obtain ⟨-, rfl⟩ := hvs v (.head _) hshow hy hd' (hparts v (.head _)).1 hs' (stops_bar _) (hr'.mono (by simp)) heq
      exact absurd hr' (not_stops_bar _)
    · have hend : ∀ z, z ∈ v :: vs ∨ z ∈ v' :: vs' → ∀ s k, t.Shows z s →
          ¬ Stops ['(', '|'] (s ++ ([' ', '|', ' '] ++ k)) := by
        intro z hz s k hshow hstop
        cases s with
        | nil => exact not_stops_bar k hstop
        | cons c s =>
          have hsz : t.Single z := hz.elim (fun hz => (hparts z hz).1) fun hz => (hparts' z hz).1
          rcases hstop with hstop | ⟨d, rest, hstop, -⟩
          · cases hstop
          · exact h.start hshow hsz c rfl ((List.cons.inj hstop).1 ▸ .head _)
      obtain ⟨hlist, hrest⟩ := Ty.Listed.inj (E := Stops ['(', '|']) hr hr' hlist hlist'
        (fun z hz z' hz' s s' k k' hs hs' heq => by
          obtain ⟨hzz, hk⟩ := hvs z hz hs hs' (hparts' z' hz').2 (hparts z hz).1 (hparts' z' hz').1 (stops_bar _)
            (stops_bar _) heq
          exact ⟨hzz, by simpa using hk⟩) hend heq
      exact ⟨h.single a b _ _ hty hty' (by rw [hlist]), hrest⟩

theorem reads (hd : t.Delimited a) : t.Reads a ∧ t.ReadsAll a := by
  induction hd with
  | intro hty htrail hment ih =>
    have hd : t.Delimited _ := .intro hty htrail hment
    have hparts : ∀ ty' ∈ t.get? _, ty'.isNamed = false → ∀ part ∈ ty'.mentions, t.Reads part ∧ t.ReadsAll part :=
      fun ty' hty' => Option.some.inj (hty.symm.trans hty') ▸ ih
    have hreads := reads_step h hd hparts
    exact ⟨hreads, readsAll_step h hd hreads hparts⟩

end

/-- Names tell types apart in which the end of every sum is marked. -/
theorem Readable.name_inj (h : t.Readable) {text : String} (hda : t.Delimited a) (hdb : t.Delimited b)
    (ha : t.name a = .ok text) (hb : t.name b = .ok text) : a = b :=
  ((reads h hda).2 ⟨_, text, ha, rfl⟩ ⟨_, text, hb, rfl⟩ hdb (.inl rfl) (.inl rfl) rfl).1

end TypeTable

/-! ## (4) Types from annotations -/

open Lowering

/-- Requests made it of a fresh context, which took its types from annotations and aliases. -/
inductive Context.Annotated : Context → Prop
  | fresh : Annotated {}
  | step {s : State} (cfg : Settings) {r : Request} : Annotated s.context → r.developing = true →
      Annotated (r.perform cfg s).context

namespace Context

variable {c : Context}

theorem Annotated.develops (h : c.Annotated) : Develops Any {} c := by
  induction h with
  | fresh => exact .refl
  | @step s cfg r _ hr ih =>
    have hfrom : From Any { s with context := {} } s := ⟨ih, fun _ => .inl⟩
    exact (Request.perform_of_keeps (Request.keeps_from hr cfg _) hfrom).develops

theorem annotated_performAll : ∀ (rs : List Request) {s : State}, s.context.Annotated →
    (∀ r ∈ rs, r.developing = true) → (Request.performAll rs s).context.Annotated
  | [], _, h, _ => h
  | r :: rs, _, h, hrs => annotated_performAll rs (.step {} h (hrs r (.head _))) fun r' hr' =>
      hrs r' (.tail r hr')

/-- In every context that takes its types from annotations and aliases, with words for names, a name is the name
of one type at most among those in which no sum with variants is pointed to, repeated, given by a function or
itself a variant, but through an alias. So where such types do not agree, the diagnostic shows two names. -/
theorem typeName_identifies (h : c.Annotated) (hnames : ∀ ty ∈ c.types.items, ty.WellNamed) :
    (∀ a b text, c.types.Delimited a → c.types.Delimited b → c.typeName a = .ok text → c.typeName b = .ok text → a = b) ∧
    (∀ (s s' : State) file span what expected found d, s.context = c → c.types.Delimited expected →
      c.types.Delimited found → assignable expected found = false →
      mismatch file span what expected found s = .ok d s' →
      ∃ wanted given, c.typeName expected = .ok wanted ∧ c.typeName found = .ok given ∧ wanted ≠ given ∧
        d.message = s!"Mismatched {what}: expected {wanted}, found {given}") ∧
    ∀ (st st' : Typing) env callee args span signature p v d, st.types = c.types → callee.ty ≠ TypeId.invalid →
      c.types.resolved callee.ty = .ok (.func signature) → signature.params.length = args.length →
      mismatch? signature.params args = some (p, v) → c.types.Delimited p.ty → c.types.Delimited v.ty →
      typedCall env callee args span st = .ok (.error d) st' →
      ∃ wanted given, c.typeName p.ty = .ok wanted ∧ c.typeName v.ty = .ok given ∧ wanted ≠ given ∧
        d.message = s!"Mismatched argument type: expected {wanted}, found {given}" := by
  have hread : c.types.Readable := ⟨fun _ _ hty => hnames _ (Array.mem_of_getElem? hty),
    (h.develops.types TypeTable.Keyed.kept TypeTable.fresh_keyed).single, h.develops.primitive⟩
  have hdiffer : ∀ {a b A B}, c.types.Delimited a → c.types.Delimited b → assignable a b = false →
      c.types.name a = .ok A → c.types.name b = .ok B → A ≠ B := by
    rintro a b A B hda hdb hnot hA hB rfl
    have hab := hread.name_inj hda hdb hA hB
    simp [assignable, hab] at hnot
  refine ⟨fun a b text hda hdb ha hb => hread.name_inj hda hdb ha hb, ?_, ?_⟩
  · rintro s s' file span what expected found d rfl hde hdf hnot hrun
    have hshow : Whenever (mismatch file span what expected found) s fun d _ => ∃ wanted given,
        s.context.typeName expected = .ok wanted ∧ s.context.typeName found = .ok given ∧ wanted ≠ given ∧
        d.message = s!"Mismatched {what}: expected {wanted}, found {given}" := by
      simp only [mismatch, whenever_bind, whenever_typeName, whenever_pure]
      exact fun wanted hw given hg => ⟨wanted, given, hw, hg, hdiffer hde hdf hnot hw hg, rfl⟩
    exact hshow d s' hrun
  · intro st st' env callee args span signature p v d hst hcallee hfunc hlen hmis hdp hdv hrun
    have hshow : Answers (typedCall env callee args span) st (fun _ _ => True) fun d _ => ∃ wanted given,
        c.typeName p.ty = .ok wanted ∧ c.typeName v.ty = .ok given ∧ wanted ≠ given ∧
        d.message = s!"Mismatched argument type: expected {wanted}, found {given}" := by
      unfold typedCall
      rw [if_neg hcallee]
      simp only [answers_bind, answers_lift, Typing.resolved, whenever_typingAsk]
      intro ty hty
      rw [hst, hfunc] at hty
      cases hty
      simp only [hlen, hmis, answers_bind, answers_lift, whenever_nameOf, answers_throw, hst, ne_eq,
        not_true_eq_false, if_false]
      exact fun wanted hw given hg =>
        ⟨wanted, given, hw, hg, hdiffer hdp hdv (mismatch?_some hmis).2.2 hw hg, rfl⟩
    exact hshow (.error d) st' hrun

/-- A function of a tree and a sum, with a name for its first parameter and without. -/
def sampleVisits : State :=
  let tree : Surface.TypeExpr := .ptr (.named "Tree" .none) .none
  let visit (name : Option String) : Surface.TypeExpr :=
    .func [(tree, name), (.sum [.int ⟨true, .w32⟩ .none, tree] .none, none)] (.array (.bool .none) 4 .none) .none
  Request.performAll [.change (.declareAlias "Tree"), .resolveType 0 (visit (some "at")), .resolveType 0 (visit none)] {}

theorem sampleVisits_differ : sampleVisits.context.Annotated ∧
    (∀ ty ∈ sampleVisits.context.types.items, ty.WellNamed) ∧
    sampleVisits.context.types.Delimited ⟨17⟩ ∧ sampleVisits.context.types.Delimited ⟨18⟩ ∧
    ∃ d s', mismatch 0 .none "return type" ⟨17⟩ ⟨18⟩ sampleVisits = .ok d s' ∧ ∃ wanted given : String, wanted ≠ given ∧
      d.message = s!"Mismatched return type: expected {wanted}, found {given}" := by
  have hannotated : sampleVisits.context.Annotated := annotated_performAll _ .fresh (by decide)
  have hnames : ∀ ty ∈ sampleVisits.types.items, ty.WellNamed := by decide +kernel
  have hdelimited := TypeTable.delimited_of_earlier (t := sampleVisits.types) (by decide +kernel)
  have hsize : sampleVisits.types.size = 19 := by decide +kernel
  have h17 := hdelimited 17 (by omega)
  have h18 := hdelimited 18 (by omega)
  have hwith : sampleVisits.types.name ⟨17⟩ = .ok "fun (*Tree at, i32 | *Tree |  , ) -> [4]bool" := by
    decide +kernel
  have hwithout : sampleVisits.types.name ⟨18⟩ = .ok "fun (*Tree , i32 | *Tree |  , ) -> [4]bool" := by
    decide +kernel
  have hends : Ends (mismatch 0 .none "return type" ⟨17⟩ ⟨18⟩) sampleVisits fun _ _ => True := by
    simp [mismatch, Lowering.typeName, Typing.nameOf, State.typing, State.withTyping, hwith, hwithout]
  obtain ⟨d, s', hrun, -⟩ := hends
  obtain ⟨wanted, given, -, -, hne, hmessage⟩ :=
    (typeName_identifies hannotated hnames).2.1 _ _ _ _ _ _ _ _ rfl h17 h18 (by decide) hrun
  exact ⟨hannotated, hnames, h17, h18, d, s', hrun, wanted, given, hne, hmessage⟩

/-- A pointer to a sum, and a sum whose first variant is a pointer. -/
def sampleAmbiguous : State :=
  let int : Surface.TypeExpr := .int ⟨true, .w32⟩ .none
  Request.performAll [.resolveType 0 (.ptr (.sum [int, .bool .none] .none) .none),
    .resolveType 0 (.sum [.ptr int .none, .bool .none] .none)] {}

theorem pointer_sum_ambiguous : sampleAmbiguous.context.Annotated ∧
    (∀ ty ∈ sampleAmbiguous.context.types.items, ty.WellNamed) ∧
    sampleAmbiguous.context.types.get? ⟨14⟩ = some (.ptr ⟨13⟩) ∧
    sampleAmbiguous.context.types.get? ⟨16⟩ = some (.sum [⟨15⟩, TypeId.bool]) ∧
    sampleAmbiguous.context.typeName ⟨14⟩ = .ok "*i32 | bool | " ∧
    sampleAmbiguous.context.typeName ⟨16⟩ = .ok "*i32 | bool | " ∧
    Ends (mismatch 0 .none "return type" ⟨14⟩ ⟨16⟩) sampleAmbiguous fun d _ =>
      d.message = "Mismatched return type: expected *i32 | bool | , found *i32 | bool | " := by
  have hptr : sampleAmbiguous.types.name ⟨14⟩ = .ok "*i32 | bool | " := by decide +kernel
  have hsum : sampleAmbiguous.types.name ⟨16⟩ = .ok "*i32 | bool | " := by decide +kernel
  refine ⟨annotated_performAll _ .fresh (by decide), by decide +kernel, by decide +kernel, by decide +kernel, hptr, hsum, ?_⟩
  simp only [mismatch, Lowering.typeName, Typing.nameOf, State.typing, State.withTyping, ends_bind, ends_onTyping,
    Typing.ask_ends, ends_pure, hptr, hsum, Except.ok.injEq, exists_eq_left']
  decide +kernel

end Context

end BlockCompiler
