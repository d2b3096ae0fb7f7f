/-
  BlockCompiler.Proofs.JsonLines — which records can be read from their JSON lines.

  (1) The grammar of JSON: which texts stand for a value (`Json.Element`).
  (2) What is not plain takes at least two characters of a string, so an object cannot be shorter than
      its members (`Json.Element.space_le`).
  (3) An area is written as it is, and a message with escapes, but for some control characters. Neither
      is longer than its space in a string, and both are strings if they are as long (`Json.Writer`).
  (4) So a line is an object that holds the record just if nothing in the area has a meaning in JSON and
      the message has none of those control characters; and each newline of an area makes a line more
      (`jsonBytes_reads`).
-/
import Mathlib.Algebra.Order.BigOperators.Group.List
import BlockCompiler.Log.Record
import BlockCompiler.Proofs.Snippets
import BlockCompiler.Proofs.Suggestions

namespace BlockCompiler

/-- A value of JSON. A number with a fraction or an exponent stays as it is written. -/
inductive Json where
  | null
  | bool (b : Bool)
  | int (n : Int)
  | real (numeral : List Char)
  | string (text : List Char)
  | array (items : List Json)
  | object (members : List (List Char × Json))

namespace Json

/-! ## (1) Grammar -/

/-- What stands for itself in a string. -/
def IsPlain (c : Char) : Prop := 32 ≤ c.toNat ∧ c ≠ '"' ∧ c ≠ '\\'

instance : DecidablePred IsPlain := fun _ => inferInstanceAs (Decidable (_ ∧ _ ∧ _))

/-- What stands behind the backslash of an escape, and what it means. -/
def escapes : List (Char × Char) :=
  [('"', '"'), ('\\', '\\'), ('/', '/'), ('b', '\x08'), ('f', '\x0c'), ('n', '\n'), ('r', '\r'), ('t', '\t')]

/-- Four hexadecimal digits. -/
def IsHex (s : List Char) (n : Nat) : Prop :=
  s.length = 4 ∧ s.map Char.toLower = (Nat.toDigits 16 n).leftpad 4 '0'

/-- What is written between the quotes of a string, and the characters that it stands for. -/
inductive Chars : List Char → List Char → Prop
  | nil : Chars [] []
  | plain {c : Char} {s x : List Char} : IsPlain c → Chars s x → Chars (c :: s) (c :: x)
  | escape {e c : Char} {s x : List Char} : (e, c) ∈ escapes → Chars s x → Chars ('\\' :: e :: s) (c :: x)
  | unit {c : Char} {u s x : List Char} : IsHex u c.toNat → Chars s x → Chars ('\\' :: 'u' :: u ++ s) (c :: x)
  | pair {c : Char} {u v s x : List Char} : 0x10000 ≤ c.toNat → IsHex u (0xD800 + (c.toNat - 0x10000) / 0x400) →
      IsHex v (0xDC00 + (c.toNat - 0x10000) % 0x400) → Chars s x →
      Chars ('\\' :: 'u' :: u ++ '\\' :: 'u' :: v ++ s) (c :: x)

def IsWhole (s : List Char) (n : Int) : Prop := s = (toString n).toList ∨ s = ['-', '0'] ∧ n = 0

def IsDigits (s : List Char) : Prop := s ≠ [] ∧ ∀ c ∈ s, c.isDigit = true

/-- A number with a fraction, an exponent or both. -/
def IsReal (s : List Char) : Prop :=
  ∃ whole n fraction exponent, s = whole ++ fraction ++ exponent ∧ IsWhole whole n ∧ fraction ++ exponent ≠ [] ∧
    (fraction = [] ∨ ∃ digits, fraction = '.' :: digits ∧ IsDigits digits) ∧
    (exponent = [] ∨ ∃ mark ∈ ['e', 'E'], ∃ sign ∈ [[], ['+'], ['-']], ∃ digits,
      exponent = mark :: sign ++ digits ∧ IsDigits digits)

def IsBlank (s : List Char) : Prop := ∀ c ∈ s, c ∈ [' ', '\t', '\n', '\r']

/-- One or more, with commas between them. -/
inductive Separated {α : Type} (R : List Char → α → Prop) : List Char → List α → Prop
  | one {s : List Char} {a : α} : R s a → Separated R s [a]
  | cons {s t : List Char} {a : α} {as : List α} : R s a → Separated R t as → Separated R (s ++ ',' :: t) (a :: as)

mutual

/-- A value with blanks around it. -/
inductive Element : List Char → Json → Prop
  | mk {a s b : List Char} {v : Json} : IsBlank a → Written s v → IsBlank b → Element (a ++ s ++ b) v

inductive Written : List Char → Json → Prop
  | null : Written ['n', 'u', 'l', 'l'] null
  | true : Written ['t', 'r', 'u', 'e'] (bool true)
  | false : Written ['f', 'a', 'l', 's', 'e'] (bool false)
  | int {s : List Char} {n : Int} : IsWhole s n → Written s (int n)
  | real {s : List Char} : IsReal s → Written s (real s)
  | string {s x : List Char} : Chars s x → Written ('"' :: s ++ ['"']) (string x)
  | noItems {s : List Char} : IsBlank s → Written ('[' :: s ++ [']']) (array [])
  | array {s : List Char} {vs : List Json} : Separated Element s vs → Written ('[' :: s ++ [']']) (array vs)
  | noMembers {s : List Char} : IsBlank s → Written ('{' :: s ++ ['}']) (object [])
  | object {s : List Char} {ms : List (List Char × Json)} : Separated Member s ms → Written ('{' :: s ++ ['}']) (object ms)

inductive Member : List Char → List Char × Json → Prop
  | mk {a k b s x : List Char} {v : Json} : IsBlank a → Chars k x → IsBlank b → Element s v →
      Member (a ++ '"' :: k ++ '"' :: b ++ ':' :: s) (x, v)

end

/-- The line is the text of a value, in UTF-8. -/
def Line (line : Bytes) (v : Json) : Prop := ∃ s : String, Element s.toList v ∧ line = Bytes.ofString s ++ [Bytes.newline]

/-! ## (2) Space -/

variable {s x : List Char} {v : Json} {m : List Char × Json} {ms : List (List Char × Json)}

/-- The least space that a character takes in a string. -/
def space (c : Char) : Nat := if IsPlain c then 1 else 2

def textSpace (x : List Char) : Nat := (x.map space).sum

/-- The least space of a value, as far as the values of a record need it. -/
def valueSpace : Json → Nat
  | int n => (toString n).toList.length
  | string x => textSpace x + 2
  | null | bool _ | real _ | array _ | object _ => 0

/-- The least space of a member, with the quotes and the colon, and with the mark behind it. -/
def memberSpace (m : List Char × Json) : Nat := textSpace m.1 + valueSpace m.2 + 4

theorem textSpace_cons_le (c : Char) (x : List Char) : textSpace (c :: x) ≤ textSpace x + 2 := by
  simp only [textSpace, List.map_cons, List.sum_cons, space]
  split <;> omega

theorem Chars.space_le (h : Chars s x) : textSpace x ≤ s.length := by
  induction h with
  | nil => exact Nat.le_refl _
  | @plain c s x hc _ ih =>
    have hspace : space c = 1 := if_pos hc
    simp only [textSpace, List.map_cons, List.sum_cons, List.length_cons, hspace] at ih ⊢
    omega
  | escape _ _ ih | unit _ _ ih | pair _ _ _ _ ih =>
    refine Nat.le_trans (textSpace_cons_le _ _) ?_
    simp only [List.cons_append, List.length_append, List.length_cons]
    omega

theorem Element.valueSpace_le (h : Element s v) : valueSpace v ≤ s.length := by
  obtain ⟨-, hs, -⟩ := h
  rw [List.length_append, List.length_append]
  refine Nat.le_trans ?_ (Nat.le_trans (Nat.le_add_left ..) (Nat.le_add_right ..))
  cases hs with
  | int hn =>
    obtain rfl | ⟨rfl, rfl⟩ := hn
    · exact Nat.le_refl _
    · decide
  | string hx =>
    have hspace := hx.space_le
    simp only [valueSpace, List.length_append, List.length_cons, List.length_nil]
    omega
  | null | true | false | real | noItems | array | noMembers | object => exact Nat.zero_le _

theorem Member.space_le (h : Member s m) : memberSpace m ≤ s.length + 1 := by
  obtain ⟨-, hkey, -, hvalue⟩ := h
  have hkey := hkey.space_le
  have hvalue := hvalue.valueSpace_le
  simp only [memberSpace, List.length_append, List.length_cons]
  omega

theorem Separated.space_le (h : Separated Member s ms) : (ms.map memberSpace).sum ≤ s.length + 1 := by
  induction h with
  | one hm => simpa using hm.space_le
  | cons hm _ ih =>
    have hm := hm.space_le
    simp only [List.map_cons, List.sum_cons, List.length_append, List.length_cons]
    omega

theorem Element.space_le (h : Element s (object ms)) : (ms.map memberSpace).sum + 1 ≤ s.length := by
  obtain ⟨-, hs, -⟩ := h
  simp only [List.length_append]
  cases hs with
  | noMembers _ =>
    simp only [List.map_nil, List.sum_nil, List.cons_append, List.length_cons]
    omega
  | object hms =>
    have hspace := hms.space_le
    simp only [List.length_append, List.length_cons, List.length_nil]
    omega

/-! ## (3) Writers -/

/-- Characters are written with `w` where `P` holds of them: plain ones as they are, and others with an escape. -/
def Writer (w : Char → List Char) (P : Char → Prop) : Prop :=
  ∀ c, w c = [c] ∧ (P c ↔ IsPlain c) ∨ P c ∧ ¬ IsPlain c ∧ ∃ e, (e, c) ∈ escapes ∧ w c = ['\\', e]

variable {w : Char → List Char} {P : Char → Prop}

theorem Writer.chars (hw : Writer w P) (hx : ∀ c ∈ x, P c) : Chars (x.flatMap w) x := by
  induction x with
  | nil => exact .nil
  | cons c x ih =>
    obtain ⟨hc, hx⟩ := List.forall_mem_cons.mp hx
    rw [List.flatMap_cons]
    rcases hw c with ⟨hone, hplain⟩ | ⟨-, -, e, he, htwo⟩
    · rw [hone]
      exact .plain (hplain.mp hc) (ih hx)
    · rw [htwo]
      exact .escape he (ih hx)

theorem Writer.length_le (hw : Writer w P) : (x.flatMap w).length ≤ textSpace x ∧
    (textSpace x ≤ (x.flatMap w).length → ∀ c ∈ x, P c) := by
  induction x with
  | nil => exact ⟨Nat.le_refl _, fun _ => List.forall_mem_nil _⟩
  | cons c x ih =>
    have hc : (w c).length ≤ space c ∧ (space c ≤ (w c).length → P c) := by
      unfold space
      rcases hw c with ⟨hone, hplain⟩ | ⟨hc, hnot, e, -, htwo⟩
      · rw [hone, hplain]
        split <;> simp_all
      · simp [htwo, hnot, hc]
    simp only [textSpace, List.flatMap_cons, List.length_append, List.map_cons, List.sum_cons] at ih ⊢
    refine ⟨by omega, fun h => List.forall_mem_cons.mpr ⟨hc.2 (by omega), ih.2 (by omega)⟩⟩

theorem writer_plain : Writer (fun c => [c]) IsPlain := fun _ => .inl ⟨rfl, Iff.rfl⟩

end Json

namespace Log.Record

open Json
open Bytes (ofString newline)

/-- What can stand in a message. -/
def IsShown (c : Char) : Prop := 32 ≤ c.toNat ∨ c ∈ ['\n', '\r', '\t']

def escapeChar (c : Char) : List Char :=
  if c = '"' ∨ c = '\\' then ['\\', c]
  else if c = '\n' then ['\\', 'n']
  else if c = '\r' then ['\\', 'r']
  else if c = '\t' then ['\\', 't']
  else [c]

theorem writer_escapeChar : Writer escapeChar IsShown := fun c => by
  unfold escapeChar
  split_ifs with hmark hnewline hreturn htab
  · rcases hmark with rfl | rfl <;> exact .inr ⟨.inl (by decide), by decide, _, by decide, rfl⟩
  · exact .inr ⟨.inr (by simp [hnewline]), hnewline ▸ by decide, _, hnewline ▸ by decide, rfl⟩
  · exact .inr ⟨.inr (by simp [hreturn]), hreturn ▸ by decide, _, hreturn ▸ by decide, rfl⟩
  · exact .inr ⟨.inr (by simp [htab]), htab ▸ by decide, _, htab ▸ by decide, rfl⟩
  · obtain ⟨hquote, hbackslash⟩ := not_or.mp hmark
    exact .inl ⟨rfl, by simp [IsShown, IsPlain, hnewline, hreturn, htab, hquote, hbackslash]⟩

/-! ## (4) Lines -/

theorem ofString_eq (s : String) : ofString s = s.toList.flatMap String.utf8EncodeChar := by
  have h : s.toByteArray = s.toList.utf8Encode := by rw [← String.toByteArray_ofList, String.ofList_toList]
  rw [ofString, String.toUTF8, h, List.utf8Encode]
  simp

/-- A byte below 128 is a character of its own. -/
theorem eq_of_mem_utf8EncodeChar {c : Char} {b : UInt8} (h : b ∈ String.utf8EncodeChar c) (hb : b < 128) :
    c = Char.ofNat b.toNat := by
  have hb : b.toNat < 128 := UInt8.lt_iff_toNat_lt.mp hb
  unfold String.utf8EncodeChar at h
  dsimp only at h
  split at h
  · rename_i hc
    have hval := congrArg UInt8.toNat (List.mem_singleton.mp h)
    rw [UInt8.toNat_ofNat_of_lt' (Nat.lt_of_le_of_lt hc (by decide))] at hval
    rw [hval]
    exact (Char.ofNat_toNat c).symm
  -- the bytes of a longer character are not below 128
  · exfalso
    split at h
    · simp [← UInt8.toNat_inj] at h
      omega
    split at h <;> simp [← UInt8.toNat_inj] at h <;> omega

theorem flatMap_escapeByte_char (c : Char) :
    (String.utf8EncodeChar c).flatMap escapeByte = (escapeChar c).flatMap String.utf8EncodeChar := by
  unfold escapeChar
  split_ifs with hmark hnewline hreturn htab
  · rcases hmark with rfl | rfl <;> rfl
  · subst hnewline; rfl
  · subst hreturn; rfl
  · subst htab; rfl
  · have hbytes : (String.utf8EncodeChar c).flatMap escapeByte = (String.utf8EncodeChar c).flatMap fun b => [b] := by
      refine List.flatMap_congr fun b hb => ?_
      -- an escaped byte would be the character itself
      have hc := eq_of_mem_utf8EncodeChar hb
      unfold escapeByte
      split_ifs with hm hn hr ht
      · rcases hm with rfl | rfl
        · exact absurd (.inl (hc (by decide))) hmark
        · exact absurd (.inr (hc (by decide))) hmark
      · exact absurd (hc (hn ▸ by decide)) (hn ▸ hnewline)
      · exact absurd (hc (hr ▸ by decide)) (hr ▸ hreturn)
      · exact absurd (hc (ht ▸ by decide)) (ht ▸ htab)
      · rfl
    rw [hbytes, List.flatMap_singleton]
    simp

theorem flatMap_escapeByte (s : String) :
    (ofString s).flatMap escapeByte = ofString (String.ofList (s.toList.flatMap escapeChar)) := by
  rw [ofString_eq, ofString_eq, String.toList_ofList, List.flatMap_assoc, List.flatMap_assoc]
  exact List.flatMap_congr fun c _ => flatMap_escapeByte_char c

variable {time : Int} {level : Level} {area text : Bytes} {a t : String} {ms : List (List Char × Json)}

/-- The members that hold a record. -/
def members (time : Int) (level : Level) (area text : String) : List (List Char × Json) :=
  [("ts".toList, .int time), ("level".toList, .string level.name.toList), ("module".toList, .string area.toList),
    ("msg".toList, .string text.toList)]

/-- The text of a record's line. -/
def objectText (time : Int) (level : Level) (area text : String) : String :=
  "\x7b\"ts\":" ++ toString time ++ ",\"level\":\"" ++ level.name ++ "\",\"module\":\"" ++ area ++ "\",\"msg\":\"" ++
    String.ofList (text.toList.flatMap escapeChar) ++ "\"\x7d"

theorem jsonBytes_ofString : jsonBytes time level (ofString a) (ofString t) =
    ofString (objectText time level a t) ++ [newline] := by
  have hend : ofString "\"\x7d\n" = ofString "\"\x7d" ++ [newline] := rfl
  simp only [jsonBytes, objectText, flatMap_escapeByte, Rendering.ofString_append, hend, List.append_assoc]

theorem plain_of_all {x : List Char} (h : x.all (IsPlain ·) = true) : ∀ c ∈ x, IsPlain c := by simpa using h

theorem plain_name (level : Level) : ∀ c ∈ level.name.toList, IsPlain c := by
  unfold Level.name
  split_ifs <;> exact plain_of_all (by decide)

theorem member_of_written {k x s : List Char} {v : Json} (hk : Chars k x) (hs : Written s v) :
    Member ('"' :: (k ++ '"' :: ':' :: s)) (x, v) := by
  have h := Member.mk (List.forall_mem_nil _) hk (List.forall_mem_nil _)
    (.mk (List.forall_mem_nil _) hs (List.forall_mem_nil _))
  simpa using h

theorem chars_self {x : List Char} (h : ∀ c ∈ x, IsPlain c) : Chars x x := by
  simpa using writer_plain.chars h

theorem element_objectText (ha : ∀ c ∈ a.toList, IsPlain c) (ht : ∀ c ∈ t.toList, IsShown c) :
    Element (objectText time level a t).toList (.object (members time level a t)) := by
  have key : ∀ {k : String}, k.toList.all (IsPlain ·) = true → Chars k.toList k.toList := fun h => chars_self (plain_of_all h)
  have hts := member_of_written (key (k := "ts") (by decide)) (.int (n := time) (.inl rfl))
  have hlevel := member_of_written (key (k := "level") (by decide)) (.string (chars_self (plain_name level)))
  have hmodule := member_of_written (key (k := "module") (by decide)) (.string (chars_self ha))
  have hmsg := member_of_written (key (k := "msg") (by decide)) (.string (writer_escapeChar.chars ht))
  have h := Element.mk (List.forall_mem_nil _) (.object (.cons hts (.cons hlevel (.cons hmodule (.one hmsg)))))
    (List.forall_mem_nil _)
  simpa [objectText, members] using h

theorem length_objectText : (objectText time level a t).toList.length = (toString time).toList.length +
    level.name.toList.length + a.toList.length + (t.toList.flatMap escapeChar).length + 39 := by
  simp [objectText]
  omega

theorem sum_memberSpace : ((members time level a t).map memberSpace).sum = (toString time).toList.length +
    textSpace level.name.toList + textSpace a.toList + textSpace t.toList + 38 := by
  have hkeys : textSpace "ts".toList = 2 ∧ textSpace "level".toList = 5 ∧ textSpace "module".toList = 6 ∧
      textSpace "msg".toList = 3 := by decide
  simp only [members, List.map_cons, List.map_nil, List.sum_cons, List.sum_nil, memberSpace, valueSpace, hkeys]
  omega

/-- A line that holds the members of a record has no space for escapes that are not in it. -/
theorem fits_of_element (hms : members time level a t ⊆ ms) (h : Element (objectText time level a t).toList (.object ms)) :
    (∀ c ∈ a.toList, IsPlain c) ∧ ∀ c ∈ t.toList, IsShown c := by
  -- the members stand in the object, each of them once, and take at least their space
  have hnodup : (members time level a t).Nodup := .of_map Prod.fst (by simp [members])
  obtain ⟨l, hperm, hsub⟩ := List.subperm_of_subset hnodup hms
  have hsum := (hsub.map memberSpace).sum_le_sum fun _ _ => Nat.zero_le _
  rw [(hperm.map memberSpace).sum_eq, sum_memberSpace] at hsum
  have hline := h.space_le
  rw [length_objectText] at hline
  -- but nothing was written that is longer than its space
  have hname := (writer_plain.length_le (x := level.name.toList)).1
  have harea := writer_plain.length_le (x := a.toList)
  have htext := writer_escapeChar.length_le (x := t.toList)
  simp only [List.flatMap_singleton'] at hname harea
  exact ⟨harea.2 (by omega), htext.2 (by omega)⟩

theorem newline_notMem_ofString {s : String} (h : '\n' ∉ s.toList) : newline ∉ ofString s := by
  intro hmem
  rw [ofString_eq] at hmem
  obtain ⟨c, hc, hb⟩ := List.mem_flatMap.mp hmem
  obtain rfl := eq_of_mem_utf8EncodeChar hb (by decide)
  exact h hc

theorem newline_notMem_numeral (n : Int) : newline ∉ ofString (toString n) := by
  have hdigits : ∀ k : Nat, '\n' ∉ k.repr.toList := by
    intro k h
    have hdigit := Nat.isDigit_of_mem_toDigits (by omega) (by omega) (Nat.toList_repr ▸ h)
    cases hdigit
  refine newline_notMem_ofString ?_
  rw [show toString n = if 0 ≤ n then n.toNat.repr else "-" ++ (-n).toNat.repr from Int.repr_eq_if]
  split
  · exact hdigits _
  · rw [String.toList_append, List.mem_append]
    exact not_or.mpr ⟨by decide, hdigits _⟩

theorem newline_notMem_escaped (text : Bytes) : newline ∉ text.flatMap escapeByte := by
  intro h
  obtain ⟨b, -, hb⟩ := List.mem_flatMap.mp h
  unfold escapeByte at hb
  split_ifs at hb with hmark hnewline
  · rcases hmark with rfl | rfl <;> revert hb <;> decide
  · exact absurd hb (by decide)
  · exact absurd hb (by decide)
  · exact absurd hb (by decide)
  · exact hnewline (List.mem_singleton.mp hb).symm

theorem count_newline (time : Int) (level : Level) (area text : Bytes) :
    (jsonBytes time level area text).count newline = area.count newline + 1 := by
  have hname : newline ∉ ofString level.name := newline_notMem_ofString fun h => absurd (plain_name level _ h).1 (by decide)
  obtain ⟨hts, hlevel, hmodule, hmsg, hend⟩ : (ofString "\x7b\"ts\":").count newline = 0 ∧
      (ofString ",\"level\":\"").count newline = 0 ∧ (ofString "\",\"module\":\"").count newline = 0 ∧
      (ofString "\",\"msg\":\"").count newline = 0 ∧ (ofString "\"\x7d\n").count newline = 1 := by decide
  simp only [jsonBytes, Rendering.ofString_append, List.count_append, hts, hlevel, hmodule, hmsg, hend,
    List.count_eq_zero.mpr hname, List.count_eq_zero.mpr (newline_notMem_numeral time),
    List.count_eq_zero.mpr (newline_notMem_escaped text)]
  omega

/-- The area and the message are UTF-8, and nothing in them has to be escaped that is not. -/
def Fits (area text : Bytes) : Prop :=
  ∃ a t, ofString a = area ∧ ofString t = text ∧ (∀ c ∈ a.toList, IsPlain c) ∧ ∀ c ∈ t.toList, IsShown c

/-- Among the members are those of the record. -/
def Holds (ms : List (List Char × Json)) (time : Int) (level : Level) (area text : Bytes) : Prop :=
  ∃ a t, ofString a = area ∧ ofString t = text ∧ members time level a t ⊆ ms

theorem fits_of_holds (hline : Line (jsonBytes time level area text) (.object ms)) (hms : Holds ms time level area text) :
    Fits area text := by
  obtain ⟨a, t, rfl, rfl, hms⟩ := hms
  obtain ⟨s, hs, heq⟩ := hline
  rw [jsonBytes_ofString] at heq
  obtain rfl := Suggestion.ofString_injective (List.append_left_injective _ heq)
  exact ⟨a, t, rfl, rfl, fits_of_element hms hs⟩

/-- The line of a record ends in a newline, and each newline of the area stands in it as well, but no other one. The
line is an object that holds the record, possibly among other members, just if the area and the message fit. Then it
has no other members. -/
theorem jsonBytes_reads (time : Int) (level : Level) (area text : Bytes) :
    (jsonBytes time level area text).getLast? = some newline ∧
    (jsonBytes time level area text).count newline = area.count newline + 1 ∧
    ((∃ ms, Line (jsonBytes time level area text) (.object ms) ∧ Holds ms time level area text) ↔ Fits area text) ∧
    ((∃ ms, Line (jsonBytes time level area text) (.object ms) ∧ Holds ms time level area text ∧ ms.length = 4) ↔
      Fits area text) := by
  have hfits : Fits area text → ∃ ms, Line (jsonBytes time level area text) (.object ms) ∧
      Holds ms time level area text ∧ ms.length = 4 := by
    rintro ⟨a, t, rfl, rfl, ha, ht⟩
    exact ⟨_, ⟨_, element_objectText ha ht, jsonBytes_ofString⟩, ⟨a, t, rfl, rfl, List.Subset.refl _⟩, rfl⟩
  refine ⟨?_, count_newline time level area text, ?_, ?_⟩
  · rw [jsonBytes, List.getLast?_append]
    rfl
  · refine ⟨?_, fun h => (hfits h).imp fun _ h => ⟨h.1, h.2.1⟩⟩
    rintro ⟨ms, hline, hms⟩
    exact fits_of_holds hline hms
  · refine ⟨?_, hfits⟩
    rintro ⟨ms, hline, hms, -⟩
    exact fits_of_holds hline hms

/-- A quote in an area ends its string. -/
theorem quoted_area_unread : ¬ ∃ ms, Line (jsonBytes 0 .info "a\"b" "hi") (.object ms) ∧ Holds ms 0 .info "a\"b" "hi" := by
  rintro ⟨ms, hline, hms⟩
  obtain ⟨a, t, ha, -, hplain, -⟩ := fits_of_holds hline hms
  obtain rfl := Suggestion.ofString_injective ha
  exact absurd (hplain '"' (by decide)) (by decide)

end Log.Record

end BlockCompiler
