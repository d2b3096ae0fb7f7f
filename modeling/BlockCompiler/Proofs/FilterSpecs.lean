/-
  BlockCompiler.Proofs.FilterSpecs — what the spec of a filter says.

  A spec is a row of tokens between commas. A token speaks of what stands before its first `=`, and
  gives it the level behind that; without one it speaks of all of itself.

  (1) What the last of the items that set a field set it to is what a sequence of items leaves there
      (`foldl_overwrite`).
  (2) Reading a spec sets the level of an area to that of the last token that speaks of it, and the
      fallback to that of the last `*=level` (`levelOf_parse`).
  (3) The lowest level is the least one that some area has, since there are areas that no token
      speaks of (`minLevel_le_iff`). So a filter that has read a spec lets through what the spec says
      (`parse_grammar`).
-/
import Mathlib
import BlockCompiler.Log.Filter

namespace BlockCompiler.Log

/-! ## (1) Fields that are overwritten -/

theorem foldl_overwrite {σ α β : Type} {step : σ → α → σ} (field : σ → β) {sets : α → Bool} {value : α → β}
    (h : ∀ s a, field (step s a) = if sets a then value a else field s) (l : List α) (s : σ) :
    field (l.foldl step s) = ((l.filter sets).getLast?.map value).getD (field s) := by
  induction l generalizing s with
  | nil => rfl
  | cons a l ih =>
    rw [List.foldl_cons, ih, h]
    by_cases hsets : sets a = true
    · rw [List.filter_cons_of_pos hsets, List.getLast?_cons, if_pos hsets]
      cases (l.filter sets).getLast? <;> rfl
    · rw [List.filter_cons_of_neg hsets, if_neg hsets]

/-! ## (2) Tokens -/

namespace Spec

variable {token : Bytes}

def tokens (spec : Bytes) : List Bytes := (spec.splitOn Bytes.comma).filter (· ≠ [])

/-- What a token speaks of. -/
def subject (token : Bytes) : Bytes := token.takeWhile (· ≠ Bytes.equals)

/-- The level that a token gives. -/
def level (token : Bytes) : Level :=
  if Bytes.equals ∈ token then Level.parse (token.drop ((subject token).length + 1)) else .trace

/-- The token is a `*=level`. -/
def isFallback (token : Bytes) : Bool := Bytes.equals ∈ token ∧ subject token = [Bytes.star]

/-- The level that the last token of this kind gives. -/
def last? (spec : Bytes) (kind : Bytes → Bool) : Option Level := ((tokens spec).filter kind).getLast?.map level

theorem split_eq (sep : UInt8) (text : Bytes) : Text.split sep text = text.splitOn sep := by
  induction text with
  | nil => rfl
  | cons b text ih =>
    rw [Text.split, ih, List.splitOn, List.splitOn, List.splitOnP_cons_eq_if_modifyHead]
    by_cases hb : b = sep
    · simp [hb]
    · rw [if_neg hb, if_neg (by simpa using hb)]
      cases h : text.splitOnP (· == sep) with
      | nil => exact absurd h (List.splitOnP_ne_nil _ _)
      | cons part parts => rfl

theorem cut?_eq (sep : UInt8) (text : Bytes) : Text.cut? sep text =
    if sep ∈ text then some (text.takeWhile (· ≠ sep), text.drop ((text.takeWhile (· ≠ sep)).length + 1)) else none := by
  induction text with
  | nil => rfl
  | cons b text ih =>
    rw [Text.cut?, ih]
    by_cases hb : b = sep
    · simp [hb]
    · by_cases hmem : sep ∈ text
      · simp [hb, hmem]
      · simp [hb, hmem, Ne.symm hb]

theorem read_eq (token : Bytes) : Filter.Rule.read token =
    if isFallback token then .fallback (level token) else .area (subject token) (level token) := by
  rw [Filter.Rule.read, cut?_eq, ← subject]
  by_cases hmem : Bytes.equals ∈ token
  · simp [isFallback, level, hmem]
  · have hall : subject token = token :=
      List.takeWhile_eq_self_iff.mpr fun b hb => decide_eq_true fun he => hmem (he ▸ hb)
    simp [isFallback, level, hmem, hall]

/-- The token sets the level of this area. -/
def names (area token : Bytes) : Bool := !isFallback token && subject token = area

theorem names_eq {area : Bytes} (h : area ≠ [Bytes.star]) : names area = fun token => decide (subject token = area) := by
  funext token
  by_cases harea : subject token = area
  · simp [names, isFallback, harea, h]
  · simp [names, harea]

end Spec

namespace Filter

variable {area : Bytes} {l : Level}

open Spec

theorem parse_eq (f : Filter) (spec : Bytes) :
    f.parse spec = (tokens spec).foldl (fun f token => f.apply (Rule.read token)) { f with areas := [] } := by
  rw [parse, rules, split_eq, List.foldl_map]
  rfl

theorem fallback_apply (f : Filter) (token : Bytes) :
    (f.apply (Rule.read token)).fallback = if isFallback token then level token else f.fallback := by
  rw [read_eq]
  split <;> rfl

theorem lookup_filter_ne {name : Bytes} (h : area ≠ name) (areas : List (Bytes × Level)) :
    (areas.filter (·.1 ≠ name)).lookup area = areas.lookup area := by
  induction areas with
  | nil => rfl
  | cons a rest ih =>
    by_cases hname : a.1 = name
    · have harea : (area == a.1) = false := by simpa [hname] using h
      rw [List.filter_cons_of_neg (by simp [hname]), ih, List.lookup_cons, harea]
    · rw [List.filter_cons_of_pos (by simp [hname]), List.lookup_cons, List.lookup_cons, ih]

theorem lookup_apply (area : Bytes) (f : Filter) (token : Bytes) : (f.apply (Rule.read token)).areas.lookup area =
    if names area token then some (level token) else f.areas.lookup area := by
  rw [read_eq, names]
  by_cases hf : isFallback token = true
  · simp [hf, apply]
  · by_cases harea : subject token = area
    · simp [hf, apply, harea]
    · have hother : (area == subject token) = false := by simpa using Ne.symm harea
      simp only [hf, apply, harea, List.lookup_cons, hother, if_false, Bool.not_false, Bool.true_and, decide_false,
        Bool.false_eq_true]
      exact lookup_filter_ne (Ne.symm harea) f.areas

theorem fallback_parse (f : Filter) (spec : Bytes) : (f.parse spec).fallback = (last? spec isFallback).getD f.fallback := by
  rw [parse_eq]
  exact foldl_overwrite Filter.fallback fallback_apply (tokens spec) { f with areas := [] }

theorem levelOf_parse (f : Filter) (spec area : Bytes) :
    (f.parse spec).levelOf area = (last? spec (names area) <|> last? spec isFallback).getD f.fallback := by
  have harea := foldl_overwrite (fun f : Filter => f.areas.lookup area) (lookup_apply area) (tokens spec) { f with areas := [] }
  rw [levelOf, fallback_parse, parse_eq, harea, last?, last?]
  cases ((tokens spec).filter (names area)).getLast? <;> rfl

/-! ## (3) Levels of areas -/

/-- An area has one level. -/
theorem nodup_parse (f : Filter) (spec : Bytes) : ((f.parse spec).areas.map (·.1)).Nodup := by
  suffices h : ∀ (rules : List Rule) (f : Filter), (f.areas.map (·.1)).Nodup → ((rules.foldl apply f).areas.map (·.1)).Nodup from
    h _ _ List.nodup_nil
  intro rules
  induction rules with
  | nil => exact fun _ h => h
  | cons rule rules ih =>
    intro f h
    refine ih _ ?_
    cases rule with
    | fallback l => exact h
    | area name l =>
      refine List.nodup_cons.mpr ⟨fun hmem => ?_, h.sublist (List.filter_sublist.map _)⟩
      obtain ⟨a, ha, hname⟩ := List.mem_map.mp hmem
      exact of_decide_eq_true (List.mem_filter.mp ha).2 hname

theorem minLevel_le (f : Filter) : f.minLevel ≤ l ↔ f.fallback ≤ l ∨ ∃ a ∈ f.areas, a.2 ≤ l := by
  rw [minLevel]
  generalize f.fallback = d
  induction f.areas generalizing d with
  | nil => simp
  | cons a rest ih =>
    have hlower : d.lower a.2 ≤ l ↔ d ≤ l ∨ a.2 ≤ l := by
      change (Level.lower _ _).rank ≤ _ ↔ d.rank ≤ _ ∨ a.2.rank ≤ _
      unfold Level.lower
      split
      · rename_i hlt
        have : a.2.rank < d.rank := hlt
        omega
      · rename_i hlt
        have : ¬ a.2.rank < d.rank := hlt
        omega
    rw [List.foldl_cons, ih, hlower, List.exists_mem_cons_iff, or_assoc]

/-- The lowest level is the least one that an area has. -/
theorem minLevel_le_iff {f : Filter} (hf : (f.areas.map (·.1)).Nodup) : f.minLevel ≤ l ↔ ∃ area, f.levelOf area ≤ l := by
  rw [minLevel_le]
  constructor
  · rintro (h | ⟨a, ha, h⟩)
    · obtain ⟨area, hnew⟩ := Infinite.exists_notMem_finset (f.areas.map (·.1)).toFinset
      refine ⟨area, ?_⟩
      have hnone : f.areas.lookup area = none := List.lookup_eq_none_iff.mpr fun a ha => bne_iff_ne.mpr fun he =>
        hnew (List.mem_toFinset.mpr (he ▸ List.mem_map_of_mem ha))
      rw [levelOf, hnone]
      exact h
    · obtain ⟨before, after, hsplit⟩ := List.append_of_mem ha
      rw [hsplit, List.map_append] at hf
      have hsome : f.areas.lookup a.1 = some a.2 := List.lookup_eq_some_iff.mpr ⟨before, after, hsplit, fun p hp =>
        bne_iff_ne.mpr fun he => List.disjoint_of_nodup_append hf (List.mem_map_of_mem hp) (he ▸ .head _)⟩
      exact ⟨a.1, by rwa [levelOf, hsome]⟩
  · rintro ⟨area, h⟩
    rw [levelOf] at h
    cases hlookup : f.areas.lookup area with
    | none => exact .inl (by rwa [hlookup] at h)
    | some level =>
      obtain ⟨before, after, hsplit, -⟩ := List.lookup_eq_some_iff.mp hlookup
      exact .inr ⟨(area, level), hsplit ▸ List.mem_append_right _ (.head _), by rwa [hlookup] at h⟩

/-- After reading a spec, an area has the level that the last token gives that speaks of it, else that of the last `*=level`,
else the fallback from before; and a level is let through for some area exactly if it is not below the lowest one. -/
theorem parse_grammar (f : Filter) (spec : Bytes) (l : Level) :
    (∀ area ≠ [Bytes.star], (f.parse spec).allows l area = true ↔
      (last? spec (fun token => subject token = area) <|> last? spec isFallback).getD f.fallback ≤ l) ∧
    ((∃ area, (f.parse spec).allows l area = true) ↔ (f.parse spec).minLevel ≤ l) := by
  have hallows : ∀ area, (f.parse spec).allows l area = true ↔ (f.parse spec).levelOf area ≤ l := fun _ => decide_eq_true_iff
  refine ⟨fun area harea => ?_, ?_⟩
  · rw [hallows, levelOf_parse, names_eq harea]
  · rw [minLevel_le_iff (nodup_parse f spec)]
    exact exists_congr hallows

/-- Empty tokens, an area and the fallback set twice, and a `*` that is an area. -/
def sampleSpec : Bytes := ",lower=trace,*=off,lower=debug,codegen,,*=warn,*"

theorem sampleSpec_read : Bytes.ofString "lower" ≠ [Bytes.star] ∧ (parse {} sampleSpec).allows .debug "lower" = true ∧
    (parse {} sampleSpec).allows .trace "lower" = false ∧ ∃ area, (parse {} sampleSpec).allows .trace area = true := by
  have hlower : Bytes.ofString "lower" ≠ [Bytes.star] := by decide
  have htrace := parse_grammar {} sampleSpec .trace
  refine ⟨hlower, ((parse_grammar {} sampleSpec .debug).1 _ hlower).mpr (by decide), ?_, htrace.2.mpr (by decide)⟩
  exact Bool.eq_false_iff.mpr fun h => absurd ((htrace.1 _ hlower).mp h) (by decide)

end Filter

end BlockCompiler.Log
