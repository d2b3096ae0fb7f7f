/-
  BlockCompiler.Proofs.Suggestions — which name is suggested.

  Candidates are looked at one after the other. One whose length differs too much from that of the name is
  not compared at all; it would be too far away, since a distance is not less than the difference of the
  lengths (`consider_eq`). So what was found is always the first of the nearest (`Found.step`).
-/
import BlockCompiler.Proofs.EditDistance
import BlockCompiler.Proofs.FirstLeast

namespace BlockCompiler.Suggestion

open EditDistance (lengthGap_le)

variable {input c : String} {limit : Nat} {seen : List String} {best : Best}

/-- The distance of a candidate. -/
def distance (input candidate : String) : Nat := editDistance (Bytes.ofString input) (Bytes.ofString candidate)

/-- The candidate has other bytes than the name. -/
def Other (input candidate : String) : Prop := Bytes.ofString candidate ≠ Bytes.ofString input

/-- A step that compares every candidate, however long. -/
def considerAny (input : String) (best : Best) (candidate : String) : Best :=
  if candidate = input then best
  else if distance input candidate < best.bound then ⟨some candidate, distance input candidate⟩
  else best

theorem ofString_injective : Function.Injective Bytes.ofString := by
  intro s t h
  exact String.toByteArray_inj.mp (ByteArray.ext (Array.toList_inj.mp h))

theorem other_iff : Other input c ↔ c ≠ input := ofString_injective.ne_iff

theorem consider_eq (h : best.bound ≤ limit + 1) : consider input limit best c = considerAny input best c := by
  have hgap := lengthGap_le (Bytes.ofString input) (Bytes.ofString c)
  unfold consider considerAny distance
  by_cases heq : c = input
  · rw [if_pos heq, if_pos heq]
  · rw [if_neg heq, if_neg heq]
    by_cases hlong : limit < lengthGap (Bytes.ofString input) (Bytes.ofString c)
    · rw [if_pos hlong, if_neg (by omega)]
    · rw [if_neg hlong]

/-- What has been found among the candidates seen so far. -/
inductive Found (input : String) (limit : Nat) (seen : List String) : Best → Prop where
  | nothing : (∀ c ∈ seen, Other input c → limit < distance input c) → Found input limit seen ⟨none, limit + 1⟩
  | nearest (c : String) : FirstLeast (Other input) (distance input) seen c → distance input c ≤ limit →
      Found input limit seen ⟨some c, distance input c⟩

section

variable (h : Found input limit seen best)
include h

theorem Found.bound_le : best.bound ≤ limit + 1 := by
  cases h with
  | nothing _ => exact Nat.le_refl _
  | nearest c _ hc => exact Nat.le_succ_of_le hc

/-- A candidate that is the name itself, or is no nearer, changes nothing. -/
theorem Found.pass (hc : Other input c → best.bound ≤ distance input c) : Found input limit (seen ++ [c]) best := by
  cases h with
  | nothing hnone =>
    refine .nothing fun d hd hother => ?_
    rcases List.mem_append.mp hd with hd | hd
    · exact hnone d hd hother
    · obtain rfl := List.mem_singleton.mp hd
      exact hc hother
  | nearest d hd hle => exact .nearest d (hd.concat hc) hle

/-- A nearer one is taken. -/
theorem Found.take (hother : Other input c) (hc : distance input c < best.bound) :
    Found input limit (seen ++ [c]) ⟨some c, distance input c⟩ := by
  refine .nearest c (.last hother fun d hd hd' => ?_) (by have hle := h.bound_le; omega)
  cases h with
  | nothing hnone => exact Nat.lt_of_le_of_lt (Nat.le_of_lt_succ hc) (hnone d hd hd')
  | nearest e he _ => exact Nat.lt_of_lt_of_le hc (he.le hd hd')

theorem Found.step (c : String) : Found input limit (seen ++ [c]) (consider input limit best c) := by
  rw [consider_eq h.bound_le]
  unfold considerAny
  by_cases heq : c = input
  · rw [if_pos heq]
    exact h.pass fun hother => absurd heq (other_iff.mp hother)
  · rw [if_neg heq]
    by_cases hnear : distance input c < best.bound
    · rw [if_pos hnear]
      exact h.take (other_iff.mpr heq) hnear
    · rw [if_neg hnear]
      exact h.pass fun _ => Nat.le_of_not_lt hnear

theorem Found.run (candidates : List String) :
    Found input limit (seen ++ candidates) (candidates.foldl (consider input limit) best) ∧
    candidates.foldl (consider input limit) best = candidates.foldl (considerAny input) best := by
  induction candidates generalizing seen best with
  | nil => exact ⟨by simpa using h, rfl⟩
  | cons c rest ih =>
    have hrest := ih (h.step c)
    simp only [List.foldl_cons]
    rw [List.append_assoc, List.singleton_append] at hrest
    exact ⟨hrest.1, hrest.2.trans (by rw [consider_eq h.bound_le])⟩

theorem Found.name_eq_some_iff :
    best.name = some c ↔ FirstLeast (Other input) (distance input) seen c ∧ distance input c ≤ limit := by
  cases h with
  | nothing hnone =>
    constructor
    · intro h
      cases h
    · intro h
      exact absurd (hnone c h.1.mem h.1.holds) (Nat.not_lt.mpr h.2)
  | nearest d hd hle =>
    constructor
    · intro h
      cases h
      exact ⟨hd, hle⟩
    · intro h
      exact congrArg some (hd.unique h.1)

theorem Found.name_eq_none_iff : best.name = none ↔ ∀ c ∈ seen, Other input c → limit < distance input c := by
  cases h with
  | nothing hnone => exact ⟨fun _ => hnone, fun _ => rfl⟩
  | nearest d hd hle =>
    constructor
    · intro h
      cases h
    · intro h
      exact absurd (h d hd.mem hd.holds) (Nat.not_lt.mpr hle)

end

/-- For every limit but the largest number: a candidate is suggested if and only if it is the first of those
nearest to the name among the candidates that differ from it, and lies within the limit; nothing is
suggested if and only if no such candidate does. It is as if every candidate had been compared, so none
is missed because of its length. -/
theorem closest_nearest (input : String) (candidates : List String) (limit : UInt64) (h : limit < 0xFFFFFFFFFFFFFFFF) :
    (∀ c, closest? input candidates limit = some c ↔
      FirstLeast (Other input) (distance input) candidates c ∧ distance input c ≤ limit.toNat) ∧
    (closest? input candidates limit = none ↔ ∀ c ∈ candidates, Other input c → limit.toNat < distance input c) ∧
    closest? input candidates limit = (candidates.foldl (considerAny input) ⟨none, limit.toNat + 1⟩).name := by
  have hbound : (limit + 1).toNat = limit.toNat + 1 := by
    have hlt : limit.toNat < 0xFFFFFFFFFFFFFFFF := h
    rw [UInt64.toNat_add]
    exact Nat.mod_eq_of_lt (by simpa using Nat.succ_lt_succ hlt)
  have hstart : Found input limit.toNat [] ⟨none, limit.toNat + 1⟩ := .nothing (by simp)
  obtain ⟨hfound, hany⟩ := hstart.run candidates
  rw [closest?, hbound]
  exact ⟨fun c => hfound.name_eq_some_iff, hfound.name_eq_none_iff, congrArg Best.name hany⟩

/-- Of three names other than `flag`, `FLAG` is the first that differs from it in case only. -/
theorem sampleNames_nearest : (2 : UInt64) < 0xFFFFFFFFFFFFFFFF ∧
    FirstLeast (Other "flag") (distance "flag") ["flag", "flat", "FLAG", "Flag"] "FLAG" ∧ distance "flag" "FLAG" ≤ 2 :=
  ⟨by decide, ((closest_nearest "flag" ["flag", "flat", "FLAG", "Flag"] 2 (by decide)).1 "FLAG").mp (by decide +kernel)⟩

end BlockCompiler.Suggestion
