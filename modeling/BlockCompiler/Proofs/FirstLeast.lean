/-
  BlockCompiler.Proofs.FirstLeast — the first of the least members of a list.

  Where several members are least, the one that comes first is taken. A search from left to right finds it
  if it changes its mind for smaller members only, and a stable sort puts it in front.
-/
import Mathlib.Data.List.Sort

namespace BlockCompiler

variable {α : Type} {p : α → Prop} {key : α → Nat} {xs : List α} {x y : α}

/-- Among the members of `xs` that satisfy `p`, `x` is the first whose key is least. -/
def FirstLeast (p : α → Prop) (key : α → Nat) (xs : List α) (x : α) : Prop :=
  ∃ before after, xs = before ++ x :: after ∧ p x ∧ (∀ y ∈ before, p y → key x < key y) ∧
    ∀ y ∈ after, p y → key x ≤ key y

namespace FirstLeast

section

variable (h : FirstLeast p key xs x)
include h

theorem mem : x ∈ xs := by
  obtain ⟨before, after, rfl, -⟩ := h
  simp

theorem holds : p x := by
  obtain ⟨before, after, -, hx, -⟩ := h
  exact hx

theorem le (hy : y ∈ xs) (hp : p y) : key x ≤ key y := by
  obtain ⟨before, after, rfl, -, hbefore, hafter⟩ := h
  rcases List.mem_append.mp hy with hy | hy
  · exact Nat.le_of_lt (hbefore y hy hp)
  · rcases List.mem_cons.mp hy with rfl | hy
    · exact Nat.le_refl _
    · exact hafter y hy hp

/-- A member that comes later has to be smaller to be taken. -/
theorem concat (hy : p y → key x ≤ key y) : FirstLeast p key (xs ++ [y]) x := by
  obtain ⟨before, after, rfl, hx, hbefore, hafter⟩ := h
  refine ⟨before, after ++ [y], by simp, hx, hbefore, fun z hz hp => ?_⟩
  rcases List.mem_append.mp hz with hz | hz
  · exact hafter z hz hp
  · obtain rfl := List.mem_singleton.mp hz
    exact hy hp

end

theorem last (hy : p y) (h : ∀ z ∈ xs, p z → key y < key z) : FirstLeast p key (xs ++ [y]) y :=
  ⟨xs, [], rfl, hy, h, by simp⟩

end FirstLeast

theorem pairwise_mergeSort_key (key : α → Nat) (xs : List α) :
    (xs.mergeSort fun a b => key a ≤ key b).Pairwise (key · ≤ key ·) := by
  refine (List.pairwise_mergeSort (fun a b c hab hbc => ?_) (fun a b => ?_) xs).imp of_decide_eq_true
  · exact decide_eq_true (Nat.le_trans (of_decide_eq_true hab) (of_decide_eq_true hbc))
  · simpa using Nat.le_total (key a) (key b)

/-- Members of one key keep their order. -/
theorem filter_mergeSort_key {q : α → Bool} (hq : ∀ a b, q a → q b → key a = key b) (xs : List α) :
    (xs.mergeSort fun a b => key a ≤ key b).filter q = xs.filter q := by
  have hties : (xs.filter q).Pairwise fun a b => decide (key a ≤ key b) = true := by
    refine List.pairwise_of_forall_mem_list fun a ha b hb => decide_eq_true ?_
    exact Nat.le_of_eq (hq a b (List.mem_filter.mp ha).2 (List.mem_filter.mp hb).2)
  have hsub := List.sublist_mergeSort (fun a b c hab hbc => ?_) (fun a b => ?_) hties List.filter_sublist
  · have hsame := hsub.filter q
    simp only [List.filter_filter, Bool.and_self] at hsame
    exact (hsame.eq_of_length ((List.mergeSort_perm xs _).filter q).length_eq.symm).symm
  · exact decide_eq_true (Nat.le_trans (of_decide_eq_true hab) (of_decide_eq_true hbc))
  · simpa using Nat.le_total (key a) (key b)

/-- Sorted by a stable sort, it comes first of those that satisfy `p`. -/
theorem FirstLeast.find?_mergeSort [DecidablePred p] (h : FirstLeast p key xs x) :
    (xs.mergeSort fun a b => key a ≤ key b).find? (p ·) = some x := by
  -- Those that are as small as `x` keep their order, and `x` is the first of them.
  have hties : (xs.mergeSort fun a b => key a ≤ key b).find? (fun y => p y ∧ key y = key x) = some x := by
    obtain ⟨before, after, hxs, hx, hbefore, -⟩ := h
    have hnone : before.filter (fun y => p y ∧ key y = key x) = [] := by
      refine List.filter_eq_nil_iff.mpr fun y hy htie => ?_
      obtain ⟨hp, heq⟩ := of_decide_eq_true htie
      exact absurd heq (Nat.ne_of_gt (hbefore y hy hp))
    rw [← List.head?_filter, filter_mergeSort_key, hxs, List.filter_append, hnone]
    · simp [hx]
    · intro a b ha hb
      exact (of_decide_eq_true ha).2.trans (of_decide_eq_true hb).2.symm
  obtain ⟨-, before, after, hsplit, hbefore⟩ := List.find?_eq_some_iff_append.mp hties
  refine List.find?_eq_some_iff_append.mpr ⟨decide_eq_true h.holds, before, after, hsplit, fun y hy => ?_⟩
  have hsorted := pairwise_mergeSort_key key xs
  rw [hsplit, List.pairwise_append] at hsorted
  have hle : key y ≤ key x := hsorted.2.2 y hy x (by simp)
  have hmem : y ∈ xs := (List.mergeSort_perm xs _).mem_iff.mp (by rw [hsplit]; simp [hy])
  have hlarger := hbefore y hy
  simp only [Bool.not_eq_true', decide_eq_false_iff_not, not_and] at hlarger ⊢
  intro hp
  exact hlarger hp (Nat.le_antisymm hle (h.le hmem hp))

theorem FirstLeast.unique (hx : FirstLeast p key xs x) (hy : FirstLeast p key xs y) : x = y := by
  classical
  exact Option.some.inj (hx.find?_mergeSort.symm.trans hy.find?_mergeSort)

end BlockCompiler
