/-
  BlockCompiler.Proofs.EditDistance — how many edits lie between two texts.

  An edit puts in, takes out or replaces one byte, anywhere. `Turns n a b`: by `n` edits, in any order,
  `a` becomes `b`, where letters may change their case at any time for nothing.

  (1) `align` compares two texts byte by byte. It finds a way to turn one into the other (`turns_align`),
      and no edit brings it down by more than one (`Turns.align_le`), so it finds the shortest.
  (2) The rows are those of `align`, for longer and longer leading parts (`foldl_nextRow`). Leading parts
      grow at their end, so the texts are compared from behind.
-/
import BlockCompiler.Report.Suggestion
import Mathlib.Order.Bounds.Basic

namespace BlockCompiler.EditDistance

variable {a a' b : Bytes} {n : Nat}

/-- One edit, of one byte. -/
inductive Edit : Bytes → Bytes → Prop where
  | insert (u v : Bytes) (x : UInt8) : Edit (u ++ v) (u ++ x :: v)
  | delete (u v : Bytes) (x : UInt8) : Edit (u ++ x :: v) (u ++ v)
  | replace (u v : Bytes) (x y : UInt8) : Edit (u ++ x :: v) (u ++ y :: v)

/-- Letters of `a` and `b` differ in case only. -/
def Recased (a b : Bytes) : Prop := a.map foldCase = b.map foldCase

/-- By `n` edits `a` becomes `b`, letter case aside. -/
inductive Turns : Nat → Bytes → Bytes → Prop where
  | recased {a b : Bytes} : Recased a b → Turns 0 a b
  | edit {a b : Bytes} : Edit a b → Turns 1 a b
  | trans {m n : Nat} {a b c : Bytes} : Turns m a b → Turns n b c → Turns (m + n) a c

/-! ## (1) Edits -/

theorem Edit.symm (h : Edit a b) : Edit b a := by
  cases h with
  | insert u v x => exact .delete u v x
  | delete u v x => exact .insert u v x
  | replace u v x y => exact .replace u v y x

theorem Edit.cons (z : UInt8) (h : Edit a b) : Edit (z :: a) (z :: b) := by
  cases h with
  | insert u v x => exact .insert (z :: u) v x
  | delete u v x => exact .delete (z :: u) v x
  | replace u v x y => exact .replace (z :: u) v x y

theorem Edit.reverse (h : Edit a b) : Edit a.reverse b.reverse := by
  cases h with
  | insert u v x => simpa using Edit.insert v.reverse u.reverse x
  | delete u v x => simpa using Edit.delete v.reverse u.reverse x
  | replace u v x y => simpa using Edit.replace v.reverse u.reverse x y

theorem Turns.symm (h : Turns n a b) : Turns n b a := by
  induction h with
  | recased h => exact .recased h.symm
  | edit h => exact .edit h.symm
  | @trans m n a b c _ _ ih ih' =>
    rw [Nat.add_comm m n]
    exact ih'.trans ih

theorem Turns.cons (z : UInt8) (h : Turns n a b) : Turns n (z :: a) (z :: b) := by
  induction h with
  | recased h => exact .recased (congrArg (foldCase z :: ·) h)
  | edit h => exact .edit (h.cons z)
  | trans _ _ ih ih' => exact ih.trans ih'

theorem Turns.reverse (h : Turns n a b) : Turns n a.reverse b.reverse := by
  induction h with
  | recased h =>
    refine .recased ?_
    rw [Recased, List.map_reverse, List.map_reverse, h]
  | edit h => exact .edit h.reverse
  | trans _ _ ih ih' => exact ih.trans ih'

theorem turns_reverse_iff : Turns n a.reverse b.reverse ↔ Turns n a b :=
  ⟨fun h => by simpa using h.reverse, Turns.reverse⟩

theorem Turns.recased_of_zero (h : Turns n a b) : n = 0 → Recased a b := by
  induction h with
  | recased h => exact fun _ => h
  | edit _ => exact fun h => absurd h Nat.one_ne_zero
  | trans _ _ ih ih' => exact fun h => (ih (by omega)).trans (ih' (by omega))

theorem Turns.length_le (h : Turns n a b) : a.length ≤ b.length + n := by
  induction h with
  | recased h => simpa using (congrArg List.length h).le
  | edit h => cases h <;> simp only [List.length_append, List.length_cons] <;> omega
  | trans _ _ ih ih' => omega

/-- The edits between two texts that are compared from the front. -/
def align : Bytes → Bytes → Nat
  | [], b => b.length
  | a, [] => a.length
  | x :: a, y :: b => min (min (align a (y :: b) + 1) (align (x :: a) b + 1)) (align a b + cost x y)

theorem align_nil (a : Bytes) : align a [] = a.length := by
  cases a <;> simp [align]

theorem align_cons_le (x : UInt8) (a b : Bytes) : align (x :: a) b ≤ align a b + 1 := by
  cases b with
  | nil => simp [align_nil]
  | cons y b =>
    rw [align]
    omega

theorem align_le_cons (y : UInt8) (a b : Bytes) : align a (y :: b) ≤ align a b + 1 := by
  cases a with
  | nil => simp [align]
  | cons x a =>
    rw [align]
    omega

theorem cost_le_one (x y : UInt8) : cost x y ≤ 1 := by
  unfold cost
  split <;> omega

/-- What `align` loses or gains by a change behind the first byte, it loses or gains with it. -/
theorem align_cons_mono {x x' : UInt8} {k : Nat} (hcost : ∀ y, cost x y = cost x' y)
    (h : ∀ b, align a b ≤ align a' b + k) (b : Bytes) : align (x :: a) b ≤ align (x' :: a') b + k := by
  induction b with
  | nil =>
    have hlength := h []
    simp only [align_nil, List.length_cons] at hlength ⊢
    omega
  | cons y b ih =>
    have hdelete := h (y :: b)
    have hkeep := h b
    rw [align, align, hcost y]
    omega

theorem align_le_delete (x : UInt8) (a b : Bytes) : align a b ≤ align (x :: a) b + 1 := by
  induction b with
  | nil => simp only [align_nil, List.length_cons]; omega
  | cons y b ih =>
    have hinsert := align_le_cons y a b
    rw [align]
    omega

theorem align_le_replace (x y : UInt8) (a b : Bytes) : align (x :: a) b ≤ align (y :: a) b + 1 := by
  induction b with
  | nil => simp only [align_nil, List.length_cons]; omega
  | cons z b ih =>
    have hx := cost_le_one x z
    rw [align, align]
    omega

theorem Edit.align_le (h : Edit a a') (b : Bytes) : align a b ≤ align a' b + 1 := by
  -- The bytes before the edit are the same on both sides.
  have hfront : ∀ {v v' : Bytes}, (∀ b, align v b ≤ align v' b + 1) → ∀ u b, align (u ++ v) b ≤ align (u ++ v') b + 1 := by
    intro v v' hv u
    induction u with
    | nil => exact hv
    | cons z u ih => exact align_cons_mono (fun _ => rfl) ih
  cases h with
  | insert u v x => exact hfront (align_le_delete x v) u b
  | delete u v x => exact hfront (align_cons_le x v) u b
  | replace u v x y => exact hfront (align_le_replace x y v) u b

theorem Recased.align_le (h : Recased a a') (b : Bytes) : align a b ≤ align a' b := by
  induction a generalizing a' b with
  | nil => rw [List.map_eq_nil_iff.mp h.symm]
  | cons x a ih =>
    obtain ⟨x', a', rfl, hx, ha⟩ := List.map_eq_cons_iff.mp h.symm
    refine align_cons_mono (k := 0) (fun y => ?_) (fun b => ih ha.symm b) b
    rw [cost, cost, hx]

theorem Turns.align_le (h : Turns n a a') (b : Bytes) : align a b ≤ align a' b + n := by
  induction h with
  | recased h => exact h.align_le b
  | edit h => exact h.align_le b
  | trans _ _ ih ih' => omega

theorem turns_insert (b : Bytes) : Turns b.length [] b := by
  induction b with
  | nil => exact .recased rfl
  | cons y b ih => exact ih.trans (.edit (.insert [] b y))

theorem align_self (b : Bytes) : align b b = 0 := by
  induction b with
  | nil => simp [align]
  | cons y b ih => simp [align, ih, cost]

theorem turns_align (a b : Bytes) : Turns (align a b) a b := by
  induction a, b using align.induct with
  | case1 b => simpa [align] using turns_insert b
  | case2 a _ => simpa [align_nil] using (turns_insert a).symm
  | case3 x a y b hdelete hinsert hkeep =>
    have hreplace : Turns (cost x y) (x :: b) (y :: b) := by
      unfold cost
      split
      · rename_i h
        exact .recased (congrArg (· :: b.map foldCase) h)
      · exact .edit (.replace [] b x y)
    have hleast : align (x :: a) (y :: b) = 1 + align a (y :: b) ∨ align (x :: a) (y :: b) = align (x :: a) b + 1 ∨
        align (x :: a) (y :: b) = align a b + cost x y := by
      rw [align]
      omega
    rcases hleast with h | h | h <;> rw [h]
    · exact .trans (.edit (.delete [] a x)) hdelete
    · exact hinsert.trans (.edit (.insert [] b y))
    · exact (hkeep.cons x).trans hreplace

theorem isLeast_align (a b : Bytes) : IsLeast {n | Turns n a b} (align a b) := by
  refine ⟨turns_align a b, fun n h => ?_⟩
  have hle := h.align_le b
  rwa [align_self, Nat.zero_add] at hle

/-! ## (2) Rows -/

/-- The entries of a row after the one for `b`, while the bytes that follow `b` come in front of it. -/
def entries (a b : Bytes) : Bytes → List Nat
  | [] => []
  | y :: rest => align a (y :: b) :: entries a (y :: b) rest

theorem rowFrom_entries (x : UInt8) (a b rest : Bytes) :
    rowFrom x (align (x :: a) b) (align a b) rest (entries a b rest) = entries (x :: a) b rest := by
  induction rest generalizing b with
  | nil => rfl
  | cons y rest ih =>
    have hentry : align (x :: a) (y :: b) =
        min (min (align a (y :: b) + 1) (align (x :: a) b + 1)) (align a b + cost x y) := by rw [align]
    simp only [entries, rowFrom]
    rw [← hentry, ih (y :: b)]

theorem nextRow_entries (x : UInt8) (a text : Bytes) :
    nextRow text (align a [] :: entries a [] text) x = align (x :: a) [] :: entries (x :: a) [] text := by
  have hfirst : align (x :: a) [] = align a [] + 1 := by simp [align_nil]
  simp only [nextRow]
  rw [← hfirst, rowFrom_entries]

theorem foldl_nextRow (text a done : Bytes) :
    a.foldl (nextRow text) (align done [] :: entries done [] text) =
      align (a.reverse ++ done) [] :: entries (a.reverse ++ done) [] text := by
  induction a generalizing done with
  | nil => rfl
  | cons x a ih => rw [List.foldl_cons, nextRow_entries, ih (x :: done), List.reverse_cons, List.append_assoc, List.singleton_append]

theorem entries_nil (b rest : Bytes) : entries [] b rest = (List.range rest.length).map (b.length + 1 + ·) := by
  induction rest generalizing b with
  | nil => rfl
  | cons y rest ih =>
    simp only [entries, align, ih, List.length_cons, List.range_succ_eq_map, List.map_cons, List.map_map]
    refine congrArg₂ List.cons rfl (List.map_congr_left fun n _ => ?_)
    simp only [Function.comp_apply]
    omega

theorem getLast_entries (a b rest : Bytes) :
    (align a b :: entries a b rest).getLast? = some (align a (rest.reverse ++ b)) := by
  induction rest generalizing b with
  | nil => rfl
  | cons y rest ih => rw [entries, List.getLast?_cons_cons, ih, List.reverse_cons, List.append_assoc, List.singleton_append]

theorem editDistance_eq (a b : Bytes) : editDistance a b = align a.reverse b.reverse := by
  have hfirst : List.range (b.length + 1) = align [] [] :: entries [] [] b := by
    rw [entries_nil, List.range_succ_eq_map, align_nil]
    refine congrArg₂ List.cons rfl (List.map_congr_left fun n _ => ?_)
    simp [Nat.add_comm]
  rw [editDistance, hfirst, foldl_nextRow, getLast_entries]
  simp

theorem isLeast_editDistance (a b : Bytes) : IsLeast {n | Turns n a b} (editDistance a b) := by
  rw [editDistance_eq]
  simpa only [turns_reverse_iff] using isLeast_align a.reverse b.reverse

theorem turns_editDistance (a b : Bytes) : Turns (editDistance a b) a b := (isLeast_editDistance a b).1

theorem Turns.editDistance_le (h : Turns n a b) : editDistance a b ≤ n :=
  (isLeast_editDistance a b).2 h

theorem lengthGap_le (a b : Bytes) : Suggestion.lengthGap a b ≤ editDistance a b := by
  have h := (turns_editDistance a b).length_le
  have h' := (turns_editDistance a b).symm.length_le
  unfold Suggestion.lengthGap
  omega

/-- The distance of two texts is the least number of insertions, deletions and substitutions of single
bytes that turn one into the other, where a change of case is free. So it is symmetric, obeys the
triangle inequality, is zero for texts that are equal up to case and for no others, and is not less
than the difference of the lengths. -/
theorem editDistance_least (a b : Bytes) :
    IsLeast {n | Turns n a b} (editDistance a b) ∧
    editDistance a b = editDistance b a ∧
    (∀ c, editDistance a c ≤ editDistance a b + editDistance b c) ∧
    (editDistance a b = 0 ↔ Recased a b) ∧
    a.length ≤ b.length + editDistance a b ∧ b.length ≤ a.length + editDistance a b := by
  have hab := turns_editDistance a b
  refine ⟨isLeast_editDistance a b, ?_, fun c => ?_, ⟨hab.recased_of_zero, fun h => ?_⟩, hab.length_le, hab.symm.length_le⟩
  · exact Nat.le_antisymm (turns_editDistance b a).symm.editDistance_le hab.symm.editDistance_le
  · exact (hab.trans (turns_editDistance b c)).editDistance_le
  · exact Nat.le_zero.mp (Turns.recased h).editDistance_le

end BlockCompiler.EditDistance
