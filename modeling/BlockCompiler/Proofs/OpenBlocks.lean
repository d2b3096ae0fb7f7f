/-
  BlockCompiler.Proofs.OpenBlocks — who may write to which block.

  While a program is lowered, some blocks are open: they can still be appended to, and each
  must be closed in the end. `Owns s A`: the blocks of the list `A` are different and open.
  `Yields s A s' B`: going from `s` to `s'` used the open blocks `A` and left the open blocks
  `B`. Every other block that was there is as it was, and every other new block is closed.

  Such passages compose (`Yields.trans`), and blocks that are not used can be carried along
  (`Yields.frame`), so what a statement does to the graph follows from its parts.
-/
import BlockCompiler.Proofs.State

namespace BlockCompiler.Lowering.State

def IsClosed (s : State) (b : BlockId) : Prop :=
  ∃ block t, s.blocks.get? b = some block ∧ block.terminator = some t

structure Owns (s : State) (A : List BlockId) : Prop where
  nodup : A.Nodup
  isOpen : ∀ b ∈ A, s.IsOpen b

structure Yields (s : State) (A : List BlockId) (s' : State) (B : List BlockId) : Prop where
  owns : s'.Owns B
  size_le : s.blocks.size ≤ s'.blocks.size
  /-- What is left open was given or is new. -/
  origin : ∀ b ∈ B, b ∈ A ∨ s.blocks.size ≤ b.index
  /-- What was not given is as it was. -/
  kept : ∀ b, b.index < s.blocks.size → b ∉ A → s'.blocks.get? b = s.blocks.get? b
  /-- What was given or is new, and is not left open, is closed. -/
  closed : ∀ b, b ∈ A ∨ s.blocks.size ≤ b.index → b.index < s'.blocks.size → b ∉ B → s'.IsClosed b

variable {s s' s'' : State} {A B C D : List BlockId} {b : BlockId}

theorem IsOpen.lt (h : s.IsOpen b) : b.index < s.blocks.size := by
  obtain ⟨block, hb, -⟩ := h
  exact Arena.get?_lt hb

theorem isOpen_of_get?_eq (h : s.IsOpen b) (he : s'.blocks.get? b = s.blocks.get? b) :
    s'.IsOpen b := by
  obtain ⟨block, hb, ho⟩ := h
  exact ⟨block, he.trans hb, ho⟩

theorem blocks_of_typing (h : s' = s.withTyping s'.typing) : s'.blocks = s.blocks := by
  rw [h]
  rfl

theorem scopes_of_typing (h : s' = s.withTyping s'.typing) : s'.scopes = s.scopes := by
  rw [h]
  rfl

/-- What is checked leaves the blocks alone. -/
theorem IsOpen.of_typing (ho : s.IsOpen b) (h : s' = s.withTyping s'.typing) : s'.IsOpen b :=
  isOpen_of_get?_eq ho (by rw [blocks_of_typing h])

theorem Owns.perm (h : s.Owns A) (hp : A.Perm B) : s.Owns B :=
  ⟨hp.nodup_iff.mp h.nodup, fun b hb => h.isOpen b (hp.mem_iff.mpr hb)⟩

theorem Owns.single (h : s.IsOpen b) : s.Owns [b] := ⟨List.nodup_singleton b, by simpa using h⟩

theorem owns_nil (s : State) : s.Owns [] := ⟨List.nodup_nil, by simp⟩

theorem Owns.left (h : s.Owns (A ++ D)) : s.Owns A :=
  ⟨h.nodup.of_append_left, fun b hb => h.isOpen b (List.mem_append_left _ hb)⟩

namespace Yields

theorem of_blocks_eq (h : s.Owns A) (he : s'.blocks = s.blocks) : Yields s A s' A :=
  ⟨⟨h.nodup, fun b hb => isOpen_of_get?_eq (h.isOpen b hb) (by rw [he])⟩, by rw [he], fun _ hb => Or.inl hb,
    fun _ _ _ => by rw [he], fun b hb hlt hn => by
      rw [he] at hlt
      rcases hb with hb | hb
      · exact absurd hb hn
      · omega⟩

theorem refl (h : s.Owns A) : Yields s A s A := of_blocks_eq h rfl

section

variable (h : Yields s A s' B)
include h

theorem trans (h' : Yields s' B s'' C) : Yields s A s'' C := by
  have hsize := h.size_le
  refine ⟨h'.owns, Nat.le_trans hsize h'.size_le, ?_, ?_, ?_⟩
  · intro b hb
    rcases h'.origin b hb with hb | hb
    · exact h.origin b hb
    · exact Or.inr (Nat.le_trans hsize hb)
  · intro b hlt hA
    have hB : b ∉ B := fun hb => by
      rcases h.origin b hb with hb | hb
      · exact hA hb
      · omega
    rw [h'.kept b (by omega) hB, h.kept b hlt hA]
  · intro b hb hlt hC
    by_cases hB : b ∈ B ∨ s'.blocks.size ≤ b.index
    · exact h'.closed b hB hlt hC
    · -- closed on the first part of the way, and not touched on the second
      obtain ⟨hnB, hsmall⟩ := not_or.mp hB
      obtain ⟨block, t, hget, ht⟩ := h.closed b hb (by omega) hnB
      exact ⟨block, t, (h'.kept b (by omega) hnB).trans hget, ht⟩

theorem frame (ho : s.Owns (A ++ D)) : Yields s (A ++ D) s' (B ++ D) := by
  have hD : ∀ b ∈ D, b.index < s.blocks.size ∧ b ∉ A := fun b hb =>
    ⟨(ho.isOpen b (List.mem_append_right _ hb)).lt, fun hA => List.disjoint_of_nodup_append ho.nodup hA hb⟩
  refine ⟨⟨?_, ?_⟩, h.size_le, ?_, ?_, ?_⟩
  · refine List.Nodup.append h.owns.nodup ho.nodup.of_append_right fun b hB hb => ?_
    obtain ⟨hlt, hA⟩ := hD b hb
    rcases h.origin b hB with hb | hb
    · exact hA hb
    · omega
  · intro b hb
    rcases List.mem_append.mp hb with hb | hb
    · exact h.owns.isOpen b hb
    · exact isOpen_of_get?_eq (ho.isOpen b (List.mem_append_right _ hb)) (h.kept b (hD b hb).1 (hD b hb).2)
  · intro b hb
    rcases List.mem_append.mp hb with hb | hb
    · rcases h.origin b hb with hb | hb
      · exact Or.inl (List.mem_append_left _ hb)
      · exact Or.inr hb
    · exact Or.inl (List.mem_append_right _ hb)
  · intro b hlt hb
    exact h.kept b hlt fun hA => hb (List.mem_append_left _ hA)
  · intro b hb hlt hn
    obtain ⟨hnB, hnD⟩ := not_or.mp (mt List.mem_append.mpr hn)
    refine h.closed b ?_ hlt hnB
    rcases hb with hb | hb
    · rcases List.mem_append.mp hb with hb | hb
      · exact Or.inl hb
      · exact absurd hb hnD
    · exact Or.inr hb

theorem perm (hA : A.Perm C) (hB : B.Perm D) : Yields s C s' D := by
  refine ⟨h.owns.perm hB, h.size_le, ?_, ?_, ?_⟩
  · intro b hb
    rw [← hA.mem_iff]
    exact h.origin b (hB.mem_iff.mpr hb)
  · intro b hlt hn
    exact h.kept b hlt fun hb => hn (hA.mem_iff.mp hb)
  · intro b hb hlt hn
    rw [← hA.mem_iff] at hb
    exact h.closed b hb hlt fun hb => hn (hB.mem_iff.mp hb)

theorem lo_le {lo : Nat} (hA : ∀ b ∈ A, lo ≤ b.index) (hlo : lo ≤ s.blocks.size) :
    ∀ b ∈ B, lo ≤ b.index := fun b hb => (h.origin b hb).elim (hA b) (Nat.le_trans hlo)

end

/-! ### The effects -/

/-- Steps that leave the blocks alone may follow. -/
theorem same (h : Yields s A s' B) (he : s''.blocks = s'.blocks) : Yields s A s'' B :=
  h.trans (of_blocks_eq h.owns he)

theorem addBlock (h : s.Owns A) : Yields s A s.addBlock (s.blocks.next :: A) := by
  have hnew : s.blocks.next ∉ A := fun hb => by
    have := (h.isOpen _ hb).lt
    simp at this
  refine ⟨⟨List.nodup_cons.mpr ⟨hnew, h.nodup⟩, ?_⟩, ?_, ?_, ?_, ?_⟩
  · intro b hb
    rcases List.mem_cons.mp hb with rfl | hb
    · exact ⟨{}, Arena.get?_insert_next _ _, rfl⟩
    · exact isOpen_of_get?_eq (h.isOpen b hb) (Arena.get?_insert_of_lt (h.isOpen b hb).lt)
  · simp [State.addBlock]
  · intro b hb
    rcases List.mem_cons.mp hb with rfl | hb
    · exact Or.inr (Nat.le_refl _)
    · exact Or.inl hb
  · intro b hlt _
    exact Arena.get?_insert_of_lt hlt
  · intro b hb hlt hn
    obtain ⟨hne, hA⟩ := not_or.mp (mt List.mem_cons.mpr hn)
    simp only [State.addBlock, Arena.size_insert] at hlt
    rcases hb with hb | hb
    · exact absurd hb hA
    · obtain ⟨i⟩ := b
      exact absurd (by simp only [Arena.next, Handle.mk.injEq, Arena.size] at hlt hb ⊢; omega) hne

theorem append (h : s.Owns A) (hb : b ∈ A) (stmt : BlockStmt) : Yields s A (s.append b stmt) A := by
  have hget := fun b' => s.blocks.get?_modify b
    (fun block => { block with stmts := block.stmts.push stmt }) b'
  refine ⟨⟨h.nodup, ?_⟩, ?_, fun _ hb => Or.inl hb, ?_, ?_⟩
  · intro b' hb'
    obtain ⟨block, hblock, ho⟩ := h.isOpen b' hb'
    by_cases he : b' = b
    · subst he
      exact ⟨{ block with stmts := block.stmts.push stmt }, (hget b').trans (by rw [if_pos rfl, hblock]; rfl), ho⟩
    · exact ⟨block, (hget b').trans (by rw [if_neg he]; exact hblock), ho⟩
  · exact Nat.le_of_eq (Arena.size_modify _ _ _).symm
  · intro b' _ hn
    refine (hget b').trans (if_neg ?_)
    rintro rfl
    exact hn hb
  · intro b' hb' hlt hn
    have hsize : (s.append b stmt).blocks.size = s.blocks.size := Arena.size_modify _ _ _
    rcases hb' with hb' | hb'
    · exact absurd hb' hn
    · omega

theorem close (h : s.Owns (b :: A)) (t : Terminator) : Yields s (b :: A) (s.close b t) A := by
  have hget := fun b' => s.blocks.get?_modify b (fun block => { block with terminator := some t }) b'
  have hsize : (s.close b t).blocks.size = s.blocks.size := Arena.size_modify _ _ _
  obtain ⟨hnb, hnd⟩ := List.nodup_cons.mp h.nodup
  refine ⟨⟨hnd, ?_⟩, Nat.le_of_eq hsize.symm, fun _ hb => Or.inl (.tail _ hb), ?_, ?_⟩
  · intro b' hb'
    refine isOpen_of_get?_eq (h.isOpen b' (.tail _ hb')) ((hget b').trans (if_neg ?_))
    rintro rfl
    exact hnb hb'
  · intro b' _ hn
    refine (hget b').trans (if_neg ?_)
    rintro rfl
    exact hn (.head _)
  · intro b' hb' hlt hn
    rcases hb' with hb' | hb'
    · rcases List.mem_cons.mp hb' with rfl | hb'
      · obtain ⟨block, hblock, -⟩ := h.isOpen b' (.head _)
        exact ⟨_, t, (hget b').trans (by rw [if_pos rfl, hblock]; rfl), rfl⟩
      · exact absurd hb' hn
    · omega

theorem joined (join : BlockId) : ∀ (ends : List BlockId) {s : State}, s.Owns (ends ++ A) →
    Yields s (ends ++ A) (s.joined join ends) A
  | [], _, h => refl h
  | b :: rest, s, h => by
    have hclose : Yields s (b :: (rest ++ A)) (s.close b (.jump join)) (rest ++ A) := close h _
    exact hclose.trans (joined join rest hclose.owns)

end Yields

theorem IsOpen.addBlock (h : s.IsOpen b) : s.addBlock.IsOpen b :=
  (Yields.addBlock (Owns.single h)).owns.isOpen b (by simp)

end BlockCompiler.Lowering.State
