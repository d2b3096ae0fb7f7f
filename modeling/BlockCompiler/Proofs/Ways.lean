/-
  BlockCompiler.Proofs.Ways — ways through the graph, and what becomes of them while it grows.

  (1) The listing of blocks is complete: it has each block that can be reached
      (`mem_reachableFrom_iff`).
  (2) A way stays a way while open blocks are filled (`Yields.reaches`). `Covers s A S s' B` is
      `Yields s A s' B` where each new block can be reached from a block of `S`, the entrances,
      and what is built leads to new blocks only.
-/
import BlockCompiler.Proofs.Breadth
import BlockCompiler.Proofs.Run

namespace BlockCompiler

open Relation (ReflTransGen)

variable {a b f n t x : BlockId} {c : Context}

/-! ## (1) The listing is complete -/

namespace Context

theorem successors_of_size_le (h : c.blocks.size ≤ b.index) : c.successors b = [] := by
  cases hb : c.blocks.get? b with
  | none => rw [successors, hb]
  | some block =>
    have := Arena.get?_lt hb
    omega

/-- All that control can reach is listed. -/
theorem mem_reachableFrom_iff {entry : BlockId} : b ∈ c.reachableFrom entry ↔ c.Reaches entry b := by
  refine ⟨reaches_of_mem_reachableFrom, fun h => ?_⟩
  obtain ⟨n, hn⟩ := h.exists_walk
  exact (c.explored_reachableFrom entry).mem_of_walk hn

theorem mem_successors (h : b ∈ c.successors a) :
    ∃ block t, c.blocks.get? a = some block ∧ block.terminator = some t ∧ b ∈ t.successors := by
  unfold successors at h
  split at h
  · exact ⟨_, _, ‹_›, rfl, h⟩
  · cases h

end Context

theorem Handle.eq_of_index {k : Kind} {x y : Handle k} (h : x.index = y.index) : x = y := by
  obtain ⟨i⟩ := x
  obtain ⟨j⟩ := y
  exact congrArg Handle.mk h

namespace Lowering

open State

/-! ## (2) Growing graphs -/

namespace State

variable {s s' : State} {A B : List BlockId} {b : BlockId}

@[simp] theorem size_addBlock (s : State) : s.addBlock.blocks.size = s.blocks.size + 1 :=
  Arena.size_insert _ _

@[simp] theorem size_append (s : State) (b : BlockId) (x : BlockStmt) :
    (s.append b x).blocks.size = s.blocks.size := Arena.size_modify _ _ _

@[simp] theorem size_close (s : State) (b : BlockId) (t : Terminator) :
    (s.close b t).blocks.size = s.blocks.size := Arena.size_modify _ _ _

@[simp] theorem size_declare (s : State) (b : BlockId) (ty : TypeId) (name : String) (value : Option Value) :
    (s.declare b ty name value).blocks.size = s.blocks.size := by
  cases value with
  | none => exact size_append _ _ _
  | some v => exact (size_append _ _ _).trans (size_append _ _ _)

@[simp] theorem size_joined (j : BlockId) : ∀ (ends : List BlockId) (s : State),
    (s.joined j ends).blocks.size = s.blocks.size
  | [], _ => rfl
  | b :: rest, s => (size_joined j rest (s.close b (.jump j))).trans (size_close _ _ _)

@[simp] theorem size_withPayload (s : State) (b : BlockId) (scrutinee : Value) (head : ArmHead) (ty : TypeId)
    (binding : Option String) :
    (s.withPayload b scrutinee head ty binding).blocks.size = s.blocks.size := by
  cases binding with
  | none => rfl
  | some name => exact size_declare _ _ _ _ _

theorem Owns.of_blocks_eq (h : s.Owns A) (he : s'.blocks = s.blocks) : s'.Owns A :=
  (Yields.of_blocks_eq h he).owns

theorem successors_of_isOpen (h : s.IsOpen b) : s.successors b = [] := by
  obtain ⟨⟨stmts, terminator⟩, hget, rfl⟩ := h
  rw [Context.successors, hget]

/-- Ways through the graph stay while it grows: what leads somewhere is closed. -/
theorem Yields.reaches (h : Yields s A s' B) (ho : s.Owns A) (hr : s.context.Reaches a x) : s'.context.Reaches a x := by
  induction hr with
  | refl => exact .refl
  | @tail y z _ hstep ih =>
    obtain ⟨block, t, hget, hterm, hz⟩ := Context.mem_successors hstep
    have hy : y ∉ A := fun hmem => by
      rw [successors_of_isOpen (ho.isOpen y hmem)] at hstep
      cases hstep
    refine ih.tail ?_
    rw [Context.successors_eq ((h.kept y (Arena.get?_lt hget) hy).trans hget) hterm]
    exact hz

theorem get?_close_of_ne (s : State) (h : a ≠ b) (t : Terminator) :
    (s.close b t).blocks.get? a = s.blocks.get? a :=
  (Arena.get?_modify _ _ _ _).trans (if_neg h)

theorem successors_close (hb : b.index < s.blocks.size) (t : Terminator) :
    (s.close b t).successors b = t.successors := by
  obtain ⟨block, hget⟩ := Arena.get?_of_lt hb
  have hclosed : (s.close b t).blocks.get? b = some { block with terminator := some t } :=
    (Arena.get?_modify _ _ _ _).trans (by rw [if_pos rfl, hget]; rfl)
  exact Context.successors_eq hclosed rfl

theorem reaches_close (hb : b.index < s.blocks.size) {t : Terminator} (hx : x ∈ t.successors) :
    (s.close b t).context.Reaches b x := .single (by rwa [successors_close hb])

theorem successors_of_get?_eq (h : s'.blocks.get? a = s.blocks.get? a) :
    s'.successors a = s.successors a := by
  unfold Context.successors
  rw [h]

/-- The block was made on the way from `s` to `s'`. -/
def IsNew (s s' : State) (b : BlockId) : Prop :=
  s.blocks.size ≤ b.index ∧ b.index < s'.blocks.size

theorem isNew_next (s : State) : s.IsNew s.addBlock s.blocks.next :=
  ⟨Nat.le_refl _, (size_addBlock s).symm ▸ Nat.lt_succ_self _⟩

/-- The open blocks `A` were used and `B` are left. Each new block can be reached from one of the
entrances `S`, and so can each block of `A`; from these blocks and the new ones, control goes to
new blocks only. -/
structure Covers (s : State) (A S : List BlockId) (s' : State) (B : List BlockId) : Prop
    extends yields : Yields s A s' B where
  entered : A ⊆ S
  reached : ∀ x, s.IsNew s' x → ∃ a ∈ S, s'.context.Reaches a x
  inside : ∀ a, a ∈ A ∨ s.blocks.size ≤ a.index → ∀ x ∈ s'.successors a, s.IsNew s' x

namespace Covers

variable {s'' : State} {S T C D : List BlockId}

/-- Open blocks were filled, and none closed. -/
theorem of_size_eq (h : Yields s A s' A) (he : s'.blocks.size = s.blocks.size) :
    Covers s A A s' A := by
  refine ⟨h, fun _ hb => hb, fun x hx => ?_, fun a ha x hx => ?_⟩
  · have := hx.1
    have := hx.2
    omega
  · rcases ha with ha | ha
    · rw [successors_of_isOpen (h.owns.isOpen a ha)] at hx
      cases hx
    · rw [Context.successors_of_size_le (by omega)] at hx
      cases hx

theorem mono (h : Covers s A S s' B) (hS : S ⊆ T) : Covers s A T s' B :=
  ⟨h.yields, fun _ hb => hS (h.entered hb), fun x hx =>
    let ⟨a, ha, hr⟩ := h.reached x hx
    ⟨a, hS ha, hr⟩, h.inside⟩

theorem perm (h : Covers s A S s' B) (hB : B.Perm C) : Covers s A S s' C :=
  ⟨h.yields.perm (.refl _) hB, h.entered, h.reached, h.inside⟩

/-- What is left open can be reached. -/
theorem next (h : Covers s A S s' B) (hn : n ∈ B) : ∃ a ∈ S, s'.context.Reaches a n := by
  rcases h.origin n hn with hold | hnew
  · exact ⟨n, h.entered hold, .refl⟩
  · exact h.reached n ⟨hnew, (h.owns.isOpen n hn).lt⟩

/-- Some of the blocks that are left open are used; what is entered on the way is an entrance of
the whole or was left open. -/
theorem trans (h : Covers s A S s' (C ++ D)) (h' : Covers s' C T s'' B) (hT : ∀ b ∈ T, b ∈ C ∨ b ∈ S) :
    Covers s A S s'' (B ++ D) := by
  have hframe := h'.yields.frame h.owns
  have hle := h.size_le
  have hle' := h'.size_le
  refine ⟨h.yields.trans hframe, h.entered, fun x hx => ?_, fun a ha x hx => ?_⟩
  · by_cases hlt : x.index < s'.blocks.size
    · obtain ⟨a, ha, hr⟩ := h.reached x ⟨hx.1, hlt⟩
      exact ⟨a, ha, hframe.reaches h.owns hr⟩
    · obtain ⟨c, hc, hr⟩ := h'.reached x ⟨Nat.le_of_not_lt hlt, hx.2⟩
      rcases hT c hc with hC | hS
      · obtain ⟨a, ha, hrc⟩ := h.next (List.mem_append_left _ hC)
        exact ⟨a, ha, (hframe.reaches h.owns hrc).trans hr⟩
      · exact ⟨c, hS, hr⟩
  · by_cases hused : a ∈ C ∨ s'.blocks.size ≤ a.index
    · have hnew := h'.inside a hused x hx
      exact ⟨Nat.le_trans hle hnew.1, hnew.2⟩
    · obtain ⟨hC, hsmall⟩ := not_or.mp hused
      rw [successors_of_get?_eq (h'.kept a (by omega) hC)] at hx
      have hnew := h.inside a ha x hx
      exact ⟨hnew.1, Nat.lt_of_lt_of_le hnew.2 hle'⟩

/-- All of the blocks that are left open are used. -/
theorem andThen (h : Covers s A S s' C) (h' : Covers s' C C s'' B) : Covers s A S s'' B := by
  rw [← List.append_nil C] at h
  have := h.trans h' fun b hb => .inl hb
  rwa [List.append_nil] at this

theorem same (h : Covers s A S s' B) (he : s''.blocks = s'.blocks) : Covers s A S s'' B :=
  h.andThen (of_size_eq (.of_blocks_eq h.owns he) (by rw [he]))

/-- What can be reached from elsewhere need not be an entrance. -/
theorem narrow (h : Covers s A T s' B) (hA : A ⊆ S) (hT : ∀ n ∈ T, ∃ a ∈ S, s'.context.Reaches a n) :
    Covers s A S s' B := by
  refine ⟨h.yields, hA, fun x hx => ?_, h.inside⟩
  obtain ⟨n, hn, hr⟩ := h.reached x hx
  obtain ⟨a, ha, hr'⟩ := hT n hn
  exact ⟨a, ha, hr'.trans hr⟩

/-! ### The effects -/

theorem addBlock (s : State) : Covers s [] [s.blocks.next] s.addBlock [s.blocks.next] := by
  have hy := Yields.addBlock (owns_nil s)
  have hone : ∀ x : BlockId, s.blocks.size ≤ x.index → x.index < s.addBlock.blocks.size →
      x = s.blocks.next := fun x hlo hlt => by
    rw [size_addBlock] at hlt
    exact Handle.eq_of_index (by rw [Arena.next_index]; omega)
  refine ⟨hy, List.nil_subset _, fun x hx => ⟨_, .head _, hone x hx.1 hx.2 ▸ .refl⟩, fun a ha x hx => ?_⟩
  have hempty : s.addBlock.successors a = [] := by
    by_cases hlt : a.index < s.addBlock.blocks.size
    · have ha : a = s.blocks.next := hone a (ha.resolve_left List.not_mem_nil) hlt
      exact successors_of_isOpen (hy.owns.isOpen a (ha ▸ .head _))
    · exact Context.successors_of_size_le (Nat.le_of_not_lt hlt)
  rw [hempty] at hx
  cases hx

/-- A new block is made, which is entered. -/
theorem grow (h : Covers s A S s' B) (hn : n = s'.blocks.next) : Covers s A (n :: S) s'.addBlock (n :: B) := by
  subst hn
  refine (h.mono (List.subset_cons_self _ S)).trans (C := []) (addBlock s') fun b hb => .inr ?_
  rw [List.mem_singleton.mp hb]
  exact .head _

/-- An open block is closed, and leads to blocks that were made before. -/
theorem close (h : Covers s A S s' (b :: D)) (t : Terminator) (ht : ∀ x ∈ t.successors, s.IsNew s' x) :
    Covers s A S (s'.close b t) D := by
  have hclose : Yields s' (b :: D) (s'.close b t) D := .close h.owns t
  have hsize := size_close s' b t
  refine ⟨h.yields.trans hclose, h.entered, fun x hx => ?_, fun a ha x hx => ?_⟩
  · obtain ⟨a, ha, hr⟩ := h.reached x ⟨hx.1, hsize ▸ hx.2⟩
    exact ⟨a, ha, hclose.reaches h.owns hr⟩
  · suffices hnew : s.IsNew s' x from ⟨hnew.1, hsize.symm ▸ hnew.2⟩
    by_cases hab : a = b
    · subst hab
      rw [successors_close (h.owns.isOpen a (.head _)).lt] at hx
      exact ht x hx
    · refine h.inside a ha x ?_
      rwa [successors_of_get?_eq (get?_close_of_ne s' hab t)] at hx

/-- Ends jump to a block that was made before. -/
theorem joined {j : BlockId} : ∀ {ends : List BlockId} {s' : State}, Covers s A S s' (ends ++ D) → s.IsNew s' j →
    Covers s A S (s'.joined j ends) D
  | [], _, h, _ => h
  | b :: rest, s', h, hj => by
    have hclose : Covers s A S (s'.close b (.jump j)) (rest ++ D) :=
      h.close _ fun x hx => List.mem_singleton.mp hx ▸ hj
    exact hclose.joined ⟨hj.1, (size_close s' b (.jump j)).symm ▸ hj.2⟩

/-- The block where ends meet is reached from one of them. -/
theorem meet {ends : List BlockId} (ho : s.Owns ends) :
    Covers s ends ends (s.meet ends).2 (s.meet ends).1.toList := by
  have hrefl : Covers s ends ends s ends := of_size_eq (.refl ho) rfl
  cases ends with
  | nil => exact hrefl
  | cons e ends =>
    have hgrow := (hrefl.grow rfl).perm (List.perm_append_singleton _ (e :: ends)).symm
    have hopen := hgrow.owns.isOpen e (.head _)
    have hjump : (s.addBlock.close e (.jump s.blocks.next)).context.Reaches e s.blocks.next :=
      reaches_close hopen.lt (.head _)
    have hclose := Yields.close hgrow.owns (.jump s.blocks.next)
    have hrest := (Yields.joined s.blocks.next ends hclose.owns).reaches hclose.owns hjump
    refine (hgrow.joined s.isNew_next).narrow (fun _ hb => hb) fun n hn => ?_
    rcases List.mem_cons.mp hn with rfl | hn
    · exact ⟨e, .head _, hrest⟩
    · exact ⟨n, hn, .refl⟩

theorem branch (ho : s.Owns [b]) (c : Value) (ht : t = s.blocks.next)
    (hf : f = s.addBlock.blocks.next) :
    Covers s [b] [b] (s.addBlock.addBlock.close b (.branch c t f)) [t, f] := by
  have hgrow := ((of_size_eq (.refl ho) rfl).grow ht).grow hf
  have hperm := hgrow.perm (C := [b, t, f]) (List.reverse_perm [b, t, f])
  have hb := (hperm.owns.isOpen b (.head _)).lt
  have hnew : ∀ x ∈ [t, f], s.IsNew s.addBlock.addBlock x := by
    simp only [List.forall_mem_cons, List.not_mem_nil, false_imp_iff, implies_true, and_true, ht, hf, IsNew,
      Arena.next_index, size_addBlock]
    omega
  refine (hperm.close (.branch c t f) hnew).narrow (fun _ hx => hx) fun n hn => ⟨b, .head _, ?_⟩
  simp only [List.mem_cons, List.not_mem_nil, or_false] at hn
  rcases hn with rfl | rfl | rfl
  · exact reaches_close hb (by simp [Terminator.successors])
  · exact reaches_close hb (by simp [Terminator.successors])
  · exact .refl

theorem loop (ho : s.Owns [b]) (c : Value) {head t exit : BlockId} (hhead : head = s.blocks.next)
    (ht : t = s.addBlock.blocks.next) (hexit : exit = s.addBlock.addBlock.blocks.next) :
    Covers s [b] [b] ((s.addBlock.addBlock.addBlock.close b (.jump head)).close head (.branch c t exit)) [t, exit] := by
  obtain ⟨heq, hmeets, ht, hexit⟩ := loop_eq (ho.isOpen b (.head _)).lt hhead ht hexit
  have hmeet := meet ho
  rw [hmeets] at hmeet
  rw [heq]
  exact hmeet.andThen (branch hmeet.owns c ht hexit)

/-- A switch, made after what it leads to. -/
theorem switch (ho : s.Owns [b]) {targets : List (VariantId × BlockId)} (v : Value)
    (h : Covers s [] (targets.map (·.2) ++ [f]) s' B) (hnew : ∀ x ∈ targets.map (·.2) ++ [f], s.IsNew s' x) :
    Covers s [b] [b] (s'.close b (.switch v targets f)) B := by
  have hrefl : Covers s [b] (b :: (targets.map (·.2) ++ [f])) s [b] :=
    (of_size_eq (.refl ho) rfl).mono (by simp)
  have hframe := (hrefl.trans (C := []) h fun _ hx => .inr (.tail _ hx)).perm (C := b :: B)
    List.perm_append_comm
  have hb := (hframe.owns.isOpen b (.head _)).lt
  refine (hframe.close (.switch v targets f) hnew).narrow (fun _ hx => hx) fun n hn => ⟨b, .head _, ?_⟩
  rcases List.mem_cons.mp hn with rfl | hn
  · exact .refl
  · exact reaches_close hb hn

end Covers

end State

end Lowering

end BlockCompiler
