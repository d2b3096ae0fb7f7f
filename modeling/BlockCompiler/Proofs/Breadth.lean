/-
  BlockCompiler.Proofs.Breadth — the order in which blocks are listed.

  At every moment of the search, what is done and what is queued are together the entry and the
  blocks that the done ones lead to, each where it was first met (`Explored`). When the queue is
  empty, the list describes itself in this way, and all else follows from that.

  (1) New blocks are listed in the order in which they are met (`fresh_append`, `fresh_pairwise`).
  (2) The search ends with an empty queue: a list without repetitions of blocks that are jumped to
      is no longer than the jumps are many (`visit_explored`, `Context.length_targets`).
  (3) Blocks are listed by their predecessors (`Precedes`), hence by their distance from the entry
      (`Explored.distance_le`), which makes the list a breadth-first one (`reachable_breadthFirst`).
-/
import BlockCompiler.Proofs.Reachable
import Mathlib.Order.Lattice.Nat

namespace BlockCompiler

open List (findIdx_cons length_append mem_cons mem_cons_self mem_flatMap mem_of_getElem? nodup_cons pairwise_cons)

namespace Breadth

variable {next : BlockId → List BlockId} {entry a b : BlockId} {l : List BlockId} {n : Nat}

/-! ## (1) New blocks -/

theorem nodup_fresh : ∀ (xs seen : List BlockId), (fresh seen xs).Nodup
  | [], _ => List.nodup_nil
  | x :: rest, seen => by
    unfold fresh
    split
    · exact nodup_fresh rest seen
    · refine nodup_cons.mpr ⟨fun h => ?_, nodup_fresh rest _⟩
      exact (mem_fresh.mp h).2 (.head _)

/-- Only the members of what is known matter. -/
theorem fresh_congr : ∀ (xs : List BlockId) {seen seen' : List BlockId}, (∀ b, b ∈ seen ↔ b ∈ seen') →
    fresh seen xs = fresh seen' xs
  | [], _, _, _ => rfl
  | x :: rest, seen, seen', h => by
    have hcons : ∀ b, b ∈ x :: seen ↔ b ∈ x :: seen' := fun b => by rw [mem_cons, mem_cons, h]
    simp only [fresh, h x, fresh_congr rest h, fresh_congr rest hcons]

theorem fresh_append : ∀ (xs ys seen : List BlockId),
    fresh seen (xs ++ ys) = fresh seen xs ++ fresh (seen ++ fresh seen xs) ys
  | [], _, _ => by simp [fresh]
  | x :: rest, ys, seen => by
    simp only [List.cons_append, fresh]
    split
    · exact fresh_append rest ys seen
    · rw [List.cons_append, fresh_append rest ys]
      congr 2
      exact fresh_congr ys fun b => by simp only [List.mem_append, mem_cons]; tauto

theorem fresh_pairwise : ∀ (xs seen : List BlockId), (fresh seen xs).Pairwise fun a b => xs.idxOf a < xs.idxOf b
  | [], _ => .nil
  | x :: rest, seen => by
    -- a block that is new although `x` is known stands one place later in `x :: rest`
    have hlater : ∀ {known : List BlockId}, x ∈ known → ∀ b ∈ fresh known rest,
        (x :: rest).idxOf b = rest.idxOf b + 1 := fun hx b hb => by
      have hne : x ≠ b := fun h => (mem_fresh.mp hb).2 (h ▸ hx)
      exact List.idxOf_cons_ne rest hne
    unfold fresh
    split
    · rename_i hx
      refine (fresh_pairwise rest seen).imp_of_mem fun ha hb h => ?_
      rw [hlater hx _ ha, hlater hx _ hb]
      omega
    · refine pairwise_cons.mpr ⟨fun b hb => ?_, (fresh_pairwise rest _).imp_of_mem fun ha hb h => ?_⟩
      · rw [hlater mem_cons_self b hb, List.idxOf_cons_self]
        omega
      · rw [hlater mem_cons_self _ ha, hlater mem_cons_self _ hb]
        omega

/-! ## (2) The search -/

/-- What is done and queued are the entry and what the done blocks lead to, as it was met. -/
def Explored (next : BlockId → List BlockId) (entry : BlockId) (done queue : List BlockId) : Prop :=
  done ++ queue = entry :: fresh [entry] (done.flatMap next)

theorem Explored.step {done queue : List BlockId} (h : Explored next entry done (b :: queue)) :
    Explored next entry (done ++ [b]) (queue ++ fresh (done ++ [b] ++ queue) (next b)) := by
  have hlist : done ++ [b] ++ queue = entry :: fresh [entry] (done.flatMap next) := by
    rw [List.append_assoc]
    exact h
  rw [Explored, ← List.append_assoc, hlist, List.flatMap_append, fresh_append, List.flatMap_singleton]
  rfl

/-- The search ends where there are no more blocks to be found than steps to be taken. -/
theorem visit_explored : ∀ (steps : Nat) {done queue : List BlockId}, Explored next entry done queue →
    (done ++ queue).Nodup → (∀ l : List BlockId, l.Nodup → (∀ b ∈ l, b = entry ∨ ∃ a, b ∈ next a) →
      l.length ≤ done.length + steps) → Explored next entry (visit next steps done queue) []
  | 0, done, queue, h, hnodup, hbound => by
    have hmem : ∀ b ∈ done ++ queue, b = entry ∨ ∃ a, b ∈ next a := fun b hb => by
      rw [h] at hb
      rcases mem_cons.mp hb with rfl | hb
      · exact .inl rfl
      · obtain ⟨a, -, ha⟩ := mem_flatMap.mp (mem_fresh.mp hb).1
        exact .inr ⟨a, ha⟩
    have hlen := hbound _ hnodup hmem
    obtain rfl : queue = [] := List.eq_nil_of_length_eq_zero (by rw [length_append] at hlen; omega)
    rw [visit, List.append_nil]
    exact h
  | _ + 1, done, [], h, _, _ => h
  | steps + 1, done, b :: queue, h, _, hbound => by
    have hstep := h.step
    refine visit_explored steps hstep ?_ fun l hl hmem => ?_
    · rw [hstep]
      exact nodup_cons.mpr ⟨fun hentry => (mem_fresh.mp hentry).2 (.head _), nodup_fresh _ _⟩
    · have := hbound l hl hmem
      rw [length_append, List.length_singleton]
      omega

/-! ## (3) The order -/

/-- A way from the entry to a block, by its number of jumps. -/
inductive Walk (next : BlockId → List BlockId) (entry : BlockId) : Nat → BlockId → Prop
  | entry : Walk next entry 0 entry
  | jump {n : Nat} {a b : BlockId} : Walk next entry n a → b ∈ next a → Walk next entry (n + 1) b

/-- The length of a shortest way. -/
noncomputable def distance (next : BlockId → List BlockId) (entry b : BlockId) : Nat := sInf {n | Walk next entry n b}

theorem Walk.distance_le (h : Walk next entry n b) : distance next entry b ≤ n := Nat.sInf_le h

theorem Walk.shortest (h : Walk next entry n b) : Walk next entry (distance next entry b) b :=
  Nat.sInf_mem (s := {n | Walk next entry n b}) ⟨n, h⟩

theorem distance_entry : distance next entry entry = 0 := Nat.le_zero.mp Walk.entry.distance_le

/-- Blocks other than the entry are away from it. -/
theorem Walk.eq_entry (h : Walk next entry n b) (hd : distance next entry b = 0) : b = entry := by
  have hb := h.shortest
  rw [hd] at hb
  cases hb
  rfl

/-- The last block but one of a shortest way. -/
theorem Walk.exists_before (h : Walk next entry (n + 1) b) (hd : distance next entry b = n + 1) :
    ∃ a, Walk next entry n a ∧ b ∈ next a ∧ distance next entry a = n := by
  cases h with
  | @jump _ a _ ha hb =>
    have hle := ha.distance_le
    have hge := (ha.shortest.jump hb).distance_le
    exact ⟨a, ha, hb, by omega⟩

/-- The place in a list of the first block that leads to `b`. -/
def predecessor (next : BlockId → List BlockId) (l : List BlockId) (b : BlockId) : Nat := l.findIdx fun a => b ∈ next a

/-- The first place of `b` among the blocks that this one leads to. -/
def branch (next : BlockId → List BlockId) (l : List BlockId) (b : BlockId) : Nat :=
  ((l[predecessor next l b]?).map fun a => (next a).idxOf b).getD 0

/-- The first predecessor of `a` comes before that of `b`, or is the same and leads to `a` first. -/
def Precedes (next : BlockId → List BlockId) (l : List BlockId) (a b : BlockId) : Prop :=
  predecessor next l a < predecessor next l b ∨
    predecessor next l a = predecessor next l b ∧ branch next l a < branch next l b

theorem Precedes.le (h : Precedes next l a b) : predecessor next l a ≤ predecessor next l b := by
  rcases h with hlt | ⟨heq, -⟩
  · exact hlt.le
  · exact heq.le

theorem predecessor_le {k : Nat} (hk : l[k]? = some a) (hb : b ∈ next a) : predecessor next l b ≤ k := by
  by_contra hlt
  obtain ⟨hlt', hat⟩ := List.getElem?_eq_some_iff.mp hk
  have hnot := List.not_of_lt_findIdx (Nat.lt_of_not_le hlt)
  rw [hat] at hnot
  exact of_decide_eq_false hnot hb

theorem precedes_of_idxOf_lt : ∀ {l : List BlockId}, (l.flatMap next).idxOf a < (l.flatMap next).idxOf b →
    Precedes next l a b
  | [], h => by simp at h
  | x :: rest, h => by
    rw [List.flatMap_cons, List.idxOf_append, List.idxOf_append] at h
    by_cases ha : a ∈ next x <;> by_cases hb : b ∈ next x
    · rw [if_pos ha, if_pos hb] at h
      exact .inr (by simpa [predecessor, branch, findIdx_cons, ha, hb] using h)
    · exact .inl (by simp [predecessor, findIdx_cons, ha, hb])
    · rw [if_neg ha, if_pos hb] at h
      have := List.idxOf_lt_length_of_mem hb
      omega
    · rw [if_neg ha, if_neg hb] at h
      have hrest : Precedes next rest a b := precedes_of_idxOf_lt (by omega)
      simpa [Precedes, predecessor, branch, findIdx_cons, ha, hb] using hrest

section

variable {l : List BlockId} (h : Explored next entry l [])
include h

theorem Explored.eq : l = entry :: fresh [entry] (l.flatMap next) := by simpa [Explored] using h

theorem Explored.nodup : l.Nodup := by
  rw [h.eq]
  exact nodup_cons.mpr ⟨fun hentry => (mem_fresh.mp hentry).2 (.head _), nodup_fresh _ _⟩

theorem Explored.mem_iff : b ∈ l ↔ b = entry ∨ ∃ a ∈ l, b ∈ next a := by
  conv_lhs => rw [h.eq]
  rw [mem_cons, mem_fresh, mem_flatMap, List.mem_singleton]
  tauto

theorem Explored.mem_of_walk (hw : Walk next entry n b) : b ∈ l := by
  induction hw with
  | entry => exact h.mem_iff.mpr (.inl rfl)
  | jump _ hb ih => exact h.mem_iff.mpr (.inr ⟨_, ih, hb⟩)

/-- The blocks but the entry are listed by their predecessors. -/
theorem Explored.pairwise : l.Pairwise fun a b => b ≠ entry ∧ (a = entry ∨ Precedes next l a b) := by
  have hne : ∀ {b}, b ∈ fresh [entry] (l.flatMap next) → b ≠ entry := fun hb => by simpa using (mem_fresh.mp hb).2
  have hpairwise : (entry :: fresh [entry] (l.flatMap next)).Pairwise fun a b =>
      b ≠ entry ∧ (a = entry ∨ Precedes next l a b) := by
    refine pairwise_cons.mpr ⟨fun b hb => ⟨hne hb, .inl rfl⟩, ?_⟩
    exact (fresh_pairwise _ _).imp_of_mem fun _ hb hlt => ⟨hne hb, .inr (precedes_of_idxOf_lt hlt)⟩
  rwa [← h.eq] at hpairwise

theorem Explored.exists_predecessor (ha : a ∈ l) (hne : a ≠ entry) :
    ∃ p, l[predecessor next l a]? = some p ∧ a ∈ next p := by
  obtain ⟨p, hp, hap⟩ := (h.mem_iff.mp ha).resolve_left hne
  have hlt : predecessor next l a < l.length := List.findIdx_lt_length_of_exists ⟨p, hp, decide_eq_true hap⟩
  have hat : decide (a ∈ next l[predecessor next l a]) = true := List.findIdx_getElem (w := hlt)
  exact ⟨_, List.getElem?_eq_getElem hlt, of_decide_eq_true hat⟩

theorem Explored.precedes {i j : Nat} (hi : l[i]? = some a) (hj : l[j]? = some b) (hij : i < j) :
    b ≠ entry ∧ (a = entry ∨ Precedes next l a b) := by
  obtain ⟨hilt, rfl⟩ := List.getElem?_eq_some_iff.mp hi
  obtain ⟨hjlt, rfl⟩ := List.getElem?_eq_some_iff.mp hj
  exact List.pairwise_iff_getElem.mp h.pairwise i j hilt hjlt hij

/-- By induction on the distance of the later block: what is listed before it has a predecessor
that is listed no later than the last block but one on a shortest way. -/
theorem Explored.distance_le (hwalk : ∀ b ∈ l, ∃ n, Walk next entry n b) {i j : Nat} (hi : l[i]? = some a)
    (hj : l[j]? = some b) (hij : i < j) (hd : distance next entry b = n) : distance next entry a ≤ n := by
  induction n generalizing a b i j with
  | zero =>
    obtain ⟨_, hb⟩ := hwalk b (mem_of_getElem? hj)
    exact absurd (hb.eq_entry hd) (h.precedes hi hj hij).1
  | succ n ih =>
    by_cases hentry : a = entry
    · rw [hentry, distance_entry]
      exact Nat.zero_le _
    obtain ⟨_, hb⟩ := hwalk b (mem_of_getElem? hj)
    obtain ⟨q, hq, hbq, hdq⟩ := (hd ▸ hb.shortest).exists_before hd
    obtain ⟨k, hk⟩ := List.mem_iff_getElem?.mp (h.mem_of_walk hq)
    obtain ⟨p, hp, hap⟩ := h.exists_predecessor (mem_of_getElem? hi) hentry
    have hle : predecessor next l a ≤ k := ((h.precedes hi hj hij).2.resolve_left hentry).le.trans (predecessor_le hk hbq)
    have hdp : distance next entry p ≤ n := by
      rcases Nat.lt_or_eq_of_le hle with hlt | heq
      · exact ih hp hk hlt hdq
      · rw [heq, hk] at hp
        cases hp
        exact hdq.le
    obtain ⟨_, hwp⟩ := hwalk p (mem_of_getElem? hp)
    exact (hwp.shortest.jump hap).distance_le.trans (Nat.succ_le_succ hdp)

end

end Breadth

namespace Context

variable {c : Context}

/-- The blocks that are jumped to, as often as they are. -/
def targets (c : Context) : List BlockId :=
  c.blocks.items.toList.flatMap fun b => (b.terminator.map (·.successors)).getD []

theorem length_targets : c.targets.length = c.jumpCount := by
  have hsum : ∀ (blocks : List Block) (n : Nat),
      blocks.foldl (fun n b => n + (b.terminator.map (·.successors.length)).getD 0) n =
        n + (blocks.flatMap fun b => (b.terminator.map (·.successors)).getD []).length := by
    intro blocks
    induction blocks with
    | nil => intro n; rfl
    | cons b rest ih =>
      intro n
      rw [List.foldl_cons, ih, List.flatMap_cons, length_append, ← Nat.add_assoc]
      cases b.terminator <;> rfl
  rw [jumpCount, hsum, Nat.zero_add, targets]

theorem mem_targets {a b : BlockId} (h : b ∈ c.successors a) : b ∈ c.targets := by
  unfold successors at h
  split at h
  · rename_i stmts t hget
    exact mem_flatMap.mpr ⟨_, Array.mem_toList_iff.mpr (Array.mem_of_getElem? hget), h⟩
  · cases h

theorem explored_reachableFrom (c : Context) (entry : BlockId) :
    Breadth.Explored c.successors entry (c.reachableFrom entry) [] := by
  refine Breadth.visit_explored (c.jumpCount + 1) rfl (List.nodup_singleton entry) fun l hl hmem => ?_
  have hsubset : l ⊆ entry :: c.targets := fun b hb => by
    rcases hmem b hb with rfl | ⟨a, ha⟩
    · exact .head _
    · exact .tail _ (mem_targets ha)
  have hle := (List.subperm_of_subset hl hsubset).length_le
  rw [List.length_cons, length_targets] at hle
  simpa using hle

theorem Reaches.exists_walk {entry b : BlockId} (h : c.Reaches entry b) : ∃ n, Breadth.Walk c.successors entry n b := by
  induction h with
  | refl => exact ⟨0, .entry⟩
  | tail _ hb ih =>
    obtain ⟨n, hn⟩ := ih
    exact ⟨n + 1, hn.jump hb⟩

/-- The blocks of a function with a body, whatever its jumps: first the entry, then every handle that
control can go to, once each and no other. Blocks at a smaller distance from the entry come first, and
those at the same distance in the order of the first block listed that leads to them, and of the places
that they have among the blocks that it leads to. -/
theorem reachable_breadthFirst {fn : FunId} {f : Function} {body : Body} (hf : c.funs.get? fn = some f)
    (hbody : f.body = some body) : ∃ l, c.reachable fn = .ok l ∧ l.head? = some body.entry ∧ l.Nodup ∧
      (∀ b, b ∈ l ↔ c.Reaches body.entry b) ∧
      l.Pairwise fun a b =>
        Breadth.distance c.successors body.entry a ≤ Breadth.distance c.successors body.entry b ∧
        (Breadth.distance c.successors body.entry a = Breadth.distance c.successors body.entry b →
          Breadth.Precedes c.successors l a b) := by
  have hl := c.explored_reachableFrom body.entry
  have hwalk : ∀ b ∈ c.reachableFrom body.entry, ∃ n, Breadth.Walk c.successors body.entry n b := fun b hb =>
    (reaches_of_mem_reachableFrom hb).exists_walk
  refine ⟨c.reachableFrom body.entry, ?_, ?_, hl.nodup, fun b => ⟨reaches_of_mem_reachableFrom, fun hb => ?_⟩, ?_⟩
  · simp only [reachable, Arena.get_eq_ok.mpr hf, hbody, bind, Except.bind]
    rfl
  · rw [hl.eq]
    rfl
  · obtain ⟨n, hn⟩ := hb.exists_walk
    exact hl.mem_of_walk hn
  · refine List.pairwise_iff_getElem.mpr fun i j hi hj hij => ?_
    have hat := List.getElem?_eq_getElem hi
    have hat' := List.getElem?_eq_getElem hj
    obtain ⟨hne, horder⟩ := hl.precedes hat hat' hij
    refine ⟨hl.distance_le hwalk hat hat' hij rfl, fun hd => ?_⟩
    refine horder.resolve_left fun hentry => hne ?_
    obtain ⟨n, hn⟩ := hwalk _ (List.getElem_mem hj)
    exact hn.eq_entry (by rw [← hd, hentry, Breadth.distance_entry])

/-- A function whose entry leads to the blocks 2 and 1; 2 leads back to the entry and to a handle that
was never issued, and 1 to itself. -/
def sampleGraph : Context where
  funs := ⟨#[{ name := "f", signature := ⟨[], TypeId.unit⟩, file := 0, span := .none, body := some ⟨⟨0⟩, ⟨0⟩⟩ }]⟩
  blocks := ⟨#[{ terminator := some (.branch (.bool true TypeId.bool .none) ⟨2⟩ ⟨1⟩) },
    { terminator := some (.jump ⟨1⟩) },
    { terminator := some (.branch (.bool true TypeId.bool .none) ⟨9⟩ ⟨0⟩) }]⟩

theorem sampleGraph_breadthFirst : sampleGraph.reachable ⟨0⟩ = .ok [⟨0⟩, ⟨2⟩, ⟨1⟩, ⟨9⟩] ∧ sampleGraph.Reaches ⟨0⟩ ⟨9⟩ ∧
    Breadth.distance sampleGraph.successors ⟨0⟩ ⟨1⟩ ≤ Breadth.distance sampleGraph.successors ⟨0⟩ ⟨9⟩ := by
  have hfun : sampleGraph.funs.get? ⟨0⟩ =
      some { name := "f", signature := ⟨[], TypeId.unit⟩, file := 0, span := .none, body := some ⟨⟨0⟩, ⟨0⟩⟩ } := rfl
  have hlist : sampleGraph.reachable ⟨0⟩ = .ok [⟨0⟩, ⟨2⟩, ⟨1⟩, ⟨9⟩] := by decide
  obtain ⟨l, hl, -, -, hmem, hpairwise⟩ := reachable_breadthFirst hfun rfl
  cases Except.ok.inj (hlist.symm.trans hl)
  have hlast := pairwise_cons.mp (pairwise_cons.mp (pairwise_cons.mp hpairwise).2).2
  exact ⟨hlist, (hmem ⟨9⟩).mp (by decide), (hlast.1 ⟨9⟩ (by decide)).1⟩

end Context

end BlockCompiler
