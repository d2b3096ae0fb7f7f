/-
  BlockCompiler.Proofs.Reporting — what is reported, and by whom.

  A check returns the diagnostic that rejects a part of the program, and building a graph
  returns none at all. Reporting is left to lists of statements, to declarations and to the
  end of a body, and only there a limit on errors can be looked at.

  States differ by what was reported (`State.Tells`). Steps that build report nothing (`Silent`),
  and those that are taken before anything is nested in a statement may reject it (`Examines`).
-/
import BlockCompiler.Proofs.Body
import BlockCompiler.Proofs.Development

namespace BlockCompiler

namespace Lowering

/-- Nothing was reported. -/
structure State.Quiet (s s' : State) : Prop where
  diags : s'.diags = s.diags
  errors : s'.errors = s.errors

/-- What was reported has the property `P`. -/
def State.Tells (P : Diagnostic → Prop) (s s' : State) : Prop :=
  ∃ new, s'.diags.toList = s.diags.toList ++ new ∧ s'.errors = s.errors + new.countP (·.isError) ∧ ∀ d ∈ new, P d

section

variable {α : Type} {P P' : Diagnostic → Prop} {s s' s'' : State} {cfg : Settings}

theorem State.Quiet.refl (s : State) : s.Quiet s := ⟨rfl, rfl⟩

theorem State.Quiet.trans (h : s.Quiet s') (h' : s'.Quiet s'') : s.Quiet s'' :=
  ⟨h'.diags.trans h.diags, h'.errors.trans h.errors⟩

theorem State.Quiet.atLimit (h : s.Quiet s') : s'.AtLimit cfg ↔ s.AtLimit cfg := by
  rw [State.AtLimit, h.errors, State.AtLimit]

theorem State.Quiet.tells (h : s.Quiet s') : s.Tells P s' :=
  ⟨[], by rw [h.diags, List.append_nil], h.errors, List.forall_mem_nil P⟩

theorem State.Tells.trans (h : s.Tells P s') (h' : s'.Tells P s'') : s.Tells P s'' := by
  obtain ⟨new, hdiags, herrors, hP⟩ := h
  obtain ⟨new', hdiags', herrors', hP'⟩ := h'
  refine ⟨new ++ new', ?_, ?_, List.forall_mem_append.mpr ⟨hP, hP'⟩⟩
  · rw [hdiags', hdiags, List.append_assoc]
  · rw [herrors', herrors, List.countP_append, Nat.add_assoc]

theorem State.Tells.mono (h : s.Tells P s') (hP : ∀ d, P d → P' d) : s.Tells P' s' := by
  obtain ⟨new, hdiags, herrors, hnew⟩ := h
  exact ⟨new, hdiags, herrors, fun d hd => hP d (hnew d hd)⟩

theorem State.Tells.isPrefix (h : s.Tells P s') : s.diags.toList <+: s'.diags.toList := by
  obtain ⟨new, hdiags, -⟩ := h
  exact ⟨new, hdiags.symm⟩

theorem State.tells_reported {d : Diagnostic} (hd : P d) : s.Tells P (s.reported cfg d) := by
  refine ⟨[d], by simp [State.reported], ?_, by simpa using hd⟩
  cases he : d.isError <;> simp [State.reported, he]

instance (s : State) : KeptByBuilding Any s.Quiet where
  typing _ := ⟨fun h _ _ => ⟨h.diags, h.errors⟩, fun _ h => ⟨h.diags, h.errors⟩⟩
  scopes _ h := ⟨h.diags, h.errors⟩
  addBlock h := ⟨h.diags, h.errors⟩
  addVar h _ := ⟨h.diags, h.errors⟩
  append h := ⟨h.diags, h.errors⟩
  close h _ := ⟨h.diags, h.errors⟩

/-- The step reports nothing. -/
def Silent (act : LowerM α) : Prop := ∀ s : State, Keeps s.Quiet act Any

theorem Silent.whenever {act : LowerM α} (h : Silent act) (s : State) : Whenever act s fun _ s' => s.Quiet s' :=
  (Keeps.whenever (h s) (.refl s)).mono fun _ _ h => h.1

/-- The step reports nothing; it may reject a part of a body. -/
def Examines (act : StmtM α) : Prop := ∀ s : State, KeepsT s.Quiet act Any

theorem Examines.answers {act : StmtM α} (h : Examines act) (s : State) :
    Answers act s (fun _ s' => s.Quiet s') fun d s' => s.Quiet s' ∧ d.Inner :=
  (KeepsT.answers (h s) (.refl s)).mono (fun _ _ h => h.1) fun _ _ h => ⟨h.1, h.2.inner⟩

theorem State.started_quiet (s : State) (fn : FunId) (f : Function) : s.Quiet (s.started fn f) := by
  have hbegun : s.Quiet (s.begun fn f).enter := ⟨rfl, rfl⟩
  have hparams : s.Quiet ((s.begun fn f).enter.withParams s.blocks.next f.span 0 f.signature.params) :=
    hbegun.trans (withParams_of_bound .refl .trans (fun _ _ _ _ => ⟨rfl, rfl⟩) _ _ _)
  exact ⟨hparams.diags, hparams.errors⟩

end

end Lowering

end BlockCompiler
