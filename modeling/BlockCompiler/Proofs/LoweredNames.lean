/-
  BlockCompiler.Proofs.LoweredNames — names and widths in lowered modules.

  What a module adds to a fresh context are compound types, aliases and names from the module. So no two
  aliases have the same name, integers have the primitive widths, and every name comes from the module
  (`keyed_of_lowerModule`, `width_of_lowerModule`, `named_of_lowerModule`).
-/
import BlockCompiler.Proofs.Canonical

namespace BlockCompiler.Lowering

variable {N : String → Prop} {id : TypeId} {signed : Bool} {w : Nat} {cfg : Settings} {s' : State} {m : Surface.Module}
  {journal : Log.Journal} {fns : List FunId}

theorem named_empty : Context.Named N {} := by
  refine ⟨fun fn f hf => ?_, fun x v hv => ?_, fun id name u hid => ?_⟩
  · cases hf
  · cases hv
  · exact absurd hid (TypeTable.fresh_ne_named id name u)

theorem from_of_lowerModule {r : Except (List Diagnostic) (List FunId)} (h : lowerModule cfg m { journal } = .ok r s')
    (hreserved : ∀ n ∈ reservedNames, N n) (hN : ∀ n ∈ moduleBinders m, N n) : From N { journal } s' := by
  have hrun := keeps_lowerModule hreserved named_empty cfg m hN { journal } (.refl N _)
  rw [h] at hrun
  exact hrun.1

section

variable (h : lowerModule cfg m { journal } = .ok (.ok fns) s')
include h

theorem develops_of_lowerModule : Context.Develops Any {} s'.context :=
  (from_of_lowerModule h (fun _ _ => trivial) fun _ _ => trivial).develops

/-- The names in the context of a module come from the module. -/
theorem named_of_lowerModule (hreserved : ∀ n ∈ reservedNames, N n) (hN : ∀ n ∈ moduleBinders m, N n)
    : s'.context.Named N :=
  (from_of_lowerModule h hreserved hN).develops.named named_empty

theorem keyed_of_lowerModule : s'.types.Keyed :=
  (develops_of_lowerModule h).types TypeTable.Keyed.kept TypeTable.fresh_keyed

/-- No sum of a module lists a type twice. -/
theorem distinct_of_lowerModule : s'.types.Distinct :=
  (develops_of_lowerModule h).distinct TypeTable.fresh_distinct

/-- The integers of a module are primitive types. -/
theorem width_of_lowerModule (hid : s'.types.get? id = some (.int signed w)) : w ∈ [8, 16, 32, 64] := by
  have hmem := (develops_of_lowerModule h).primitive id _ hid rfl rfl
  simp [Ty.primitives] at hmem
  simp
  omega

end

end BlockCompiler.Lowering
