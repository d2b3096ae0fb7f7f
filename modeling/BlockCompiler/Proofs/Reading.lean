/-
  BlockCompiler.Proofs.Reading — what lowered values read, and the sums of a table.

  A value that was lowered from an expression reads only variables that a name in force stands
  for; it reads no argument and no payload, which have no name (`Value.Plain`).

  Sums are made by annotations only, and an annotation lists a type once: so the variants of
  all sums in a table stay different (`TypeTable.Distinct`).
-/
import BlockCompiler.Proofs.Partial
import BlockCompiler.Proofs.TypeDefs

namespace BlockCompiler

open Surface (Expr TypeExpr)

variable {ty : TypeId} {span : Span} {v : Value} {t : TypeTable} {st : Typing}

/-! ## Sums with different variants -/

namespace TypeTable

/-- No sum lists a type twice. -/
def Distinct (t : TypeTable) : Prop := ∀ id variants, t.get? id = some (.sum variants) → variants.Nodup

theorem fresh_distinct : fresh.Distinct := by
  intro id variants h
  rw [get?_fresh] at h
  have hplain : ∀ ty ∈ Ty.primitives, ty.mentions = [] := by decide
  have hnil : variants = [] := hplain _ (List.mem_of_getElem? h)
  rw [hnil]
  exact List.nodup_nil

theorem Distinct.insert (h : t.Distinct) {ty : Ty} (hty : ∀ variants, ty = .sum variants → variants.Nodup) :
    Distinct (t.insert ty).2 := by
  intro id variants hid
  rcases get?_insert_cases hid with hid | ⟨-, heq⟩
  · exact h id variants hid
  · exact hty variants heq.symm

/-- An alias is defined once. -/
theorem get?_of_defineAlias {t' : TypeTable} {id u : TypeId} (h : t.defineAlias id u = .ok t') :
    ∃ name, t.get? id = some (.named name .invalid) ∧ t'.size = t.size ∧
      ∀ id', t'.get? id' = if id' = id then some (.named name u) else t.get? id' := by
  have hdefine := h
  unfold defineAlias at h
  obtain ⟨ty, hget, h⟩ := bind_eq_ok.mp h
  rw [Interner.get_eq_ok] at hget
  split at h
  · split at h
    · rename_i hcurrent
      rw [hcurrent] at hget
      obtain ⟨t'', ht'', hspec⟩ := defineAlias_ok hget u
      rw [hdefine] at ht''
      cases ht''
      exact ⟨_, hget, hspec⟩
    · cases h
  · cases h

theorem Distinct.defineAlias {t' : TypeTable} (h : t.Distinct) {id u : TypeId} (hd : t.defineAlias id u = .ok t') :
    t'.Distinct := by
  obtain ⟨name, -, -, hget⟩ := get?_of_defineAlias hd
  intro id' variants hsum
  rw [hget] at hsum
  split at hsum
  · cases hsum
  · exact h id' variants hsum

end TypeTable

@[simp] theorem whenever_typingAsk {α : Type} (f : TypeTable → Except Fault α) (Q : α → Typing → Prop) :
    Whenever (Typing.ask f) st Q ↔ ∀ a, f st.types = .ok a → Q a st := by
  simp [whenever_iff]

@[simp] theorem whenever_nameOf (id : TypeId) (Q : String → Typing → Prop) :
    Whenever (Typing.nameOf id) st Q ↔ ∀ name, st.types.name id = .ok name → Q name st :=
  whenever_typingAsk _ Q

/-! ## What values read -/

namespace Value

/-- Variables are of the given kind; no argument and no payload is read. -/
def PlainPart (P : VarId → Prop) : Value → Prop
  | .var x _ _ => P x
  | .arg _ _ _ | .project _ _ _ _ => False
  | _ => True

def Plain (P : VarId → Prop) (v : Value) : Prop := ∀ n ∈ v.nodes, n.PlainPart P

variable {P : VarId → Prop}

theorem Plain.mono {Q : VarId → Prop} (h : v.Plain P) (hPQ : ∀ x, P x → Q x) : v.Plain Q := by
  intro n hn
  have hpart := h n hn
  cases n with
  | var x ty span => exact hPQ x hpart
  | _ => exact hpart

theorem Plain.leaf (hp : v.parts = []) (hv : v.PlainPart P) : v.Plain P :=
  forall_nodes_iff.mpr ⟨hv, hp ▸ List.forall_mem_nil _⟩

theorem Plain.above {w : Value} (hp : v.parts = [w]) (hv : v.PlainPart P) (hw : w.Plain P) : v.Plain P :=
  forall_nodes_iff.mpr ⟨hv, hp ▸ List.forall_mem_singleton.mpr hw⟩

theorem plain_binary {l r : Value} {op : Operator} (hl : l.Plain P) (hr : r.Plain P) :
    (Value.binary l op r ty span).Plain P :=
  forall_nodes_iff.mpr ⟨trivial, List.forall_mem_cons.mpr ⟨hl, List.forall_mem_singleton.mpr hr⟩⟩

theorem plain_call {args : List Value} (hv : v.Plain P) (hargs : ∀ w ∈ args, w.Plain P) :
    (Value.call v args ty span).Plain P :=
  forall_nodes_iff.mpr ⟨trivial, List.forall_mem_cons.mpr ⟨hv, hargs⟩⟩

end Value

/-- A name in force stands for the variable. -/
def Env.Sees (env : Env) (x : VarId) : Prop := ∃ name, env.local? name = some x

end BlockCompiler
