/-
  BlockCompiler.Proofs.Gating — what a logger lets through after any calls that set it up.

  The gate has a threshold besides its filter. Setting the logger up anew makes the threshold the
  lowest level of the filter; a new filter leaves it as it is.

  (1) Calls, and the level that is in force for an area after them (`inForce`).
  (2) The filter follows the calls (`levelOf_run`), the threshold only those that set the logger up
      anew (`level_run`).
  (3) So a record is let through if its level is in force now and some area had a level as low when
      the logger was last set up (`allows_run`). An area whose level is lowered by a new filter is
      held back (`lowered_area_held_back`).
-/
import BlockCompiler.Log.Logger
import BlockCompiler.Proofs.FilterSpecs

namespace BlockCompiler.Log

open Spec

/-! ## (1) Calls -/

/-- A call that sets up a logger. -/
inductive Call where
  | init (terminal : Terminal) (now : Moment) (config : Config)
  | setFilter (spec : String)

namespace Call

def run (l : Logger) : Call → Logger
  | init terminal now config => l.configure terminal now config
  | setFilter spec => l.setFilter spec

/-- The spec that a call applies. -/
def spec : Call → Bytes
  | init _ _ config => config.filterSpec
  | setFilter spec => spec

/-- The level that a call sets for areas that its spec does not speak of. -/
def fallback? : Call → Option Level
  | init _ _ config => last? config.filterSpec isFallback <|> some config.level
  | setFilter spec => last? spec isFallback

def isInit : Call → Bool
  | init _ _ _ => true
  | setFilter _ => false

end Call

/-- The level in force for an area after calls, where `d` is the fallback before them: what the spec
of the last call gives it, or else the fallback that was set last. -/
def inForce (d : Level) (calls : List Call) (area : Bytes) : Level :=
  ((calls.getLast?.bind fun call => last? call.spec (names area)) <|> (calls.filterMap Call.fallback?).getLast?).getD d

/-- The calls up to the last one that set the logger up anew. -/
def upToInit (calls : List Call) : List Call := calls.rdropWhile fun call => !call.isInit

/-! ## (2) The gate -/

namespace Logger

variable {l : Logger}

theorem gate_message (l : Logger) (now : Moment) (level : Level) (area text : String) :
    (l.message now level area text).gate = l.gate := by
  unfold message
  split <;> rfl

theorem gate_configure (l : Logger) (terminal : Terminal) (now : Moment) (c : Config) :
    (l.configure terminal now c).gate = l.gate.configure c.level c.filterSpec := by
  unfold configure
  dsimp only
  split
  · split <;> rfl
  · split
    all_goals
      split
      · rfl
      · exact gate_message ..

theorem levelOf_call (l : Logger) (call : Call) (area : Bytes) : (call.run l).gate.filter.levelOf area =
    (last? call.spec (names area) <|> call.fallback?).getD l.gate.filter.fallback := by
  cases call with
  | setFilter spec => exact Filter.levelOf_parse _ _ _
  | init terminal now config =>
    refine (congrArg (fun gate : Gate => gate.filter.levelOf area) (gate_configure l terminal now config)).trans ?_
    refine (Filter.levelOf_parse _ _ _).trans ?_
    rw [Call.spec, Call.fallback?]
    cases last? config.filterSpec (names area) with
    | some level => rfl
    | none => cases last? config.filterSpec isFallback <;> rfl

theorem fallback_call (l : Logger) (call : Call) :
    (call.run l).gate.filter.fallback = call.fallback?.getD l.gate.filter.fallback := by
  cases call with
  | setFilter spec => exact Filter.fallback_parse _ _
  | init terminal now config =>
    refine (congrArg (fun gate : Gate => gate.filter.fallback) (gate_configure l terminal now config)).trans ?_
    refine (Filter.fallback_parse _ _).trans ?_
    rw [Call.fallback?]
    cases last? config.filterSpec isFallback <;> rfl

theorem fallback_run (calls : List Call) (l : Logger) :
    (calls.foldl Call.run l).gate.filter.fallback = (calls.filterMap Call.fallback?).getLast?.getD l.gate.filter.fallback := by
  induction calls generalizing l with
  | nil => rfl
  | cons call calls ih =>
    rw [List.foldl_cons, ih, fallback_call]
    cases hcall : call.fallback? with
    | none => rw [List.filterMap_cons_none hcall]; rfl
    | some level =>
      rw [List.filterMap_cons_some hcall, List.getLast?_cons]
      cases (calls.filterMap Call.fallback?).getLast? <;> rfl

theorem levelOf_run {calls : List Call} (hcalls : calls ≠ []) (l : Logger) (area : Bytes) :
    (calls.foldl Call.run l).gate.filter.levelOf area = inForce l.gate.filter.fallback calls area := by
  obtain ⟨before, call, rfl⟩ := (List.eq_nil_or_concat' calls).resolve_left hcalls
  have hlast : ((before ++ [call]).filterMap Call.fallback?).getLast? =
      (call.fallback? <|> (before.filterMap Call.fallback?).getLast?) := by
    rw [List.filterMap_append, List.getLast?_append]
    cases hcall : call.fallback? with
    | none => rw [List.filterMap_cons_none hcall]; rfl
    | some level => rw [List.filterMap_cons_some hcall]; rfl
  rw [List.foldl_append, List.foldl_cons, List.foldl_nil, levelOf_call, fallback_run, inForce, List.getLast?_concat, hlast]
  change _ = (last? call.spec (names area) <|> _).getD _
  cases last? call.spec (names area) with
  | some level => rfl
  | none => cases call.fallback? <;> rfl

theorem level_init (l : Logger) (terminal : Terminal) (now : Moment) (config : Config) (level : Level) :
    ((Call.init terminal now config).run l).gate.level ≤ level ↔
      ∃ area, ((Call.init terminal now config).run l).gate.filter.levelOf area ≤ level := by
  rw [Call.run, gate_configure]
  exact Filter.minLevel_le_iff (Filter.nodup_parse _ _)

/-- The threshold is that of the last time that the logger was set up anew. -/
theorem level_run {calls : List Call} (hcalls : calls.any Call.isInit = true) (l : Logger) (level : Level) :
    (calls.foldl Call.run l).gate.level ≤ level ↔
      ∃ area, inForce l.gate.filter.fallback (upToInit calls) area ≤ level := by
  induction calls using List.reverseRecOn with
  | nil => cases hcalls
  | append_singleton calls call ih =>
    cases call with
    | setFilter spec =>
      have hskip : upToInit (calls ++ [.setFilter spec]) = upToInit calls := List.rdropWhile_concat_pos _ _ _ rfl
      rw [hskip, List.foldl_append]
      exact ih (by simpa [Call.isInit] using hcalls)
    | init terminal now config =>
      have hall : upToInit (calls ++ [.init terminal now config]) = calls ++ [.init terminal now config] :=
        List.rdropWhile_concat_neg _ _ _ Bool.false_ne_true
      have hinit := level_init (calls.foldl Call.run l) terminal now config level
      rw [hall, List.foldl_append]
      refine hinit.trans (exists_congr fun area => ?_)
      rw [← levelOf_run (by simp), List.foldl_append]
      rfl

/-! ## (3) Records -/

/-- After a logger was set up and then called in any way, a record is let through if its level is in force for its area
and, besides, some area had a level as low when the logger was last set up. So what is in force is let through exactly if
each level is at least one that was in force then. -/
theorem allows_run (l : Logger) (terminal : Terminal) (now : Moment) (config : Config) (later : List Call) :
    let calls := .init terminal now config :: later
    let held := inForce l.gate.filter.fallback
    (∀ level area, (calls.foldl Call.run l).allows level area = true ↔
      held calls area ≤ level ∧ ∃ other, held (upToInit calls) other ≤ level) ∧
    ((∀ level area, (calls.foldl Call.run l).allows level area = true ↔ held calls area ≤ level) ↔
      ∀ area, ∃ other, held (upToInit calls) other ≤ held calls area) := by
  intro calls held
  have hallows : ∀ level area, (calls.foldl Call.run l).allows level area = true ↔
      held calls area ≤ level ∧ ∃ other, held (upToInit calls) other ≤ level := by
    intro level area
    rw [allows, Gate.allows, Bool.and_eq_true, decide_eq_true_iff, Filter.allows, decide_eq_true_iff,
      level_run (by rfl), levelOf_run (List.cons_ne_nil _ _), and_comm]
  refine ⟨hallows, fun h area => ?_, fun h level area => ?_⟩
  · exact ((hallows _ area).mp ((h _ area).mpr (Int.le_refl _))).2
  · refine (hallows level area).trans ⟨fun hboth => hboth.1, fun hlevel => ⟨hlevel, ?_⟩⟩
    obtain ⟨other, hother⟩ := h area
    exact ⟨other, Int.le_trans hother hlevel⟩

/-- A filter that lowers the level of one area, set on a logger that was set up with a higher one. -/
theorem lowered_area_held_back :
    let calls := [Call.init {} ⟨"", 0⟩ { level := .warn, console := false }, .setFilter "lower=trace"]
    inForce .warn calls "lower" ≤ .trace ∧ (calls.foldl Call.run {}).allows .trace "lower" = false := by decide

end Logger

end BlockCompiler.Log
