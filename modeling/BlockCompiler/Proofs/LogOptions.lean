/-
  BlockCompiler.Proofs.LogOptions — which options of the command line decide on logging.

  The text of an argument makes it a level option, an option for the filter, the file or the
  format, or a verbosity flag (`form_read`). The last argument of a form decides on what the form
  is about (`part_request`), and the largest verbosity decides where there is no level.
-/
import BlockCompiler.Log.Options
import BlockCompiler.Proofs.FilterSpecs

namespace BlockCompiler.Log.Options

inductive Form where
  | level
  | filter
  | file
  | format
  | verbose (count : Nat)
  | other
  deriving DecidableEq

/-- What an argument is about, by its text up to the first NUL. -/
def form (arg : String) : Form :=
  let text := (Text.untilNul arg).toList
  let starts (lead : String) : Bool := lead.toList.isPrefixOf text
  if starts "--log-level=" then .level
  else if starts "--log-filter=" then .filter
  else if starts "--log-file=" then .file
  else if starts "--log-format=" then .format
  else if text = "-q".toList ∨ text = "--quiet".toList then .level
  else if text = "--verbose".toList then .verbose 1
  else if text.head? = some '-' ∧ text.tail ≠ [] ∧ text.tail.all (· = 'v') then .verbose text.tail.length
  else .other

def Argument.form : Argument → Form
  | .level _ => .level
  | .filter _ => .filter
  | .file _ => .file
  | .format _ => .format
  | .verbose count => .verbose count
  | .other => .other

theorem isSome_after? (lead text : List Char) : (Text.after? lead text).isSome = lead.isPrefixOf text := by
  induction lead generalizing text with
  | nil => rfl
  | cons c lead ih =>
    cases text with
    | nil => rfl
    | cons d text =>
      rw [Text.after?, List.isPrefixOf, ← ih]
      by_cases h : c = d <;> simp [h]

theorem form_read (arg : String) : (Argument.read arg).form = form arg := by
  have hword : ∀ word : String, Text.untilNul arg = word ↔ (Text.untilNul arg).toList = word.toList := fun word =>
    String.toList_inj.symm
  unfold Argument.read form
  simp only [← isSome_after?, hword]
  generalize (Text.untilNul arg).toList = text
  cases Text.after? "--log-level=".toList text with
  | some _ => rfl
  | none =>
  cases Text.after? "--log-filter=".toList text with
  | some _ => rfl
  | none =>
  cases Text.after? "--log-file=".toList text with
  | some _ => rfl
  | none =>
  cases Text.after? "--log-format=".toList text with
  | some _ => rfl
  | none =>
  simp only [Option.map_none, Option.isSome_none, Bool.false_eq_true, if_false]
  by_cases hquiet : text = "-q".toList ∨ text = "--quiet".toList
  · rw [if_pos hquiet, if_pos hquiet, Argument.form]
  by_cases hword : text = "--verbose".toList
  · rw [if_neg hquiet, if_neg hquiet, if_pos hword, if_pos hword, Argument.form]
  rw [if_neg hquiet, if_neg hquiet, if_neg hword, if_neg hword]
  split
  · rw [apply_ite Argument.form]
    simp [Argument.form]
  · rename_i hnot
    rw [if_neg, Argument.form]
    rintro ⟨hdash, hne, hall⟩
    rcases text with _ | ⟨c, _ | ⟨d, rest⟩⟩ <;> simp_all

/-- What arguments ask for together. -/
def request (args : List String) : Request := (args.map Argument.read).foldl Request.add {}

def verbosity (arg : String) : Nat :=
  match form arg with
  | .verbose count => count
  | _ => 0

def maxVerbosity (args : List String) : Nat := (args.map verbosity).foldr max 0

/-- A set-up does what an argument asks for. -/
def Obeys (c : Config) : Argument → Prop
  | .level level => c.level = level
  | .filter spec => c.filterSpec = spec
  | .file path => c.logFile = path
  | .format format => c.format = format
  | .verbose _ | .other => True

/-- A part of a request that the arguments of one form overwrite. -/
def IsPart {α : Type} (g : Form) (part : Request → α) : Prop :=
  ∀ r a, part (r.add a) = if a.form = g then part (Request.add {} a) else part r

theorem isPart_level : IsPart .level Request.level := fun _ a => by cases a <;> rfl

theorem isPart_filter : IsPart .filter Request.filter := fun _ a => by cases a <;> rfl

theorem isPart_file : IsPart .file Request.file := fun _ a => by cases a <;> rfl

theorem isPart_format : IsPart .format Request.format := fun _ a => by cases a <;> rfl

variable {args args' : List String} {env env' : Option String} {g : Form} {α : Type}

/-- The last argument of a form decides on its part of a request. -/
theorem part_request {part : Request → α} (h : IsPart g part) (args : List String) : part (request args) =
    ((args.filter (form · = g)).getLast?.map fun arg => part (Request.add {} (.read arg))).getD (part {}) := by
  rw [request, List.foldl_map]
  refine foldl_overwrite part (fun r arg => ?_) args {}
  rw [h, form_read]
  simp only [decide_eq_true_eq]

theorem form_of_last {arg : String} (hlast : (args.filter (form · = g)).getLast? = some arg) : form arg = g :=
  of_decide_eq_true (List.mem_filter.mp (List.mem_of_getLast? hlast)).2

theorem isSome_request {part : Request → Option α} (h : IsPart g part) (hnone : part {} = none)
    (hset : ∀ a : Argument, a.form = g → (part (Request.add {} a)).isSome) :
    (part (request args)).isSome ↔ g ∈ args.map form := by
  rw [part_request h, hnone]
  cases hlast : (args.filter (form · = g)).getLast? with
  | none => simpa [List.filter_eq_nil_iff] using hlast
  | some arg =>
    have hmem : arg ∈ args := (List.mem_filter.mp (List.mem_of_getLast? hlast)).1
    have hform := form_of_last hlast
    exact iff_of_true (hset _ ((form_read arg).trans hform)) (List.mem_map.mpr ⟨arg, hmem, hform⟩)

theorem isSome_level : (request args).level.isSome ↔ .level ∈ args.map form :=
  isSome_request isPart_level rfl fun a ha => by cases a <;> simp_all [Request.add, Argument.form]

theorem isSome_filter : (request args).filter.isSome ↔ .filter ∈ args.map form :=
  isSome_request isPart_filter rfl fun a ha => by cases a <;> simp_all [Request.add, Argument.form]

theorem verbosity_request (args : List String) : (request args).verbosity = maxVerbosity args := by
  suffices h : ∀ r : Request, ((args.map Argument.read).foldl Request.add r).verbosity = max r.verbosity (maxVerbosity args) from
    (h {}).trans (Nat.zero_max _)
  induction args with
  | nil => exact fun r => (Nat.max_zero _).symm
  | cons arg args ih =>
    intro r
    have hadd : (r.add (.read arg)).verbosity = max r.verbosity (verbosity arg) := by
      rw [verbosity, ← form_read]
      cases Argument.read arg <;> simp [Request.add, Argument.form]
    rw [List.map_cons, List.foldl_cons, ih, hadd]
    exact Nat.max_assoc ..

/-- The level that the command line asks for. -/
def chosen? (args : List String) : Option Level := (request args).level <|> verbosityLevel (request args).verbosity

theorem ofArguments_none : Config.ofArguments args none =
    ⟨(chosen? args).getD .warn, (request args).format, (request args).filter.getD "", (request args).file, true, true⟩ := by
  unfold Config.ofArguments
  dsimp only
  split
  · contradiction
  · rfl

theorem ofArguments_env (args : List String) (env : Option String) : Config.ofArguments args env =
    if (chosen? args).isSome ∨ (request args).filter.isSome then Config.ofArguments args none
    else env.elim (Config.ofArguments args none) (withEnvironment (Config.ofArguments args none)) := by
  rw [ofArguments_none]
  unfold Config.ofArguments chosen? request
  dsimp only
  generalize (_ <|> _ : Option Level) = level
  cases level <;> cases (List.foldl Request.add _ _).filter <;> cases env <;> rfl

/-- The forms of which the last argument counts. -/
def groups : List Form := [.level, .filter, .file, .format]

theorem ofArguments_congr (hgroups : ∀ g ∈ groups, args.filter (form · = g) = args'.filter (form · = g))
    (h : .level ∈ args.map form ∨ maxVerbosity args = maxVerbosity args') :
    Config.ofArguments args env = Config.ofArguments args' env := by
  have hpart : ∀ {α : Type} {part : Request → α} {g}, g ∈ groups → IsPart g part →
      part (request args) = part (request args') := fun hg h => by
    rw [part_request h, part_request h, hgroups _ hg]
  have hlevel := hpart (by decide) isPart_level
  have hchosen : chosen? args = chosen? args' := by
    rcases h with h | h
    · obtain ⟨level, hsome⟩ := Option.isSome_iff_exists.mp (isSome_level.mpr h)
      rw [chosen?, chosen?, ← hlevel, hsome]
      rfl
    · rw [chosen?, chosen?, hlevel, verbosity_request, verbosity_request, h]
  rw [ofArguments_env args, ofArguments_env args', ofArguments_none, ofArguments_none, hchosen,
    hpart (by decide) isPart_filter, hpart (by decide) isPart_file, hpart (by decide) isPart_format]

theorem withEnvironment_keeps (c : Config) (value : String) :
    (withEnvironment c value).logFile = c.logFile ∧ (withEnvironment c value).format = c.format := by
  unfold withEnvironment
  dsimp only
  split_ifs <;> exact ⟨rfl, rfl⟩

theorem obeys_last {arg : String} (hlast : (args.filter (form · = g)).getLast? = some arg) :
    Obeys (Config.ofArguments args env) (.read arg) := by
  have hform : (Argument.read arg).form = g := (form_read arg).trans (form_of_last hlast)
  have hpart : ∀ {α : Type} {part : Request → α}, IsPart g part → part (request args) = part (Request.add {} (.read arg)) :=
    fun h => by rw [part_request h, hlast]; rfl
  rw [ofArguments_env, ofArguments_none]
  generalize Argument.read arg = a at *
  subst hform
  cases a with
  | level level =>
    have hlevel : (request args).level = some level := hpart isPart_level
    simp [chosen?, hlevel, Obeys]
  | filter spec =>
    have hfilter : (request args).filter = some spec := hpart isPart_filter
    simp [hfilter, Obeys]
  | file path =>
    have hfile : (request args).file = path := hpart isPart_file
    cases env <;> split_ifs <;> simp [Obeys, hfile, withEnvironment_keeps]
  | format format =>
    have hformat : (request args).format = format := hpart isPart_format
    cases env <;> split_ifs <;> simp [Obeys, hformat, withEnvironment_keeps]
  | verbose _ | other => trivial

/-- The last argument of a form is obeyed (1), so only the order among arguments of one form matters (2).
Verbosity flags count only by the largest one and only without a level (3, 4), and the environment only
without all of these and a filter (5). -/
theorem ofArguments_determined (args args' : List String) (env : Option String) :
    (∀ g arg, (args.filter (form · = g)).getLast? = some arg → Obeys (Config.ofArguments args env) (.read arg)) ∧
    (args.Perm args' → (∀ g ∈ groups, args.filter (form · = g) = args'.filter (form · = g)) →
      Config.ofArguments args env = Config.ofArguments args' env) ∧
    (args.filter (verbosity · = 0) = args'.filter (verbosity · = 0) →
      .level ∈ args.map form ∨ maxVerbosity args = maxVerbosity args' →
      Config.ofArguments args env = Config.ofArguments args' env) ∧
    (.level ∉ args.map form → ∀ level, verbosityLevel (maxVerbosity args) = some level →
      (Config.ofArguments args env).level = level) ∧
    Config.ofArguments args env =
      if .level ∈ args.map form ∨ .filter ∈ args.map form ∨ 0 < maxVerbosity args then Config.ofArguments args none
      else env.elim (Config.ofArguments args none) (withEnvironment (Config.ofArguments args none)) := by
  have hchosen : (chosen? args).isSome ↔ .level ∈ args.map form ∨ 0 < maxVerbosity args := by
    rw [← isSome_level, chosen?, verbosity_request]
    cases (request args).level <;> unfold verbosityLevel <;> split <;> simp_all [Nat.pos_iff_ne_zero]
  refine ⟨fun _ _ => obeys_last, fun hperm hgroups => ?_, fun hrest h => ?_, fun h level hlevel => ?_, ?_⟩
  · exact ofArguments_congr hgroups (.inr ((hperm.map verbosity).foldr_eq 0))
  · refine ofArguments_congr (fun g hg => ?_) h
    have hflag : ∀ arg, (decide (form arg = g) && decide (verbosity arg = 0)) = decide (form arg = g) := by
      intro arg
      rw [verbosity, Bool.and_eq_left_iff_imp]
      rintro harg
      cases of_decide_eq_true harg
      cases hform : form arg <;> simp_all [groups]
    have hfilter : ∀ l : List String, (l.filter (verbosity · = 0)).filter (form · = g) = l.filter (form · = g) := by
      simp [List.filter_filter, hflag]
    rw [← hfilter args, hrest, hfilter]
  · have hnone : (request args).level = none := by simpa [← isSome_level] using h
    rw [ofArguments_env, ofArguments_none, chosen?, hnone, verbosity_request, hlevel]
    rfl
  · rw [ofArguments_env]
    refine if_congr ?_ rfl rfl
    rw [hchosen, isSome_filter, or_assoc, or_comm (a := 0 < _)]

def sampleArgs : List String := ["-vv", "--log-level=info", "--log-filter=sema", "-v", "-verbose"]

def sampleMoved : List String := ["--log-filter=sema", "-verbose", "-v", "-vv", "--log-level=info"]

theorem sampleArgs_determined : (sampleArgs.Perm sampleMoved ∧
      (∀ g ∈ groups, sampleArgs.filter (form · = g) = sampleMoved.filter (form · = g)) ∧
      sampleArgs.filter (verbosity · = 0) = sampleArgs.tail.filter (verbosity · = 0) ∧ .level ∈ sampleArgs.map form) ∧
    Config.ofArguments sampleArgs (some "trace") = Config.ofArguments sampleMoved (some "trace") ∧
    Config.ofArguments sampleArgs (some "trace") = Config.ofArguments sampleArgs.tail (some "trace") ∧
    (Config.ofArguments ["-v", "-vv"] none).level = .debug := by
  have hlaws := fun args' => ofArguments_determined sampleArgs args' (some "trace")
  exact ⟨by decide, (hlaws sampleMoved).2.1 (by decide) (by decide),
    (hlaws sampleArgs.tail).2.2.1 (by decide) (.inl (by decide)),
    (ofArguments_determined ["-v", "-vv"] [] none).2.2.2.1 (by decide) _ rfl⟩

end BlockCompiler.Log.Options
