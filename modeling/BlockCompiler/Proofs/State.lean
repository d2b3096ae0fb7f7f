/-
  BlockCompiler.Proofs.State — the effects of lowering, as functions on its state.

  (1) Each effect on the graph, the scopes and the diagnostics is a function on states:
      `addBlock`, `addVar`, `append`, `close`, `enter`, `leave`, `bind`, `reported`. A step of
      lowering ends in the state that its function gives, where the block it changes is open
      (`ends_emit`, `ends_terminate`) and a scope is in force (`ends_bindName`).
  (2) `State.Sound`: the type table is sound, and variables, signatures, scopes and the table
      of functions refer to what exists under their names. In a sound state the environment
      of an expression is sound (`Sound.env`).
-/
import BlockCompiler.Proofs.Expr

namespace BlockCompiler

/-! ## Arenas -/

namespace Arena

variable {k : Kind} {α : Type}

@[simp] theorem size_insert (a : Arena k α) (x : α) : (a.insert x).size = a.size + 1 := by simp [size, insert]

@[simp] theorem next_index (a : Arena k α) : a.next.index = a.size := rfl

theorem get?_insert (a : Arena k α) (x : α) (h : Handle k) :
    (a.insert x).get? h = if h = a.next then some x else a.get? h := by
  have heq : h = a.next ↔ h.index = a.items.size := by
    obtain ⟨i⟩ := h
    simp [next]
  simp only [get?, insert, Array.getElem?_push, heq]

theorem get?_insert_next (a : Arena k α) (x : α) : (a.insert x).get? a.next = some x := by simp [get?_insert]

theorem get?_insert_of_lt {a : Arena k α} {x : α} {h : Handle k} (hlt : h.index < a.size) :
    (a.insert x).get? h = a.get? h := by
  rw [get?_insert, if_neg]
  rintro rfl
  simp at hlt

/-- Changes the entry named by `h`; nothing happens where there is none. -/
def modify (a : Arena k α) (h : Handle k) (f : α → α) : Arena k α := ⟨a.items.modify h.index f⟩

@[simp] theorem size_modify (a : Arena k α) (h : Handle k) (f : α → α) : (a.modify h f).size = a.size := by
  simp [size, modify]

theorem get?_modify (a : Arena k α) (h : Handle k) (f : α → α) (h' : Handle k) :
    (a.modify h f).get? h' = if h' = h then (a.get? h).map f else a.get? h' := by
  have heq : h' = h ↔ h.index = h'.index := by
    obtain ⟨i⟩ := h
    obtain ⟨j⟩ := h'
    simp [eq_comm]
  simp only [get?, modify, Array.getElem?_modify, heq]
  split
  · rename_i hij
    rw [hij]
  · rfl

theorem put_eq_modify {a : Arena k α} {h : Handle k} {x : α} (hx : a.get? h = some x) (f : α → α) :
    a.put h (f x) = a.modify h f := by
  obtain ⟨items⟩ := a
  obtain ⟨i⟩ := h
  simp only [put, modify, Arena.mk.injEq]
  refine Array.ext_getElem? fun j => ?_
  rw [Array.getElem?_setIfInBounds, Array.getElem?_modify]
  split
  · rename_i hij
    subst hij
    obtain ⟨hlt, rfl⟩ := Array.getElem?_eq_some_iff.mp hx
    simp [hlt]
  · rfl

theorem modify_insert {a : Arena k α} {h : Handle k} (hlt : h.index < a.size) (x : α) (f : α → α) :
    (a.insert x).modify h f = (a.modify h f).insert x := by
  simp only [insert, modify, Arena.mk.injEq]
  refine Array.ext_getElem? fun i => ?_
  have hne : i = a.items.size → h.index ≠ i := fun hi heq => Nat.ne_of_lt hlt (heq.trans hi)
  simp only [Array.getElem?_modify, Array.getElem?_push, Array.size_modify]
  split <;> simp_all

end Arena

namespace Lowering

open TypeTable (Grows Acyclic)

namespace State

/-! ## (1) Effects -/

def addBlock (s : State) : State := { s with context := { s.context with blocks := s.blocks.insert {} } }

def addVar (s : State) (ty : TypeId) (name : String) : State :=
  { s with context := { s.context with vars := s.vars.insert { ty, name } } }

def changeBlock (s : State) (b : BlockId) (f : Block → Block) : State :=
  { s with context := { s.context with blocks := s.blocks.modify b f } }

def append (s : State) (b : BlockId) (stmt : BlockStmt) : State :=
  s.changeBlock b fun block => { block with stmts := block.stmts.push stmt }

def close (s : State) (b : BlockId) (t : Terminator) : State :=
  s.changeBlock b fun block => { block with terminator := some t }

/-- Lets each of the given blocks go on at `join`. -/
def joined (s : State) (join : BlockId) : List BlockId → State
  | [] => s
  | b :: rest => (s.close b (.jump join)).joined join rest

def enter (s : State) : State := { s with scopes := [] :: s.scopes }

def leave (s : State) : State := { s with scopes := s.scopes.tail }

/-- Binds a name in the innermost scope. -/
def bind (s : State) (name : String) (v : VarId) : State :=
  { s with
    scopes := match s.scopes with
      | [] => []
      | scope :: rest => ((name, v) :: scope) :: rest }

/-- The name of a rejected variable is bound to a variable of the type `invalid`. -/
def poisoned (s : State) (name : String) : State := (s.addVar TypeId.invalid name).bind name s.vars.next

def reported (s : State) (cfg : Settings) (d : Diagnostic) : State :=
  { s with
    errors := if d.isError then s.errors + 1 else s.errors
    journal := s.journal.note cfg.gate .debug "lower" s!"{d.severity.name}[{d.code}]: {d.message}"
    diags := s.diags.push d }

def IsOpen (s : State) (b : BlockId) : Prop := ∃ block, s.blocks.get? b = some block ∧ block.terminator = none

/-- As many errors were reported as the settings allow. -/
def AtLimit (s : State) (cfg : Settings) : Prop := cfg.maxErrors ≠ 0 ∧ cfg.maxErrors ≤ s.errors

instance (s : State) (cfg : Settings) : Decidable (s.AtLimit cfg) := inferInstanceAs (Decidable (_ ∧ _))

end State

/-! ### Steps of lowering -/

section

variable {α : Type} {s : State} {cfg : Settings} {file : FileId}

@[simp] theorem ends_onTyping (act : TypingM α) (Q : α → State → Prop) :
    Ends (onTyping act) s Q ↔ Ends act s.typing fun a st => Q a (s.withTyping st) := by
  constructor
  · rintro ⟨a, s', he, hq⟩
    unfold onTyping at he
    split at he
    · cases he
      exact ⟨_, _, ‹_›, hq⟩
    · cases he
  · rintro ⟨a, st, he, hq⟩
    exact ⟨a, s.withTyping st, by simp only [onTyping, he], hq⟩

@[simp] theorem ends_settle (r : Except Fault α) (Q : α → State → Prop) :
    Ends (settle r) s Q ↔ ∃ a, r = .ok a ∧ Q a s := by
  simp [settle]

@[simp] theorem ends_ask (f : Context → Except Fault α) (Q : α → State → Prop) :
    Ends (ask f) s Q ↔ ∃ a, f s.context = .ok a ∧ Q a s := by
  simp [ask]

theorem ask_eq_error {f : Context → Except Fault α} {e : Fault} (h : f s.context = .error e) : ask f s = .error e s := by
  refine (run_bind_ok rfl _).trans ?_
  rw [h]
  rfl

@[simp] theorem ends_checking (act : Env → CheckM α) (Q : Except Diagnostic α → State → Prop) :
    Ends (checking cfg file act) s Q ↔
      Judges (act (s.env cfg.gate file)) s.typing (fun a st => Q (.ok a) (s.withTyping st))
        (fun d st => Q (.error d) (s.withTyping st)) := by
  simp only [checking, ends_bind, ends_get, ends_onTyping, Judges]
  constructor <;> refine fun h => h.mono fun r st hr => ?_ <;> cases r <;> exact hr

@[simp] theorem judges_checked (act : Env → CheckM α) (Q : α → State → Prop) (R : Diagnostic → State → Prop) :
    Judges (checked cfg file act) s Q R ↔
      Judges (act (s.env cfg.gate file)) s.typing (fun a st => Q a (s.withTyping st))
        (fun d st => R d (s.withTyping st)) :=
  ends_checking act _

@[simp] theorem judges_attempt (act : StmtM α) (Q : Except Diagnostic α → State → Prop)
    (R : Diagnostic → State → Prop) :
    Judges (attempt act) s Q R ↔ Judges act s (fun a => Q (.ok a)) (fun d => Q (.error d)) := by
  rw [attempt, judges_exceptLift, Judges]
  constructor <;> refine fun h => h.mono fun r st hr => ?_ <;> cases r <;> exact hr

@[simp] theorem ends_setContext (f : Context → Context) (Q : PUnit → State → Prop) :
    Ends (setContext f) s Q ↔ Q ⟨⟩ { s with context := f s.context } := ends_iff_of_eq rfl

@[simp] theorem ends_newBlock (Q : BlockId → State → Prop) :
    Ends newBlock s Q ↔ Q s.blocks.next s.addBlock := ends_iff_of_eq rfl

@[simp] theorem ends_newVar (ty : TypeId) (name : String) (Q : VarId → State → Prop) :
    Ends (newVar ty name) s Q ↔ Q s.vars.next (s.addVar ty name) := ends_iff_of_eq rfl

@[simp] theorem ends_pushScope (Q : PUnit → State → Prop) : Ends pushScope s Q ↔ Q ⟨⟩ s.enter := ends_iff_of_eq rfl

theorem ends_popScope (h : s.scopes ≠ []) (Q : PUnit → State → Prop) : Ends popScope s Q ↔ Q ⟨⟩ s.leave := by
  simp only [popScope, ends_bind, ends_get]
  split
  · exact absurd ‹_› h
  · rename_i hs
    simp [State.leave, hs]

theorem ends_bindName (h : s.scopes ≠ []) (name : String) (v : VarId) (Q : PUnit → State → Prop) :
    Ends (bindName name v) s Q ↔ Q ⟨⟩ (s.bind name v) := by
  simp only [bindName, ends_bind, ends_get]
  split
  · exact absurd ‹_› h
  · rename_i hs
    simp [State.bind, hs]

@[simp] theorem ends_lookup? (name : String) (Q : Option VarId → State → Prop) :
    Ends (lookup? name) s Q ↔ Q (Scope.lookup? s.scopes name) s := by
  simp [lookup?]

@[simp] theorem ends_note (level : Log.Level) (area text : String) (Q : PUnit → State → Prop) :
    Ends (note cfg level area text) s Q ↔ Q ⟨⟩ { s with journal := s.journal.note cfg.gate level area text } :=
  ends_iff_of_eq rfl

@[simp] theorem ends_report (d : Diagnostic) (Q : PUnit → State → Prop) :
    Ends (report cfg d) s Q ↔ Q ⟨⟩ (s.reported cfg d) := by
  refine ends_iff_of_eq ?_
  cases h : d.isError <;> simp only [report, State.reported, h] <;> rfl

@[simp] theorem ends_limitReached (Q : Bool → State → Prop) :
    Ends (limitReached cfg) s Q ↔ Q (decide (s.AtLimit cfg)) s := by
  simp only [limitReached, ends_bind, ends_get, ends_pure]
  exact Iff.rfl

theorem ends_emit {b : BlockId} (h : s.IsOpen b) (stmt : BlockStmt) (Q : PUnit → State → Prop) :
    Ends (emit b stmt) s Q ↔ Q ⟨⟩ (s.append b stmt) := by
  obtain ⟨block, hb, -⟩ := h
  simp only [emit, putBlock, ends_bind, ends_ask, Arena.get_eq_ok, hb, Option.some.injEq, exists_eq_left',
    ends_setContext]
  rw [Arena.put_eq_modify hb fun block => { block with stmts := block.stmts.push stmt }]
  exact Iff.rfl

theorem ends_terminate {b : BlockId} (h : s.IsOpen b) (t : Terminator) (Q : PUnit → State → Prop) :
    Ends (terminate b t) s Q ↔ Q ⟨⟩ (s.close b t) := by
  obtain ⟨block, hb, ho⟩ := h
  simp only [terminate, putBlock, ends_bind, ends_ask, Arena.get_eq_ok, hb, Option.some.injEq, exists_eq_left', ho,
    ends_setContext]
  rw [Arena.put_eq_modify hb fun block => { block with terminator := some t }]
  exact Iff.rfl

end

/-! ## (2) Sound states -/

namespace State

structure Sound (s : State) : Prop where
  types : s.types.Sound
  vars : ∀ v var, s.vars.get? v = some var → var.ty.index < s.types.size
  signatures : ∀ fn f, s.funs.get? fn = some f → f.signature.Proper s.types
  functions : ∀ p ∈ s.functions, ∃ f, s.funs.get? p.2 = some f ∧ f.name = p.1
  scopes : ∀ scope ∈ s.scopes, ∀ p ∈ scope, ∃ var, s.vars.get? p.2 = some var ∧ var.name = p.1

/-- No variable in force has the type `invalid`. -/
def Clean (s : State) : Prop :=
  ∀ scope ∈ s.scopes, ∀ p ∈ scope, ∀ var, s.vars.get? p.2 = some var → var.ty ≠ TypeId.invalid

/-- Types and variables allow values to be typed. -/
def Fine (s : State) : Prop := s.Clean ∧ Acyclic s.types

def site (s : State) (params : List Parameter) : Site := s.context.site params

theorem mem_of_lookup {α : Type} {l : List (String × α)} {name : String} {x : α} (h : l.lookup name = some x) :
    (name, x) ∈ l := by
  obtain ⟨before, after, rfl, -⟩ := List.lookup_eq_some_iff.mp h
  exact List.mem_append_cons_self

theorem mem_of_lookup? {scopes : List Scope} {name : String} {v : VarId} (h : Scope.lookup? scopes name = some v) :
    ∃ scope ∈ scopes, (name, v) ∈ scope := by
  obtain ⟨scope, hmem, hl⟩ := List.exists_of_findSome?_eq_some h
  exact ⟨scope, hmem, mem_of_lookup hl⟩

theorem Sound.env {s : State} (h : s.Sound) (gate : Log.Gate) (file : FileId) :
    (s.env gate file).Sound s.types := by
  refine ⟨fun name v hv => ?_, fun name fn hfn => ?_⟩
  · obtain ⟨scope, hscope, hmem⟩ := mem_of_lookup? hv
    obtain ⟨var, hvar, hn⟩ := h.scopes scope hscope _ hmem
    exact ⟨var, hvar, hn, h.vars v var hvar⟩
  · obtain ⟨f, hf, hn⟩ := h.functions _ (mem_of_lookup hfn)
    exact ⟨f, hf, hn, h.signatures fn f hf⟩

theorem Clean.env {s : State} (h : s.Clean) (gate : Log.Gate) (file : FileId) : (s.env gate file).Clean := by
  intro name v var hv hvar
  obtain ⟨scope, hscope, hmem⟩ := mem_of_lookup? hv
  exact h scope hscope _ hmem var hvar

end State

theorem typeName_ends {s : State} (hs : s.Sound) {id : TypeId} (h : id.index < s.types.size)
    {Q : String → State → Prop} (hQ : ∀ name, Q name s) : Ends (typeName id) s Q := by
  rw [typeName, ends_onTyping]
  refine (Typing.nameOf_ends hs.types h).mono fun name st he => ?_
  rw [he]
  exact hQ name

end Lowering

end BlockCompiler
