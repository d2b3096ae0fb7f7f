/-
  BlockCompiler.Proofs.SpellingMarks — the marks that spelling leaves.

  An alias is marked while it is being spelled out. A table may be any: types may be missing or
  have no meaning, and then spelling stops at a fault and leaves marks behind.

  (1) `Whichever act s Q R`: `Q` holds where the step gives a result, and `R` where it stops.
  (2) A type is legible if it has a spelling as far as it depends on itself, and doomed if it opens
      one that is not. If a type is spelled, then the marks are what they were; if that stops, then
      the type is doomed, and so are the aliases that are marked now and were not before
      (`spellWithin_restores`). A type that has no end is left aside: it stops at no other type.
  (3) What was spelled under no marks is not doomed (`not_doomed_of_spelled`). It has the same
      spelling under marks on nothing that it opens (`spellWithin_congr`).
-/
import BlockCompiler.Proofs.Expansion

namespace BlockCompiler

open TypeTable Interner
open Relation (ReflTransGen)

/-! ## (1) Results and faults -/

section Whichever

variable {ε σ α β : Type}

def Whichever (act : EStateM ε σ α) (s : σ) (Q : α → σ → Prop) (R : ε → σ → Prop) : Prop :=
  (∀ a s', act s = .ok a s' → Q a s') ∧ ∀ e s', act s = .error e s' → R e s'

variable {act : EStateM ε σ α} {s : σ} {Q Q' : α → σ → Prop} {R R' : ε → σ → Prop}

theorem Whichever.mono (h : Whichever act s Q R) (hQ : ∀ a s', Q a s' → Q' a s') (hR : ∀ e s', R e s' → R' e s') :
    Whichever act s Q' R' := ⟨fun a s' he => hQ a s' (h.1 a s' he), fun e s' he => hR e s' (h.2 e s' he)⟩

theorem whichever_of_ok {a : α} {s' : σ} (he : act s = .ok a s') : Whichever act s Q R ↔ Q a s' := by
  simp [Whichever, he]

theorem whichever_of_error {e : ε} {s' : σ} (he : act s = .error e s') : Whichever act s Q R ↔ R e s' := by
  simp [Whichever, he]

@[simp] theorem whichever_bind (k : α → EStateM ε σ β) (Q : β → σ → Prop) :
    Whichever (act >>= k) s Q R ↔ Whichever act s (fun a s' => Whichever (k a) s' Q R) R := by
  cases he : act s with
  | ok a s' =>
    rw [whichever_of_ok he]
    simp only [Whichever, run_bind_ok he]
  | error e s' => rw [whichever_of_error he, whichever_of_error (run_bind_error he k)]

@[simp] theorem whichever_pure (a : α) : Whichever (pure a : EStateM ε σ α) s Q R ↔ Q a s := whichever_of_ok rfl

@[simp] theorem whichever_throw (e : ε) : Whichever (throw e : EStateM ε σ α) s Q R ↔ R e s := whichever_of_error rfl

@[simp] theorem whichever_get (Q : σ → σ → Prop) : Whichever (get : EStateM ε σ σ) s Q R ↔ Q s s := whichever_of_ok rfl

@[simp] theorem whichever_modify (g : σ → σ) (Q : PUnit → σ → Prop) :
    Whichever (modify g : EStateM ε σ PUnit) s Q R ↔ Q ⟨⟩ (g s) := whichever_of_ok rfl

@[simp] theorem whichever_modifyGet (g : σ → α × σ) :
    Whichever (modifyGet g : EStateM ε σ α) s Q R ↔ Q (g s).1 (g s).2 := whichever_of_ok rfl

@[simp] theorem whichever_ofExcept (r : Except ε α) :
    Whichever (ofExcept r : EStateM ε σ α) s Q R ↔ (∀ a, r = .ok a → Q a s) ∧ ∀ e, r = .error e → R e s := by
  cases r with
  | ok a => simp [ofExcept]
  | error e => simp [ofExcept]

/-- What every step over a list keeps, all of them together keep. -/
theorem Whichever.mapM {f : α → EStateM ε σ β} {I : σ → Prop} {l : List α}
    (h : ∀ a ∈ l, ∀ s, I s → Whichever (f a) s (fun _ s' => I s') R) (hs : I s) :
    Whichever (l.mapM f) s (fun _ s' => I s') R := by
  induction l generalizing s with
  | nil => simpa using hs
  | cons a l ih =>
    simp only [List.mapM_cons, whichever_bind, whichever_pure]
    refine (h a (.head _) s hs).mono (fun _ s' hs' => ?_) fun _ _ hr => hr
    exact ih (fun b hb => h b (.tail _ hb)) hs'

end Whichever

namespace Target

variable {t : TypeTable} {id u : TypeId} {ty : Ty} {marks marks' : List TypeId} {n : Nat} {T : CodeType}

/-! ## (2) Marks -/

/-- Nothing about the type itself is in the way of a spelling. -/
def Legible (t : TypeTable) (id : TypeId) : Prop :=
  ∃ ty, t.get? id = some ty ∧ ty ≠ .invalid ∧
    (∀ variants, ty = .sum variants → t.payloadWords variants = .ok (words t variants)) ∧
    ∃ named, isNamedAggregate t id = .ok named

/-- To spell the type is to spell one that cannot be spelled. -/
def Doomed (t : TypeTable) (id : TypeId) : Prop := ∃ x, ReflTransGen (Opens t) id x ∧ ¬ Legible t x

theorem Doomed.opened (h : Doomed t u) (hu : Opens t id u) : Doomed t id := by
  obtain ⟨x, hx, hbad⟩ := h
  exact ⟨x, .head hu hx, hbad⟩

/-- An alias that is spelled out, and is doomed. -/
structure Stuck (t : TypeTable) (id : TypeId) : Prop where
  isAlias : ∃ name u, t.get? id = some (.named name u)
  spelledOut : isNamedAggregate t id = .ok false
  doomed : Doomed t id

/-- A fault of spelling the type: the type is doomed, and so are the aliases with new marks. -/
def Fails (t : TypeTable) (id : TypeId) (marks : List TypeId) (e : Fault) (marks' : List TypeId) : Prop :=
  e ≠ .endlessType → Doomed t id ∧ ∀ a ∈ marks', a ∈ marks ∨ Stuck t a

theorem Fails.of_not_legible (h : ¬ Legible t id) (e : Fault) : Fails t id marks e marks :=
  fun _ => ⟨⟨_, .refl, h⟩, fun _ ha => .inl ha⟩

theorem Fails.opened {e : Fault} (h : Fails t u marks e marks') (hu : Opens t id u) :
    Fails t id marks e marks' := fun he => ⟨(h he).1.opened hu, (h he).2⟩

theorem spellWithin_restores (n : Nat) (id : TypeId) (marks : List TypeId) :
    Whichever (spellWithin t n id) marks (fun _ marks' => marks' = marks) (Fails t id marks) := by
  induction n generalizing id marks with
  | zero => exact (whichever_throw _).mpr fun he => absurd rfl he
  | succ n ih =>
    rw [spellWithin]
    simp only [whichever_bind, whichever_ofExcept]
    refine ⟨fun ty hty => ?_, fun e he => ?_⟩
    · have hty := get_eq_ok.mp hty
      have part : ∀ m ∈ ty.opened, ∀ marks', marks' = marks →
          Whichever (spellWithin t n m) marks' (fun _ marks'' => marks'' = marks) (Fails t id marks) := by
        rintro m hm marks' rfl
        exact (ih m marks').mono (fun _ _ h => h) fun _ _ h => h.opened (.part hty hm)
      cases ty with
      | int | float | bool | unit => exact (whichever_pure _).mpr rfl
      | ptr p | array p =>
        simp only [whichever_bind, whichever_pure]
        exact part p (List.mem_singleton_self p) marks rfl
      | struct fields =>
        simp only [whichever_bind, whichever_pure]
        exact .mapM (fun f hf => part f.ty (List.mem_map_of_mem hf)) rfl
      | sum variants =>
        simp only [whichever_bind, whichever_ofExcept, whichever_pure]
        refine ⟨fun _ _ => trivial, fun e he => .of_not_legible ?_ e⟩
        rintro ⟨ty, hty', -, hwords, -⟩
        cases hty.symm.trans hty'
        cases he.symm.trans (hwords variants rfl)
      | func signature =>
        simp only [whichever_bind, whichever_pure]
        refine (part _ (.head _) marks rfl).mono (fun _ marks' hm => ?_) fun _ _ h => h
        exact .mapM (fun p hp => part p.ty (.tail _ (List.mem_map_of_mem hp))) hm
      | named name u =>
        simp only [whichever_bind, whichever_ofExcept]
        refine ⟨fun named hnamed => ?_, fun e he => .of_not_legible ?_ e⟩
        · cases named with
          | true => exact (whichever_pure _).mpr rfl
          | false =>
            simp only [Bool.false_eq_true, if_false, whichever_bind, whichever_get]
            split
            · exact (whichever_pure _).mpr rfl
            · simp only [whichever_bind, whichever_modify, whichever_pure]
              refine (ih u (id :: marks)).mono (fun _ marks' hm => ?_) fun e marks' h he => ?_
              · rw [hm, List.erase_cons_head]
              · obtain ⟨hdoomed, hmarks⟩ := h he
                have hid : Doomed t id := hdoomed.opened (.expand hty hnamed)
                refine ⟨hid, fun a ha => ?_⟩
                rcases hmarks a ha with ha | ha
                · rcases List.mem_cons.mp ha with rfl | ha
                  · exact .inr ⟨⟨name, u, hty⟩, hnamed, hid⟩
                  · exact .inl ha
                · exact .inr ha
        · rintro ⟨-, -, -, -, named, hnamed⟩
          cases he.symm.trans hnamed
      | invalid =>
        refine (whichever_throw _).mpr (.of_not_legible ?_ _)
        rintro ⟨ty, hty', hne, -⟩
        cases hty.symm.trans hty'
        exact hne rfl
    · refine .of_not_legible ?_ e
      rintro ⟨ty, hty, -⟩
      cases he.symm.trans (get_eq_ok.mpr hty)

theorem marks_of_spelled (h : spellWithin t n id marks = .ok T marks') : marks' = marks :=
  (spellWithin_restores n id marks).1 T marks' h

/-! ## (3) Spellings under other marks -/

section Ran

variable {ε σ α β : Type}

/-- If steps over a list that leave the state alone give results, then each of them does. -/
theorem ok_of_mapM {f : α → EStateM ε σ β} (hkeep : ∀ a s b s', f a s = .ok b s' → s' = s) {l : List α} {s s' : σ}
    {bs : List β} (h : l.mapM f s = .ok bs s') : ∀ a ∈ l, ∃ b, f a s = .ok b s := by
  induction l generalizing bs s' with
  | nil => simp
  | cons a l ih =>
    have hends : Ends ((a :: l).mapM f) s fun _ _ => True := ⟨bs, s', h, trivial⟩
    simp only [List.mapM_cons, ends_bind, ends_pure] at hends
    obtain ⟨b, s1, hb, bs, s2, hbs, -⟩ := hends
    cases hkeep a s b s1 hb
    exact List.forall_mem_cons.mpr ⟨⟨b, hb⟩, ih hbs⟩

end Ran

/-- A type that is no alias was spelled: it is legible, and its parts were spelled. -/
theorem parts_of_spelled (hty : t.get? id = some ty) (hnn : ty.isNamed = false)
    (h : spellWithin t (n + 1) id marks = .ok T marks') :
    Legible t id ∧ ∀ m ∈ ty.opened, ∃ T, spellWithin t n m marks = .ok T marks := by
  have hkeep : ∀ m marks T marks', spellWithin t n m marks = .ok T marks' → marks' = marks :=
    fun _ _ _ _ => marks_of_spelled
  have hends : Ends (spellWithin t (n + 1) id) marks fun _ _ => True := ⟨T, marks', h, trivial⟩
  rw [spellWithin] at hends
  simp only [ends_bind, ends_ofExcept] at hends
  obtain ⟨ty', hty', hends⟩ := hends
  cases hty.symm.trans (get_eq_ok.mp hty')
  have hnamed : isNamedAggregate t id = .ok false := by
    refine bind_ok hty' ?_
    cases ty with
    | named name u => cases hnn
    | _ => rfl
  cases ty with
  | named name u => cases hnn
  | invalid => exact absurd hends (ends_throw _)
  | ptr p | array p =>
    obtain ⟨T, marks1, hp, -⟩ := (ends_bind _ _).mp hends
    cases hkeep _ _ _ _ hp
    exact ⟨⟨_, hty, by simp, by simp, _, hnamed⟩, by simpa [Ty.opened] using ⟨T, hp⟩⟩
  | struct fields =>
    obtain ⟨Ts, marks1, hfields, -⟩ := (ends_bind _ _).mp hends
    have hall := ok_of_mapM (fun f : Field => hkeep f.ty) hfields
    exact ⟨⟨_, hty, by simp, by simp, _, hnamed⟩, by simpa [Ty.opened] using hall⟩
  | sum variants =>
    simp only [ends_bind, ends_ofExcept, ends_pure] at hends
    obtain ⟨k, hk, -⟩ := hends
    refine ⟨⟨_, hty, by simp, fun variants' hvariants => ?_, _, hnamed⟩, by simp [Ty.opened]⟩
    cases hvariants
    rw [hk, words, hk]
    rfl
  | func signature =>
    simp only [ends_bind, ends_pure] at hends
    obtain ⟨T, marks1, hresult, Ts, marks2, hparams, -⟩ := hends
    cases hkeep _ _ _ _ hresult
    have hall := ok_of_mapM (fun p : Parameter => hkeep p.ty) hparams
    exact ⟨⟨_, hty, by simp, by simp, _, hnamed⟩, by simpa [Ty.opened] using ⟨⟨T, hresult⟩, hall⟩⟩
  | _ => exact ⟨⟨_, hty, by simp, by simp, _, hnamed⟩, by simp [Ty.opened]⟩

/-- An alias was spelled: it is legible, and if it was spelled out then so was what it stands for. -/
theorem alias_of_spelled {name : String} (hty : t.get? id = some (.named name u))
    (h : spellWithin t (n + 1) id marks = .ok T marks') :
    ∃ named, isNamedAggregate t id = .ok named ∧
      (named = false → id ∉ marks → ∃ T, spellWithin t n u (id :: marks) = .ok T (id :: marks)) := by
  have hends : Ends (spellWithin t (n + 1) id) marks fun _ _ => True := ⟨T, marks', h, trivial⟩
  rw [spellWithin] at hends
  simp only [ends_bind, ends_ofExcept] at hends
  obtain ⟨ty', hty', hends⟩ := hends
  cases hty.symm.trans (get_eq_ok.mp hty')
  simp only [ends_bind, ends_ofExcept] at hends
  obtain ⟨named, hnamed, hends⟩ := hends
  refine ⟨named, hnamed, ?_⟩
  rintro rfl hm
  simp only [Bool.false_eq_true, if_false, ends_bind, ends_get, hm, ends_modify] at hends
  obtain ⟨T, marks1, hu, -⟩ := hends
  cases marks_of_spelled hu
  exact ⟨T, hu⟩

/-- Spelling goes from one type to the other while these aliases are not spelled out. -/
def OpensBeside (t : TypeTable) (marks : List TypeId) (a b : TypeId) : Prop := Opens t a b ∧ a ∉ marks

/-- A way from what an alias stands for need not pass through the alias: it would go on from where it began. -/
theorem beside_alias {name : String} {x : TypeId} (hty : t.get? id = some (.named name u))
    (h : ReflTransGen (OpensBeside t marks) u x) : ReflTransGen (OpensBeside t (id :: marks)) u x := by
  induction h with
  | refl => exact .refl
  | @tail a b _ hab ih =>
    by_cases ha : a = id
    · subst ha
      cases hab.1 with
      | part he hm => cases hty.symm.trans he; cases hm
      | expand he _ => cases hty.symm.trans he; exact .refl
    · exact ih.tail ⟨hab.1, fun hmem => (List.mem_cons.mp hmem).elim ha hab.2⟩

theorem legible_of_spelled (h : spellWithin t n id marks = .ok T marks') {x : TypeId}
    (hx : ReflTransGen (OpensBeside t marks) id x) : Legible t x := by
  induction n generalizing id marks marks' T with
  | zero => cases h
  | succ n ih =>
    obtain ⟨ty, hty⟩ : ∃ ty, t.get? id = some ty := by
      cases hty : t.get? id with
      | some ty => exact ⟨ty, rfl⟩
      | none =>
        have hends : Ends (spellWithin t (n + 1) id) marks fun _ _ => True := ⟨T, marks', h, trivial⟩
        rw [spellWithin] at hends
        simp only [ends_bind, ends_ofExcept, get_eq_ok, hty] at hends
        obtain ⟨ty, hnone, -⟩ := hends
        cases hnone
    cases hnn : ty.isNamed with
    | false =>
      obtain ⟨hlegible, hparts⟩ := parts_of_spelled hty hnn h
      rcases hx.cases_head with rfl | ⟨m, hm, hx⟩
      · exact hlegible
      · cases hm.1 with
        | part he hm =>
          cases hty.symm.trans he
          obtain ⟨T, hT⟩ := hparts m hm
          exact ih hT hx
        | expand he _ => cases hty.symm.trans he; cases hnn
    | true =>
      cases ty with
      | named name u =>
        obtain ⟨named, hnamed, hu⟩ := alias_of_spelled hty h
        rcases hx.cases_head with rfl | ⟨m, hm, hx⟩
        · exact ⟨_, hty, by simp, by simp, named, hnamed⟩
        · cases hm.1 with
          | part he hmem => cases hty.symm.trans he; cases hmem
          | expand he hnot =>
            cases hty.symm.trans he
            cases hnamed.symm.trans hnot
            obtain ⟨T, hT⟩ := hu rfl hm.2
            exact ih hT (beside_alias hty hx)
      | _ => cases hnn

theorem not_doomed_of_spelled (h : spellWithin t n id [] = .ok T marks') : ¬ Doomed t id := by
  rintro ⟨x, hx, hbad⟩
  have hbeside : ReflTransGen (OpensBeside t []) id x :=
    ReflTransGen.mono (fun a b (hab : Opens t a b) => ⟨hab, List.not_mem_nil⟩) id x hx
  exact hbad (legible_of_spelled h hbeside)

/-- Only marks on what a type opens matter to its spelling. -/
theorem spellWithin_congr (hm : ∀ x, ReflTransGen (Opens t) id x → (x ∈ marks ↔ x ∈ marks'))
    (h : spellWithin t n id marks = .ok T marks) : spellWithin t n id marks' = .ok T marks' := by
  induction n generalizing id marks marks' T with
  | zero => cases h
  | succ n ih =>
    obtain ⟨ty, hty, hne, hwords, named, hnamed⟩ := legible_of_spelled h .refl
    cases hnn : ty.isNamed with
    | false =>
      obtain ⟨-, hparts⟩ := parts_of_spelled hty hnn h
      have : Nonempty CodeType := ⟨.float⟩
      choose! spell hspell using hparts
      have hT := h.symm.trans (spellWithin_parts hty hnn hne hwords hspell)
      cases hT
      refine spellWithin_parts hty hnn hne hwords fun m hmem => ?_
      exact ih (fun x hx => hm x (.head (.part hty hmem) hx)) (hspell m hmem)
    | true =>
      cases ty with
      | named name u =>
        obtain ⟨named', hnamed', hu⟩ := alias_of_spelled hty h
        cases hnamed.symm.trans hnamed'
        have : Nonempty CodeType := ⟨.float⟩
        choose! U hU using hu
        have hrun := h.symm.trans (spellWithin_named hty hnamed hU)
        have hinner : named = false → id ∉ marks' → spellWithin t n u (id :: marks') = .ok U (id :: marks') := by
          rintro rfl hid
          refine ih (fun x hx => ?_) (hU rfl (mt (hm id .refl).mp hid))
          rw [List.mem_cons, List.mem_cons, hm x (.head (.expand hty hnamed) hx)]
        rw [spellWithin_named hty hnamed hinner]
        simp only [hm id .refl] at hrun
        cases hrun
        rfl
      | _ => cases hnn

end Target

end BlockCompiler
