import Mathlib.Data.List.Induction

/-!
# Guarded transition systems

`step s l` is `some s'` when label `l` is enabled in `s`. One definition serves
for replaying a concrete run and for proving what every run keeps.

## Main definitions

- `Lts.Run`: the run of a list of labels
- `Lts.Reachable`: the states some run from the start ends in
- `Lts.run_invariant`: what the start has and a step keeps, a run keeps
- `Lts.HasStep`: some step of a run is of a kind
- `Lts.along`: every step of a run meets a condition
- `Lts.Run.iff_along`: what a step keeps exactly under a condition, a run does
- `Lts.throughout`: every state of a run has a property
- `Lts.occurrences`: how many steps of a run are of a kind
- `Lts.observed`: the values an observation takes along a run
- `Lts.emitted`: what the steps of a run emit
- `Lts.Run.simulates`: where each step is a run of another system, a run is one
- `Lts.Run.ledger_iff`: what enters a run comes out of it or is pending, unless a step loses some
-/

universe u v

/-- A transition system given by a guarded step function. -/
structure Lts (S : Type u) (L : Type v) where
  step : S → L → Option S

namespace Lts

variable {S : Type u} {L : Type v} (sys : Lts S L)

/-- Replay labels from `s`; `none` where one of them is not enabled. -/
def replay (s : S) : List L → Option S
  | [] => some s
  | l :: ls => (sys.step s l).bind fun s' => replay s' ls

/-- The labels `ls` lead from `s` to `s'`. -/
def Run (s : S) (ls : List L) (s' : S) : Prop := sys.replay s ls = some s'

/-- Where replaying `ls` from `s` ends; `s` itself where a label is not enabled. -/
def replayed (s : S) (ls : List L) : S := (sys.replay s ls).getD s

/-- The states some run from `s` ends in. -/
def Reachable (s s' : S) : Prop := ∃ ls, sys.Run s ls s'

variable {sys}

@[simp] theorem run_nil {s s' : S} : sys.Run s [] s' ↔ s = s' := by simp [Run, replay]

theorem run_cons {s s' : S} {l : L} {ls : List L} :
    sys.Run s (l :: ls) s' ↔ ∃ m, sys.step s l = some m ∧ sys.Run m ls s' := by
  simp [Run, replay, Option.bind_eq_some_iff]

theorem run_replayed {s : S} {ls : List L} (h : (sys.replay s ls).isSome = true) :
    sys.Run s ls (sys.replayed s ls) := by
  obtain ⟨s', hs'⟩ := Option.isSome_iff_exists.mp h
  rw [Run, replayed, hs', Option.getD_some]

theorem Run.refl (s : S) : sys.Run s [] s := rfl

theorem Run.head {s m s' : S} {l : L} {ls : List L} (h : sys.step s l = some m)
    (hr : sys.Run m ls s') : sys.Run s (l :: ls) s' := run_cons.mpr ⟨m, h, hr⟩

theorem run_append {s s' : S} {ls ks : List L} :
    sys.Run s (ls ++ ks) s' ↔ ∃ m, sys.Run s ls m ∧ sys.Run m ks s' := by
  induction ls generalizing s with
  | nil => simp
  | cons l ls ih =>
    simp only [List.cons_append, run_cons, ih]
    constructor
    · rintro ⟨a, ha, m, hm, hs⟩
      exact ⟨m, ⟨a, ha, hm⟩, hs⟩
    · rintro ⟨m, ⟨a, ha, hm⟩, hs⟩
      exact ⟨a, ha, m, hm, hs⟩

theorem Run.trans {s m s' : S} {ls ks : List L} (h : sys.Run s ls m) (h' : sys.Run m ks s') :
    sys.Run s (ls ++ ks) s' := run_append.mpr ⟨m, h, h'⟩

theorem Run.snoc {s m s' : S} {ls : List L} {l : L} (h : sys.Run s ls m)
    (h' : sys.step m l = some s') : sys.Run s (ls ++ [l]) s' :=
  h.trans (Run.head h' (Run.refl s'))

theorem Reachable.refl (s : S) : sys.Reachable s s := ⟨[], Run.refl s⟩

theorem Reachable.run {s m s' : S} {ls : List L} (h : sys.Reachable s m)
    (hr : sys.Run m ls s') : sys.Reachable s s' := by
  obtain ⟨ks, hk⟩ := h
  exact ⟨ks ++ ls, hk.trans hr⟩

theorem Reachable.step {s m s' : S} {l : L} (h : sys.Reachable s m)
    (hs : sys.step m l = some s') : sys.Reachable s s' :=
  h.run (Run.head hs (Run.refl s'))

/-- An invariant: it is kept by every step, so by every run. -/
theorem run_invariant {I : S → Prop} (keep : ∀ s l s', I s → sys.step s l = some s' → I s')
    {s s' : S} {ls : List L} (hr : sys.Run s ls s') (hs : I s) : I s' := by
  induction ls generalizing s with
  | nil => exact run_nil.mp hr ▸ hs
  | cons l ls ih =>
    obtain ⟨m, hm, hr⟩ := run_cons.mp hr
    exact ih hr (keep s l m hs hm)

theorem reachable_invariant {I : S → Prop} (keep : ∀ s l s', I s → sys.step s l = some s' → I s')
    {s s' : S} (hr : sys.Reachable s s') (hs : I s) : I s' := by
  obtain ⟨ls, hr⟩ := hr
  exact run_invariant keep hr hs

variable (sys) in
/-- Does every step of a run meet a condition on where it starts and on its label? -/
def along (P : S → L → Bool) (s : S) : List L → Bool
  | [] => true
  | l :: ls => P s l && (sys.step s l).all fun s' => along P s' ls

theorem along_cons {P : S → L → Bool} {s m : S} {l : L} {ls : List L}
    (h : sys.along P s (l :: ls) = true) (hm : sys.step s l = some m) :
    P s l = true ∧ sys.along P m ls = true := by
  simpa [along, hm] using h

/-- What the steps that meet a condition keep, a run of such steps keeps. -/
theorem along_invariant {P : S → L → Bool} {I : S → Prop}
    (keep : ∀ s l s', I s → P s l = true → sys.step s l = some s' → I s')
    {s s' : S} {ls : List L} (hr : sys.Run s ls s') (ha : sys.along P s ls = true) (hs : I s) :
    I s' := by
  induction ls generalizing s with
  | nil => exact run_nil.mp hr ▸ hs
  | cons l ls ih =>
    obtain ⟨m, hm, hr⟩ := run_cons.mp hr
    obtain ⟨hP, ha⟩ := along_cons ha hm
    exact ih hr ha (keep s l m hs hP hm)

/-- What every step keeps exactly under a condition, a run keeps exactly where its steps meet it. -/
theorem Run.iff_along {P : S → L → Bool} {I A : S → Prop}
    (keep : ∀ s l s', I s → sys.step s l = some s' → I s')
    (exact : ∀ s l s', I s → sys.step s l = some s' → (A s' ↔ A s ∧ P s l = true))
    {s s' : S} {ls : List L} (hr : sys.Run s ls s') (hs : I s) :
    A s' ↔ A s ∧ sys.along P s ls = true := by
  induction ls generalizing s with
  | nil =>
    obtain rfl := run_nil.mp hr
    simp [along]
  | cons l ls ih =>
    obtain ⟨m, hm, hr⟩ := run_cons.mp hr
    rw [ih hr (keep s l m hs hm), exact s l m hs hm, and_assoc, along, hm, Option.all_some,
      Bool.and_eq_true]

/-- Conditions that agree where an invariant holds agree along a run. -/
theorem along_congr {P Q : S → L → Bool} {I : S → Prop}
    (keep : ∀ s l s', I s → sys.step s l = some s' → I s') (same : ∀ s l, I s → P s l = Q s l)
    {s : S} (hs : I s) (ls : List L) : sys.along P s ls = sys.along Q s ls := by
  induction ls generalizing s with
  | nil => rfl
  | cons l ls ih =>
    rw [along, along, same s l hs]
    cases hm : sys.step s l with
    | none => rfl
    | some m =>
      simp only [Option.all_some]
      rw [ih (keep s l m hs hm)]

/-! ### Every state of a run -/

variable (sys) in
/-- Every state of a run has a property. -/
def throughout (A : S → Prop) (s : S) : List L → Prop
  | [] => A s
  | l :: ls => A s ∧ ∀ s', sys.step s l = some s' → throughout A s' ls

/-- What an invariant of the steps that meet a condition implies, a run of such steps has
throughout. -/
theorem throughout_of_along {P : S → L → Bool} {I A : S → Prop}
    (keep : ∀ s l s', I s → P s l = true → sys.step s l = some s' → I s') (hA : ∀ s, I s → A s)
    {s : S} {ls : List L} (ha : sys.along P s ls = true) (hs : I s) : sys.throughout A s ls := by
  induction ls generalizing s with
  | nil => exact hA s hs
  | cons l ls ih =>
    refine ⟨hA s hs, fun m hm => ?_⟩
    obtain ⟨hP, ha⟩ := along_cons ha hm
    exact ih ha (keep s l m hs hP hm)

/-- A run that has a property throughout meets a condition without which a step would lose it. -/
theorem Run.along_of_throughout {P Q : S → L → Bool} {I A : S → Prop}
    (keep : ∀ s l s', I s → Q s l = true → sys.step s l = some s' → I s')
    (need : ∀ s l s', I s → Q s l = true → sys.step s l = some s' → A s' → P s l = true)
    {s s' : S} {ls : List L} (hr : sys.Run s ls s') (hQ : sys.along Q s ls = true) (hs : I s)
    (hA : sys.throughout A s ls) : sys.along P s ls = true := by
  induction ls generalizing s with
  | nil => rfl
  | cons l ls ih =>
    obtain ⟨m, hm, hr⟩ := run_cons.mp hr
    obtain ⟨hQl, hQ⟩ := along_cons hQ hm
    have hrest := hA.2 m hm
    have hAm : A m := by
      cases ls with
      | nil => exact hrest
      | cons => exact hrest.1
    rw [along, need s l m hs hQl hm hAm, hm, Option.all_some, Bool.true_and]
    exact ih hr hQ (keep s l m hs hQl hm) hrest

variable (sys) in
/-- The run of `ls` from `s` has a step whose ends are related by `Q`. -/
def HasStep (s : S) (ls : List L) (Q : S → S → Prop) : Prop :=
  ∃ xs l ys m m', ls = xs ++ l :: ys ∧ sys.Run s xs m ∧ sys.step m l = some m' ∧ Q m m'

theorem HasStep.snoc {s : S} {ls : List L} {Q : S → S → Prop} (h : sys.HasStep s ls Q) (l : L) :
    sys.HasStep s (ls ++ [l]) Q := by
  obtain ⟨xs, k, ys, m, m', rfl, h⟩ := h
  exact ⟨xs, k, ys ++ [l], m, m', by simp, h⟩

theorem HasStep.last {s m m' : S} {ls : List L} {l : L} {Q : S → S → Prop} (hr : sys.Run s ls m)
    (hs : sys.step m l = some m') (hQ : Q m m') : sys.HasStep s (ls ++ [l]) Q :=
  ⟨ls, l, [], m, m', rfl, hr, hs, hQ⟩

/-- Induction along a run, for facts that look back at it. -/
theorem Run.snoc_induction {I : List L → S → Prop} {s : S} (base : I [] s)
    (step : ∀ xs l m m', sys.Run s xs m → I xs m → sys.step m l = some m' → I (xs ++ [l]) m')
    {s' : S} {ls : List L} (hr : sys.Run s ls s') : I ls s' := by
  induction ls using List.reverseRecOn generalizing s' with
  | nil => exact run_nil.mp hr ▸ base
  | append_singleton xs l ih =>
    obtain ⟨m, hxs, hlast⟩ := run_append.mp hr
    obtain ⟨m', hm, hnil⟩ := run_cons.mp hlast
    exact run_nil.mp hnil ▸ step xs l m m' hxs (ih hxs) hm

/-- Induction along a run whose steps meet a condition, for facts that look back at the run. -/
theorem Run.along_induction {P : S → L → Bool} {I : List L → S → Prop} {s : S} (base : I [] s)
    (step : ∀ xs l m m', sys.Run s xs m → I xs m → P m l = true → sys.step m l = some m' →
      I (xs ++ [l]) m')
    {s' : S} {ls : List L} (hr : sys.Run s ls s') (ha : sys.along P s ls = true) : I ls s' := by
  have go : ∀ ls xs m, sys.Run s xs m → I xs m → sys.Run m ls s' → sys.along P m ls = true →
      I (xs ++ ls) s' := by
    intro ls
    induction ls with
    | nil =>
      intro xs m _ hI hr _
      rw [run_nil] at hr
      rwa [List.append_nil, ← hr]
    | cons l ls ih =>
      intro xs m hxs hI hr ha
      obtain ⟨m', hm, hr⟩ := run_cons.mp hr
      obtain ⟨hP, ha⟩ := along_cons ha hm
      rw [List.append_cons]
      exact ih (xs ++ [l]) m' (hxs.snoc hm) (step xs l m m' hxs hI hP hm) hr ha
  exact go ls [] s (Run.refl s) base hr ha

/-- A run into `P` has a step that enters it. -/
theorem Run.exists_entry {P : S → Prop} {s s' : S} {ls : List L} (hr : sys.Run s ls s')
    (h0 : ¬ P s) (h1 : P s') : ∃ xs l ys m m', ls = xs ++ l :: ys ∧ sys.Run s xs m ∧
      sys.step m l = some m' ∧ ¬ P m ∧ P m' := by
  induction ls generalizing s with
  | nil => exact absurd (run_nil.mp hr ▸ h1) h0
  | cons l ls ih =>
    obtain ⟨m, hm, hr⟩ := run_cons.mp hr
    by_cases hP : P m
    · exact ⟨[], l, ls, s, m, rfl, .refl s, hm, h0, hP⟩
    · obtain ⟨xs, l', ys, n, n', rfl, hxs, hstep, hn, hn'⟩ := ih hr hP
      exact ⟨l :: xs, l', ys, n, n', rfl, .head hm hxs, hstep, hn, hn'⟩

/-! ### Accounts -/

variable (sys) in
/-- How many steps of a run are of the kind `Q`. -/
def occurrences (Q : S → L → Bool) (s : S) : List L → ℕ
  | [] => 0
  | l :: ls => (Q s l).toNat + (sys.step s l).elim 0 fun s' => occurrences Q s' ls

theorem occurrences_cons {Q : S → L → Bool} {s m : S} {l : L} {ls : List L}
    (h : sys.step s l = some m) :
    sys.occurrences Q s (l :: ls) = (Q s l).toNat + sys.occurrences Q m ls := by
  simp only [occurrences, h, Option.elim]

theorem Run.occurrences_eq_zero_iff {Q : S → L → Bool} {s s' : S} {ls : List L}
    (hr : sys.Run s ls s') :
    sys.occurrences Q s ls = 0 ↔ sys.along (fun s l => !Q s l) s ls = true := by
  induction ls generalizing s with
  | nil => simp [occurrences, along]
  | cons l ls ih =>
    obtain ⟨m, hm, hr⟩ := run_cons.mp hr
    simp [occurrences_cons hm, along, hm, ih hr]

/-- A balance that every step keeps up to its own kind, a run keeps up to the number of such
steps. -/
theorem Run.balance {I : S → Prop} {Q : S → L → Bool} {a b : S → ℕ}
    (keep : ∀ s l s', I s → sys.step s l = some s' →
      I s' ∧ a s' + b s = a s + b s' + (Q s l).toNat)
    {s s' : S} {ls : List L} (hr : sys.Run s ls s') (hs : I s) :
    a s' + b s = a s + b s' + sys.occurrences Q s ls := by
  induction ls generalizing s with
  | nil =>
    obtain rfl := run_nil.mp hr
    rfl
  | cons l ls ih =>
    obtain ⟨m, hm, hr⟩ := run_cons.mp hr
    obtain ⟨hI, hstep⟩ := keep s l m hs hm
    have hrest := ih hr hI
    rw [occurrences_cons hm]
    omega

/-- What enters by steps of one kind leaves by steps of two others, or is held. -/
theorem Run.conserves {I : S → Prop} {Q Q₁ Q₂ : S → L → Bool} {a : S → ℕ}
    (keep : ∀ s l s', I s → sys.step s l = some s' →
      I s' ∧ a s' + (Q₁ s l).toNat + (Q₂ s l).toNat = a s + (Q s l).toNat)
    {s s' : S} {ls : List L} (hr : sys.Run s ls s') (hs : I s) :
    a s' + sys.occurrences Q₁ s ls + sys.occurrences Q₂ s ls = a s + sys.occurrences Q s ls := by
  induction ls generalizing s with
  | nil =>
    obtain rfl := run_nil.mp hr
    rfl
  | cons l ls ih =>
    obtain ⟨m, hm, hr⟩ := run_cons.mp hr
    obtain ⟨hI, hstep⟩ := keep s l m hs hm
    have hrest := ih hr hI
    rw [occurrences_cons hm, occurrences_cons hm, occurrences_cons hm]
    omega

/-- The same, where every step balances. -/
theorem Run.account {I : S → Prop} {P Q : S → L → Bool} {a : S → ℕ}
    (keep : ∀ s l s', I s → sys.step s l = some s' →
      I s' ∧ a s' + (P s l).toNat = a s + (Q s l).toNat)
    {s s' : S} {ls : List L} (hr : sys.Run s ls s') (hs : I s) :
    a s' + sys.occurrences P s ls = a s + sys.occurrences Q s ls := by
  induction ls generalizing s with
  | nil => rw [run_nil.mp hr, occurrences, occurrences]
  | cons l ls ih =>
    obtain ⟨m, hm, hr⟩ := run_cons.mp hr
    obtain ⟨hI, hstep⟩ := keep s l m hs hm
    have hrest := ih hr hI
    rw [occurrences_cons hm, occurrences_cons hm]
    omega

/-! ### Observations -/

section Observed

variable {A : Type*} [DecidableEq A]

variable (sys) in
/-- The values an observation takes along a run, one entry for each change. -/
def observed (f : S → Option A) (s : S) : List L → List A
  | [] => []
  | l :: ls =>
    match sys.step s l with
    | none => []
    | some s' => (if f s' = f s then [] else (f s').toList) ++ observed f s' ls

theorem observed_cons {f : S → Option A} {s s' : S} {l : L} {ls : List L}
    (h : sys.step s l = some s') : sys.observed f s (l :: ls) =
      (if f s' = f s then [] else (f s').toList) ++ sys.observed f s' ls := by
  simp only [observed, h]

/-- Along a run an observation that once made stays, and changes by `R`, follows a path of `R`. -/
theorem Run.observed_chain {I : S → Prop} {R : A → A → Prop} {f : S → Option A}
    (keep : ∀ s l s', I s → sys.step s l = some s' → I s')
    (edge : ∀ s l s' a, I s → sys.step s l = some s' → f s = some a →
      ∃ b, f s' = some b ∧ (b = a ∨ R a b))
    {s s' : S} {ls : List L} {a : A} (hr : sys.Run s ls s') (hs : I s) (ha : f s = some a) :
    (a :: sys.observed f s ls).IsChain R ∧
      f s' = (a :: sys.observed f s ls).getLast? := by
  induction ls generalizing s a with
  | nil =>
    rw [run_nil] at hr
    subst hr
    exact ⟨.singleton a, by simp [observed, ha]⟩
  | cons l ls ih =>
    obtain ⟨m, hm, hr⟩ := run_cons.mp hr
    obtain ⟨b, hb, hab⟩ := edge s l m a hs hm ha
    obtain ⟨hchain, hlast⟩ := ih hr (keep s l m hs hm) hb
    rw [observed_cons hm, ha, hb]
    -- a step that leaves the observation as it is adds nothing to the path
    by_cases hba : b = a
    · subst hba
      simpa using ⟨hchain, hlast⟩
    · have hR := hab.resolve_left hba
      simp only [Option.some.injEq, hba, if_false, Option.toList_some, List.singleton_append]
      exact ⟨.cons_cons hR hchain, by rw [hlast, List.getLast?_cons_cons]⟩

end Observed

/-! ### What a run emits -/

section Emitted

variable {A : Type*} {f g : S → L → S → List A}

variable (sys) in
/-- What the steps of a run emit, in order. -/
def emitted (f : S → L → S → List A) (s : S) : List L → List A
  | [] => []
  | l :: ls =>
    match sys.step s l with
    | none => []
    | some s' => f s l s' ++ emitted f s' ls

theorem emitted_cons {s s' : S} {l : L} {ls : List L} (h : sys.step s l = some s') :
    sys.emitted f s (l :: ls) = f s l s' ++ sys.emitted f s' ls := by
  simp only [emitted, h]

theorem Run.emitted_append {s s' : S} {ls ks : List L} (hr : sys.Run s ls s') :
    sys.emitted f s (ls ++ ks) = sys.emitted f s ls ++ sys.emitted f s' ks := by
  induction ls generalizing s with
  | nil =>
    obtain rfl := run_nil.mp hr
    rfl
  | cons l ls ih =>
    obtain ⟨m, hm, hr⟩ := run_cons.mp hr
    rw [List.cons_append, emitted_cons hm, emitted_cons hm, ih hr, List.append_assoc]

/-- The last step of a run emits last. -/
theorem Run.emitted_snoc {s m m' : S} {ls : List L} {l : L} (hr : sys.Run s ls m)
    (h : sys.step m l = some m') :
    sys.emitted f s (ls ++ [l]) = sys.emitted f s ls ++ f m l m' := by
  rw [hr.emitted_append, emitted_cons h]
  exact congrArg _ (List.append_nil _)

/-- Selecting from what a run emits is selecting from what each step emits. -/
theorem emitted_filter (p : A → Bool) (s : S) (ls : List L) :
    (sys.emitted f s ls).filter p = sys.emitted (fun s l s' => (f s l s').filter p) s ls := by
  induction ls generalizing s with
  | nil => rfl
  | cons l ls ih =>
    simp only [emitted]
    cases sys.step s l with
    | none => rfl
    | some m => rw [List.filter_append, ih]

/-- A condition that holds where every condition of a family does, holds along a run where each of
the family does. -/
theorem along_of_forall {ι : Type*} {P : ι → S → L → Bool} {Q : S → L → Bool}
    (all : ∀ s l, (∀ i, P i s l = true) → Q s l = true) {s : S} {ls : List L}
    (h : ∀ i, sys.along (P i) s ls = true) : sys.along Q s ls = true := by
  induction ls generalizing s with
  | nil => rfl
  | cons l ls ih =>
    simp only [along, Bool.and_eq_true] at h ⊢
    refine ⟨all s l fun i => (h i).1, ?_⟩
    cases hm : sys.step s l with
    | none => rfl
    | some m => exact ih fun i => by simpa [hm] using (h i).2

/-- Where each step is a run of another system, a run is one. -/
theorem Run.simulates {T K : Type*} {abs : Lts T K} {f : S → T} {g : S → L → List K}
    (keep : ∀ s l s', sys.step s l = some s' → abs.Run (f s) (g s l) (f s'))
    {s s' : S} {ls : List L} (hr : sys.Run s ls s') :
    abs.Run (f s) (sys.emitted (fun s l _ => g s l) s ls) (f s') := by
  induction ls generalizing s with
  | nil =>
    obtain rfl := run_nil.mp hr
    exact .refl _
  | cons l ls ih =>
    obtain ⟨m, hm, hr⟩ := run_cons.mp hr
    rw [emitted_cons hm]
    exact (keep s l m hm).trans (ih hr)

section Ledger

variable (pend : S → List A) (lost : S → L → Bool) {I : S → Prop}
  (keep : ∀ s l s', I s → sys.step s l = some s' → I s')
  (kept : ∀ s l s', I s → sys.step s l = some s' → lost s l = false →
    pend s ++ f s l s' = g s l s' ++ pend s')
  (drop : ∀ s l s', I s → sys.step s l = some s' → lost s l = true →
    (g s l s').length + (pend s').length < (pend s).length + (f s l s').length)

include keep kept drop

/-- Never more comes out than went in. -/
theorem Run.ledger_le {s s' : S} {ls : List L} (hr : sys.Run s ls s') (hs : I s) :
    (sys.emitted g s ls).length + (pend s').length ≤
      (pend s).length + (sys.emitted f s ls).length := by
  induction ls generalizing s with
  | nil =>
    obtain rfl := run_nil.mp hr
    simp [emitted]
  | cons l ls ih =>
    obtain ⟨m, hm, hr⟩ := run_cons.mp hr
    have hrest := ih hr (keep s l m hs hm)
    rw [emitted_cons hm, emitted_cons hm, List.length_append, List.length_append]
    cases hl : lost s l with
    | true =>
      have hless := drop s l m hs hm hl
      omega
    | false =>
      have hsame := congrArg List.length (kept s l m hs hm hl)
      rw [List.length_append, List.length_append] at hsame
      omega

/-- A ledger: what goes in comes out in the same order or is pending, exactly where no step loses
any of it. -/
theorem Run.ledger_iff {s s' : S} {ls : List L} (hr : sys.Run s ls s') (hs : I s) :
    pend s ++ sys.emitted f s ls = sys.emitted g s ls ++ pend s' ↔
      sys.along (fun s l => !lost s l) s ls = true := by
  induction ls generalizing s with
  | nil =>
    obtain rfl := run_nil.mp hr
    simp [emitted, along]
  | cons l ls ih =>
    obtain ⟨m, hm, hr⟩ := run_cons.mp hr
    have hI := keep s l m hs hm
    rw [emitted_cons hm, emitted_cons hm, along, hm, Option.all_some, Bool.and_eq_true,
      Bool.not_eq_true']
    cases hl : lost s l with
    | true =>
      -- what this step loses is missing for good
      refine iff_of_false (fun heq => ?_) fun h => Bool.false_ne_true h.1.symm
      have hless := drop s l m hs hm hl
      have hrest := hr.ledger_le pend lost keep kept drop hI
      have hlen := congrArg List.length heq
      simp only [List.length_append] at hlen
      omega
    | false =>
      rw [← List.append_assoc, kept s l m hs hm hl, List.append_assoc, List.append_assoc,
        List.append_cancel_left_eq, ih hr hI]
      exact ⟨fun h => ⟨rfl, h⟩, And.right⟩

end Ledger

end Emitted

end Lts
