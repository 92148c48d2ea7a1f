import Animus.Db.Atomicity
import Animus.System.WorkTable

/-!
# Outcomes

An outcome is stored in three nullable columns and read back by which of them
are null. What comes back is what was stored as long as the outcome has data or
an error, and an error exactly when it is not a success, and the server gives
its data back unchanged.

## Main definitions

- `Outcome.Storable`: the outcomes the columns can hold
- `ReadsOutcome`: the outcome `get_work_item` reports
- `Sys.OutcomeInv`: only completed items have outcome data

## Main results

- `Row.outcome_complete`, `Row.outcome_fail`
- `outcomes_round_trip_iff`
- `outcome_is_lost`: a success without data is not read back
-/

namespace Animus

open Effect Effect.Fallible

/-- The outcome has data or an error, and an error exactly when it is not a success; its data is
unchanged by the `jsonb` column it is stored in. -/
def Outcome.Storable (jsonb : Json → Json) (o : Outcome) : Prop :=
  (o.data.isSome = true ∨ o.error.isSome = true) ∧ o.success = o.error.isNone ∧
    o.data.map jsonb = o.data

/-! ### The outcome columns -/

section Columns

variable {r r' : Row} {jsonb : Json → Json} {now : Sql.Timestamp}

/-- The outcome `complete_work` stores is read back if and only if it is storable. -/
theorem Row.outcome_complete {o : Outcome}
    (h : (Change.complete o).apply jsonb now r = some r') :
    r'.outcome = some o ↔ o.Storable jsonb := by
  obtain ⟨success, data, error, durationMs⟩ := o
  cases h
  simp only [Row.outcome, Outcome.Storable, Option.getD_some, asU64_asI64, Bool.or_eq_true,
    Option.isSome_map]
  split
  · next hsome =>
    simp only [Option.some.injEq, Outcome.mk.injEq, and_true, true_and, hsome]
    exact and_congr_left fun _ => eq_comm
  · next hsome => exact iff_of_false (Option.some_ne_none _).symm fun hs => hsome hs.1

/-- The outcome `fail_work` stores, in a row without outcome data. -/
theorem Row.outcome_fail {error : String} {durationMs : UInt64} (hr : r.outcomeData = none)
    (h : (Change.fail error durationMs).apply jsonb now r = some r') :
    r'.outcome = some ⟨false, none, some error, durationMs⟩ := by
  cases h
  simp [Row.outcome, hr]

end Columns

/-! ### Only completed items have outcome data -/

/-- A committed row with outcome data is completed. -/
def Sys.OutcomeInv (s : Sys) : Prop :=
  ∀ id r, s.db.row id = some r → r.outcomeData.isSome = true → r.state = .completed

section Steps

variable {clients : Op → Bool} {s s' : Sys} {l : Label}

theorem Row.Evolves.outcomeData {r r' : Row} (h : r.Evolves r')
    (hr : r.outcomeData.isSome = true → r.state = .completed)
    (hdata : r'.outcomeData.isSome = true) : r'.state = .completed := by
  have hopen : ∀ c : Change, c.source.canTransitionTo c.target = true → r.state = c.source →
      r.outcomeData.isSome = true → False := by
    intro c hc hs hsome
    have hterm := State.not_isTerminal_of_canTransitionTo hc
    rw [← hs, hr hsome] at hterm
    cases hterm
  obtain rfl | ⟨c, jsonb, now, hc, hs, happ⟩ := h
  · exact hr hdata
  · cases c with
    | transition source target =>
      rw [Change.apply, Option.ite_none_right_eq_some] at happ
      cases happ.2
      exact (hopen _ hc hs hdata).elim
    | complete o =>
      cases happ
      rfl
    | fail error ms =>
      cases happ
      exact (hopen _ hc hs hdata).elim

theorem SubmitPhase.Commits.outcomeData {new : NewWorkItem} {ph : SubmitPhase} {id : WorkId}
    {r : Row} (h : ph.Commits new id r) : r.outcomeData = none := by
  cases ph with
  | queued id' m =>
    obtain ⟨-, jsonb, now, t, rfl⟩ := h
    rfl
  | merging id' c =>
    obtain ⟨-, jsonb, now, rfl⟩ := h
    rfl
  | _ => exact h.elim

theorem RowStep.outcomeInv (h : RowStep s l s') (hs : s.OutcomeInv) : s'.OutcomeInv := by
  intro id r' hr' hdata
  obtain ⟨r, hr, hev⟩ | ⟨i, env, new, p, ph, -, -, hph, -⟩ := h.origin hr'
  · exact hev.outcomeData (hs id r hr) hdata
  · rw [hph.outcomeData] at hdata
    cases hdata

theorem Sys.outcomeInv_initial : Sys.initial.OutcomeInv := fun _ _ h => by cases h

theorem Sys.Reachable.outcomeInv (h : s.Reachable clients) : s.OutcomeInv :=
  (Lts.reachable_invariant (I := fun s => s.Reachable clients ∧ s.OutcomeInv)
    (fun _ _ _ hs hstep => ⟨hs.1.next hstep, (hs.1.rowStep hstep).outcomeInv hs.2⟩) h
    ⟨Lts.Reachable.refl _, Sys.outcomeInv_initial⟩).2

end Steps

/-! ### What the operations store and read -/

/-- The outcome `get_work_item` reports, where the database reports no error. -/
def ReadsOutcome (w : World) (id : WorkId) (o : Option Outcome) : Prop :=
  ∀ (i : CallId) (env : ℕ → Env), (env 0).fault = none →
    ∃ item, (getWorkItem id).run.interp (handle i) env w = (.ok item, w) ∧ item.outcome = o

section Alone

variable {i : CallId} {env : ℕ → Env} {w w' : World} {id : WorkId} {r : Row} {c : Change}
  {item : WorkItem}

theorem Row.outcome_of_read (h : r.tryIntoWorkItem = .ok item) : item.outcome = r.outcome := by
  unfold Row.tryIntoWorkItem at h
  split at h
  · cases h
  · cases h
    rfl

theorem readsOutcome_iff (hr : w.db.row id = some r) (o : Option Outcome) :
    ReadsOutcome w id o ↔ r.outcome = o := by
  constructor
  · intro h
    obtain ⟨item, hitem, ho⟩ := h 0 (fun _ => {}) rfl
    obtain ⟨item', hread, hitem'⟩ := getWorkItem_reads (fun _ => {}) (i := 0) rfl hr
    cases hitem.symm.trans hitem'
    rw [← ho, Row.outcome_of_read hread]
  · intro h i env hf
    obtain ⟨item, hread, hitem⟩ := getWorkItem_reads env (i := i) hf hr
    exact ⟨item, hitem, by rw [Row.outcome_of_read hread, h]⟩

/-- An update that returns an item moved its row. -/
theorem casUpdate_ok (h : (casUpdate c id).run.interp (handle i) env w = (.ok item, w')) :
    ∃ r r', w.db.row id = some r ∧ r.state = c.source ∧
      c.apply (env 1).chance.jsonb (env 0).clock r = some r' ∧ w'.db.row id = some r' := by
  by_cases hc : c.source.canTransitionTo c.target = true
  · rw [casUpdate_allowed hc] at h
    obtain ⟨n, db', -, hupdate, h⟩ := interp_attempt_answered rfl h
    obtain ⟨hmiss, -⟩ | ⟨r, -, -, -, hbad⟩ | ⟨r, r', db'', hr, hs, hap, hok, hput⟩ :=
      w.db.exec_change_cases (env 1).chance id (env 0).clock hc
    · cases hmiss.symm.trans hupdate
      rw [if_pos rfl] at h
      cases h
    · cases hbad.symm.trans hupdate
    · cases hok.symm.trans hupdate
      rw [if_neg Nat.one_ne_zero] at h
      have hid : r'.id = id := (c.apply_identity hap).1.trans (Db.rowOf_id hr)
      obtain ⟨-, -, -, rfl⟩ := getWorkItem_ok h
      exact ⟨r, r', hr, hs, hap, hid ▸ hput.rowOf_self⟩
  · rw [casUpdate_refused hc] at h
    cases h

/-- What an operation that runs alone returns, and the world it leaves. -/
def returned {α : Type} (i : CallId) (env : ℕ → Env) (w : World) (p : Fallible Eff Error α) :
    Except Error α × World := p.run.interp (handle i) env w

/-- After `complete_work` has returned an item. -/
theorem readsOutcome_completeWork {o : Outcome}
    (hok : (returned i env w (completeWork id o)).1 = .ok item) :
    ReadsOutcome (returned i env w (completeWork id o)).2 id (some o) ↔
      o.Storable (env 1).chance.jsonb := by
  obtain ⟨r, r', -, -, happ, hr'⟩ := casUpdate_ok (Prod.ext hok rfl)
  exact (readsOutcome_iff hr' _).trans (Row.outcome_complete happ)

/-- After `fail_work` has returned an item whose row had no outcome data. -/
theorem readsOutcome_failWork {error : String} {durationMs : UInt64}
    (hdata : ∀ r, w.db.row id = some r → r.state = .running → r.outcomeData = none)
    (hok : (returned i env w (failWork id error durationMs)).1 = .ok item) :
    ReadsOutcome (returned i env w (failWork id error durationMs)).2 id
      (some ⟨false, none, some error, durationMs⟩) := by
  obtain ⟨r, r', hr, hs, happ, hr'⟩ := casUpdate_ok (Prod.ext hok rfl)
  exact (readsOutcome_iff hr' _).mpr (Row.outcome_fail (hdata r hr hs) happ)

end Alone

/-- After `complete_work` has returned an item its outcome is read back if and only if it is
storable, on a server whose `jsonb` columns give back `jsonb v` for `v`; after `fail_work` it always
is. -/
theorem outcomes_round_trip_iff {clients : Op → Bool} {s : Sys} (h : s.Reachable clients)
    (i : CallId) (env : ℕ → Env) (id : WorkId) {jsonb : Json → Json}
    (hj : ∀ n, (env n).chance.jsonb = jsonb) {item : WorkItem} :
    (∀ o, (returned i env s.world (completeWork id o)).1 = .ok item →
      (ReadsOutcome (returned i env s.world (completeWork id o)).2 id (some o) ↔
        o.Storable jsonb)) ∧
    ∀ error durationMs, (returned i env s.world (failWork id error durationMs)).1 = .ok item →
      ReadsOutcome (returned i env s.world (failWork id error durationMs)).2 id
        (some ⟨false, none, some error, durationMs⟩) := by
  refine ⟨fun o hok => hj 1 ▸ readsOutcome_completeWork hok, fun error durationMs hok => ?_⟩
  refine readsOutcome_failWork (fun r hr hs => ?_) hok
  by_contra hne
  have hdone := h.outcomeInv id r hr (Option.isSome_iff_ne_none.mpr hne)
  rw [hs] at hdone
  cases hdone

/-! ### Samples -/

/-- One item is submitted, claimed and started. -/
def runningRun : List Label :=
  Label.alone 0 (.submit sampleItem) { uuid := .ofNat 1 } 9 ++
    Label.alone 1 (.change (.transition .queued .claimed) (.ofNat 1)) {} 3 ++
    Label.alone 2 (.change (.transition .claimed .running) (.ofNat 1)) {} 3

def runningState : Sys := (system anyone).replayed Sys.initial runningRun

theorem runningState_reachable : runningState.Reachable anyone :=
  ⟨runningRun, Lts.run_replayed rfl⟩

/-- A success with data. -/
def sampleOutcome : Outcome := ⟨true, some (.obj [("reply", .str "done")]), none, 5⟩

theorem completeWork_running : ∃ item, (returned 3 (fun _ => {}) runningState.world
    (completeWork (.ofNat 1) sampleOutcome)).1 = .ok item := ⟨_, rfl⟩

theorem failWork_running : ∃ item, (returned 3 (fun _ => {}) runningState.world
    (failWork (.ofNat 1) "engage: exited" 7)).1 = .ok item := ⟨_, rfl⟩

/-- A success with data is read back, and so is a failure. -/
theorem outcomes_round_trip_iff_running :
    (ReadsOutcome (returned 3 (fun _ => {}) runningState.world
        (completeWork (.ofNat 1) sampleOutcome)).2 (.ofNat 1) (some sampleOutcome) ↔
      sampleOutcome.Storable id) ∧
    ReadsOutcome (returned 3 (fun _ => {}) runningState.world
        (failWork (.ofNat 1) "engage: exited" 7)).2 (.ofNat 1)
      (some ⟨false, none, some "engage: exited", 7⟩) := by
  obtain ⟨completed, hcompleted⟩ := completeWork_running
  obtain ⟨failed, hfailed⟩ := failWork_running
  exact ⟨(outcomes_round_trip_iff runningState_reachable 3 _ _ fun _ => rfl).1 _ hcompleted,
    (outcomes_round_trip_iff runningState_reachable 3 _ _ fun _ => rfl).2 _ _ hfailed⟩

/-- A success without data is accepted, and read back as no outcome at all. -/
theorem outcome_is_lost :
    ¬ ∀ (s : Sys) (i : CallId) (env : ℕ → Env) (id : WorkId) (o : Outcome) (item : WorkItem),
      s.Reachable anyone → (returned i env s.world (completeWork id o)).1 = .ok item →
      ReadsOutcome (returned i env s.world (completeWork id o)).2 id (some o) := by
  intro h
  have hok : ∃ item, (returned 3 (fun _ => {}) runningState.world
      (completeWork (.ofNat 1) ⟨true, none, none, 5⟩)).1 = .ok item := ⟨_, rfl⟩
  obtain ⟨item, hok⟩ := hok
  obtain ⟨hdata | herror, -⟩ := (readsOutcome_completeWork hok).mp
    (h _ _ _ _ _ item runningState_reachable hok)
  · cases hdata
  · cases herror

end Animus
