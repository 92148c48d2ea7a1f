import Animus.System.History
import Animus.System.Outcomes

/-!
# Success and failure over retries

`fail_work` leaves its error in the row, and only `complete_work` writes the outcome
columns again; `transition_state` can complete an item with the error of an earlier
attempt still in it.

## Main definitions

- `Sys.OutcomesAgree`: completed items report no failure, failed and dead items no success
- `Sys.mislabels`: a step completes an item and leaves an error in it

## Main results

- `outcomes_agree_iff`: after a run the outcomes agree exactly when no step mislabels
- `retried_completes_with_error`: a retry that succeeds reports the failure before it
-/

namespace Animus

open Effect Effect.Fallible

/-! ### What the items report -/

/-- `get_work_item` can return an item. -/
def World.Reports (w : World) (id : WorkId) (item : WorkItem) : Prop :=
  ∃ (i : CallId) (env : ℕ → Env), ((getWorkItem id).run.interp (handle i) env w).1 = .ok item

/-- No completed item reports a failure, and no failed or dead item a success. -/
def Sys.OutcomesAgree (s : Sys) : Prop :=
  ∀ id item o, s.world.Reports id item → item.outcome = some o →
    (item.state = .completed → o.success = true) ∧
      (item.state = .failed ∨ item.state = .dead → o.success = false)

/-- No completed row has an error. -/
def Db.ErrorFree (db : Db) : Prop :=
  ∀ id r, db.row id = some r → r.state = .completed → r.outcomeError = none

section Reports

variable {w : World} {id : WorkId} {item : WorkItem}

theorem World.reports_iff :
    w.Reports id item ↔ ∃ r, w.db.row id = some r ∧ r.tryIntoWorkItem = .ok item := by
  constructor
  · rintro ⟨i, env, h⟩
    obtain ⟨r, hr, hitem, -⟩ := getWorkItem_ok (Prod.ext h rfl)
    exact ⟨r, hr, hitem⟩
  · rintro ⟨r, hr, hitem⟩
    obtain ⟨item', hitem', hread⟩ := getWorkItem_reads (fun _ => {}) (i := 0) rfl hr
    cases hitem.symm.trans hitem'
    exact ⟨0, fun _ => {}, congrArg Prod.fst hread⟩

/-- An outcome that is reported is a success where the row has no error. -/
theorem Row.success_of_outcome {r : Row} {o : Outcome} (h : r.outcome = some o) :
    o.success = r.outcomeError.isNone := by
  rw [Row.outcome, Option.ite_none_right_eq_some] at h
  cases h.2
  rfl

/-- Where only completed rows have outcome data, an error in a completed row is all that can make
the outcomes disagree. -/
theorem Sys.outcomesAgree_iff {s : Sys} (hs : s.OutcomeInv) :
    s.OutcomesAgree ↔ s.db.ErrorFree := by
  constructor
  · intro h id r hr hc
    obtain ⟨item, hitem, -, -, hstate⟩ := r.tryIntoWorkItem_isOk
    by_contra hne
    have herror : r.outcomeError.isSome = true := Option.isSome_iff_ne_none.mpr hne
    have ho : item.outcome = some _ := (Row.outcome_of_read hitem).trans
      (if_pos (by rw [herror, Bool.or_true]))
    have hsuccess := (h id item _ (World.reports_iff.mpr ⟨r, hr, hitem⟩) ho).1 (hstate.trans hc)
    exact hne (Option.isNone_iff_eq_none.mp hsuccess)
  · intro h id item o hrep ho
    obtain ⟨r, hr, hitem⟩ := World.reports_iff.mp hrep
    obtain ⟨-, -, hstate⟩ := Row.of_read hitem
    rw [Row.outcome_of_read hitem] at ho
    rw [Row.success_of_outcome ho, hstate]
    refine ⟨fun hc => Option.isNone_iff_eq_none.mpr (h id r hr hc), fun hf => ?_⟩
    -- without an error there would be data, and the row would be completed
    by_contra hnone
    rw [Bool.not_eq_false, Option.isNone_iff_eq_none] at hnone
    rw [Row.outcome, hnone, Option.ite_none_right_eq_some, Option.isSome_none, Bool.or_false] at ho
    rw [hs id r hr ho.1] at hf
    obtain hf | hf := hf <;> cases hf

end Reports

/-! ### What leaves an error in a completed row -/

/-- Does an update that completes a row leave an error in it? `complete_work` writes the error it
is given, `transition_state` keeps the one in the row. -/
def Change.erring (c : Change) (r : Row) : Bool :=
  match c with
  | .transition _ target => target = .completed && r.outcomeError.isSome
  | .complete outcome => outcome.error.isSome
  | .fail _ _ => false

/-- Does an update find its row, and leave an error in it as it completes? -/
def Db.mislabels (db : Db) (c : Change) (id : WorkId) : Bool :=
  (db.row id).any fun r => r.state = c.source && c.erring r

/-- The compare-and-swap update an effect is. -/
def Eff.change? : {β : Type} → Eff β → Option (Change × WorkId)
  | _, .pool (.change c id _) => some (c, id)
  | _, _ => none

/-- The compare-and-swap update a call issues next. -/
def Slot.change? : Slot → Option (Change × WorkId)
  | .live ⟨_, .eff e _, _⟩ => e.change?
  | _ => none

/-- Does a statement that the database accepts take effect? -/
def Env.took (env : Env) : Bool := env.fault.all Fault.took

/-- Does a step complete an item and leave an error in it? -/
def Sys.mislabels (s : Sys) : Label → Bool
  | .exec i env => env.took && (s.calls i).change?.any fun u => s.db.mislabels u.1 u.2
  | _ => false

section Updates

variable {env : Env} {db db' : Db} {c : Change} {id : WorkId} {r r' : Row}
  {jsonb : Json → Json} {now : Sql.Timestamp}

theorem Env.reply_db {γ : Type} (a : Except DbError γ) :
    (env.reply db (a, db')).2 = if env.took then db' else db := by
  unfold Env.reply Env.took
  cases env.fault <;> rfl

/-- The attempt counter of every row fits its column. -/
def Db.CountersFit (db : Db) : Prop :=
  ∀ id r, db.row id = some r → Sql.Value.inInt4 r.attempts

theorem Change.erring_iff (h : c.apply jsonb now r = some r') :
    c.erring r = true ↔ r'.state = .completed ∧ r'.outcomeError ≠ none := by
  cases c with
  | transition source target =>
    rw [Change.apply, Option.ite_none_right_eq_some] at h
    cases h.2
    rw [Change.erring, Bool.and_eq_true, decide_eq_true_eq, Option.isSome_iff_ne_none]
  | complete outcome =>
    cases h
    rw [Change.erring, Option.isSome_iff_ne_none]
    exact (and_iff_right rfl).symm
  | fail error ms =>
    cases h
    constructor
    · intro h
      cases h
    · rintro ⟨h, -⟩
      cases h

variable (jsonb now) in
/-- An update that completes a row is refused by no counter. -/
theorem Change.apply_of_erring (h : c.erring r = true) (hfit : Sql.Value.inInt4 r.attempts) :
    ∃ r', c.apply jsonb now r = some r' := by
  cases c with
  | transition source target =>
    obtain ⟨htarget, -⟩ := Bool.and_eq_true_iff.mp h
    obtain rfl := of_decide_eq_true htarget
    refine ⟨_, if_pos ?_⟩
    rwa [if_neg nofun, Int.add_zero]
  | complete outcome => exact ⟨_, rfl⟩
  | fail error ms => cases h

theorem Db.mislabels_iff : db.mislabels c id = true ↔
    ∃ r, db.row id = some r ∧ r.state = c.source ∧ c.erring r = true := by
  simp only [mislabels, Option.any_eq_true, Bool.and_eq_true, decide_eq_true_eq]

/-- A row that is moved from a state that is not terminal keeps completed rows without errors
exactly where it is not completed with one. -/
theorem errorFree_put (hr : db.row id = some r) (hs : r.state.isTerminal = false)
    (hrow : ∀ k, db'.row k = if k = id then some r' else db.row k) :
    db'.ErrorFree ↔ db.ErrorFree ∧ ¬ (r'.state = .completed ∧ r'.outcomeError ≠ none) := by
  constructor
  · intro h
    refine ⟨fun k x hx hc => ?_, fun hbad => ?_⟩
    · refine h k x ((hrow k).trans ?_) hc
      rw [if_neg, hx]
      rintro rfl
      cases hr.symm.trans hx
      rw [hc] at hs
      cases hs
    · exact hbad.2 (h id r' ((hrow id).trans (if_pos rfl)) hbad.1)
  · rintro ⟨h, hgood⟩ k x hx hc
    rw [hrow] at hx
    split at hx
    · cases hx
      by_contra hne
      exact hgood ⟨hc, hne⟩
    · exact h k x hx hc

/-- An update keeps completed rows without errors exactly where it does not mislabel one. -/
theorem errorFree_change (hc : c.source.canTransitionTo c.target = true) (hfit : db.CountersFit) :
    (env.reply db (db.exec none env.chance (.change c id now))).2.ErrorFree ↔
      db.ErrorFree ∧ (env.took && db.mislabels c id) = false := by
  obtain ⟨hex, hne⟩ | ⟨r, hr, hs, happ, hex⟩ | ⟨r, r', db', hr, hs, happ, hex, hput⟩ :=
    db.exec_change_cases env.chance id now hc
  all_goals rw [hex, Env.reply_db]
  -- an update that finds no row in its source state changes nothing
  · have hmiss : db.mislabels c id = false := by
      by_contra h
      obtain ⟨r, hr, hs, -⟩ := Db.mislabels_iff.mp ((Bool.not_eq_false _).mp h)
      exact hne r hr hs
    rw [ite_self, hmiss, Bool.and_false, and_iff_left rfl]
  -- nor does one that is refused, and no completion is: it raises no counter
  · have hmiss : db.mislabels c id = false := by
      by_contra h
      obtain ⟨x, hx, -, herr⟩ := Db.mislabels_iff.mp ((Bool.not_eq_false _).mp h)
      cases hr.symm.trans hx
      obtain ⟨r', hr'⟩ := Change.apply_of_erring env.chance.jsonb now herr (hfit id r hr)
      cases happ.symm.trans hr'
    rw [ite_self, hmiss, Bool.and_false, and_iff_left rfl]
  · cases htook : env.took with
    | false => simp
    | true =>
      have hrow : ∀ k, db'.row k = if k = id then some r' else db.row k := fun k => by
        rw [hput.row_none, (c.apply_identity happ).1, Db.rowOf_id hr]
      have hterm : r.state.isTerminal = false := by
        rw [hs]
        exact State.not_isTerminal_of_canTransitionTo hc
      have hmislabels : db.mislabels c id = c.erring r := by
        rw [Db.mislabels, hr, Option.any_some, decide_eq_true hs, Bool.true_and]
      rw [if_pos rfl, errorFree_put hr hterm hrow, ← Change.erring_iff happ, hmislabels,
        Bool.true_and, Bool.not_eq_true]

end Updates

section Effects

variable {env : Env} {w : World} {c : Change} {id : WorkId} {β : Type} {e : Eff β}

variable (env w) in
theorem Eff.of_change? (i : CallId) (h : e.change? = some (c, id)) :
    ∃ now, (handle i e env w).2.db =
      (env.reply w.db (w.db.exec none env.chance (.change c id now))).2 := by
  cases e with
  | pool q =>
    cases q with
    | change c' id' now =>
      cases h
      exact ⟨now, rfl⟩
    | _ => cases h
  | _ => cases h

/-- An update a call issues is one of the lifecycle graph. -/
theorem Op.change?_valid {op : Op} {ph : op.Phase} (ha : op.protocol.allowed ph e)
    (h : e.change? = some (c, id)) : c.source.canTransitionTo c.target = true := by
  cases e with
  | pool q =>
    cases q with
    | change c' id' now =>
      cases h
      exact Op.change_valid ha
    | _ => cases h
  | _ => cases h

/-- The other effects of an update touch no row. -/
theorem changeAllowed.passive {c' : Change} {id' : WorkId} {ph : ChangePhase}
    (ha : changeAllowed c' id' ph e) (h : e.change? = none) : e.passive = true := by
  cases ph with
  | ready =>
    cases e with
    | utcNow => rfl
    | pool q =>
      cases q with
      | change c id now => cases h
      | _ => exact ha.elim
    | _ => exact ha.elim
  | moved =>
    cases e with
    | pool q =>
      cases q with
      | selectById id => rfl
      | _ => exact ha.elim
    | _ => exact ha.elim
  | _ => exact ha.elim

/-- Nor do those of a `process_work` call where it issues an update. -/
theorem planeAllowed.passive {cp : ControlPlane} {ph : PlanePhase} (ha : planeAllowed cp ph e)
    (hph : ph.Issues c id) (h : e.change? = none) : e.passive = true := by
  cases planeEff_of ha with
  | update now hissues => cases h
  | passive he hstay => exact he
  | _ => exact hph.elim

/-- An effect that is not an update moves no row, unless it is one of a submission. -/
theorem Op.row_eq {op : Op} {ph : op.Phase} (i : CallId) (ha : op.protocol.allowed ph e)
    (h : e.change? = none) (hop : ∀ new, op ≠ .submit new) (k : WorkId) :
    (handle i e env w).2.db.row k = w.db.row k := by
  by_cases hp : e.passive = true
  · obtain ⟨dirs, hd⟩ := handle_passive i env w hp
    rw [hd]
  · cases op with
    | submit new => exact absurd rfl (hop new)
    | change c id => exact absurd (changeAllowed.passive ha h) hp
    | process cp =>
      have hstep : PlaneStep cp env w ph _ _ := planeStep_of (i := i) ha
      generalize planeNext cp ph e (handle i e env w).1 = ph' at hstep
      generalize (handle i e env w).2 = w' at hstep ⊢
      cases hstep with
      | update hissues => exact absurd (planeAllowed.passive ha hissues h) hp
      | _ => rfl

end Effects

section Steps

variable {clients : Op → Bool} {s s' : Sys} {l : Label}

theorem Row.Evolves.countersFit {r r' : Row} (h : r.Evolves r')
    (hr : Sql.Value.inInt4 r.attempts) : Sql.Value.inInt4 r'.attempts := by
  obtain rfl | ⟨c, jsonb, now, -, -, happ⟩ := h
  · exact hr
  · cases c with
    | transition source target =>
      rw [Change.apply, Option.ite_none_right_eq_some] at happ
      cases happ.2
      exact happ.1
    | complete o =>
      cases happ
      exact hr
    | fail error ms =>
      cases happ
      exact hr

theorem SubmitPhase.Commits.fresh {new : NewWorkItem} {ph : SubmitPhase} {id : WorkId} {r : Row}
    (h : ph.Commits new id r) : r.attempts = 0 ∧ r.state ≠ .completed := by
  cases ph with
  | queued id' m =>
    obtain ⟨-, jsonb, now, t, rfl⟩ := h
    exact ⟨rfl, nofun⟩
  | merging id' c =>
    obtain ⟨-, jsonb, now, rfl⟩ := h
    exact ⟨rfl, nofun⟩
  | _ => exact h.elim

theorem RowStep.countersFit (h : RowStep s l s') (hs : s.db.CountersFit) : s'.db.CountersFit := by
  intro id r' hr'
  obtain ⟨r, hr, hev⟩ | ⟨i, env, new, p, ph, -, -, hph, -⟩ := h.origin hr'
  · exact hev.countersFit (hs id r hr)
  · rw [hph.fresh.1]
    decide

theorem Sys.Reachable.countersFit (h : s.Reachable clients) : s.db.CountersFit :=
  (Lts.reachable_invariant (I := fun s => s.Reachable clients ∧ s.db.CountersFit)
    (fun _ _ _ hs hstep => ⟨hs.1.next hstep, (hs.1.rowStep hstep).countersFit hs.2⟩) h
    ⟨Lts.Reachable.refl _, fun _ _ h => by cases h⟩).2

theorem Db.errorFree_congr {db db' : Db} (h : ∀ k, db'.row k = db.row k) :
    db'.ErrorFree ↔ db.ErrorFree := by
  simp only [ErrorFree, h]

/-- A step that moves no row keeps completed rows without errors. -/
theorem RowStep.errorFree_iff (h : RowStep s l s') (hstill : ∀ i env c id, l = .exec i env →
    (s.calls i).Updates c id → ∀ k, s'.db.row k = s.db.row k) :
    s'.db.ErrorFree ↔ s.db.ErrorFree := by
  cases h with
  | same h => exact Db.errorFree_congr h
  | update hl hi _ _ _ _ hrow => exact Db.errorFree_congr (hstill _ _ _ _ hl hi)
  | @insert i env new p ph id r hl hi hph fresh hrow =>
    constructor
    · intro h k x hx
      refine h k x ((hrow k).trans ?_)
      rw [if_neg, hx]
      rintro rfl
      cases fresh.symm.trans hx
    · intro h k x hx
      rw [hrow] at hx
      split at hx
      · cases hx
        exact fun hc => absurd hc hph.fresh.2
      · exact h k x hx

/-- A step keeps completed rows without errors exactly where it does not mislabel one. -/
theorem Sys.Reachable.errorFree_step (h : s.Reachable clients)
    (hstep : s.step clients l = some s') :
    s'.db.ErrorFree ↔ s.db.ErrorFree ∧ (!s.mislabels l) = true := by
  have hrow := h.rowStep hstep
  cases l with
  | exec i env =>
    obtain ⟨op, β, e, k, ph, hi, -, rfl⟩ := step_exec hstep
    obtain ⟨-, ha, -⟩ := h.inv.1 i _ hi
    rw [Sys.mislabels, hi, Slot.change?]
    -- other effects move no row but by inserting one, which is not completed
    cases hch : e.change? with
    | none =>
      rw [Option.any_none, Bool.and_false, Bool.not_false, and_iff_left rfl]
      refine hrow.errorFree_iff ?_
      rintro _ _ c id ⟨⟩ hup
      refine Op.row_eq i ha hch fun new hop => ?_
      subst hop
      rw [hi] at hup
      exact hup
    | some u =>
      obtain ⟨now, hdb⟩ := Eff.of_change? env s.world i hch
      rw [Option.any_some, Bool.not_eq_true']
      change (handle i e env s.world).2.db.ErrorFree ↔ _
      rw [hdb]
      exact errorFree_change (Op.change?_valid ha hch) h.countersFit
  | _ =>
    exact (hrow.errorFree_iff fun _ _ _ _ hl => nomatch hl).trans (and_iff_left rfl).symm

/-- After a run from the empty store, completed items report no failure, and failed and dead items
no success, if and only if no step completes an item and leaves an error in it. -/
theorem outcomes_agree_iff {ls : List Label} (hrun : (system clients).Run Sys.initial ls s) :
    s.OutcomesAgree ↔
      (system clients).along (fun s l => !s.mislabels l) Sys.initial ls = true := by
  have hreach : s.Reachable clients := ⟨ls, hrun⟩
  rw [Sys.outcomesAgree_iff hreach.outcomeInv,
    Lts.Run.iff_along (I := fun s => s.Reachable clients) (A := fun s => s.db.ErrorFree)
      (fun _ _ _ hs hstep => hs.next hstep) (fun _ _ _ hs hstep => hs.errorFree_step hstep)
      hrun (Lts.Reachable.refl _)]
  exact and_iff_right fun _ _ h => by cases h

end Steps

/-! ### Samples -/

/-- An item is submitted, fails, is queued again and runs once more. -/
def retriedRun : List Label :=
  runningRun ++ Label.alone 3 (.change (.fail "engage: exited" 7) (.ofNat 1)) {} 3 ++
    Label.alone 4 (.change (.transition .failed .queued) (.ofNat 1)) {} 3 ++
    Label.alone 5 (.change (.transition .queued .claimed) (.ofNat 1)) {} 3 ++
    Label.alone 6 (.change (.transition .claimed .running) (.ofNat 1)) {} 3

/-- The retry is completed by `complete_work`. -/
def completedRetry : List Label :=
  retriedRun ++ Label.alone 7 (.change (.complete sampleOutcome) (.ofNat 1)) {} 3

/-- The retry is completed by `transition_state`. -/
def transitionedRetry : List Label :=
  retriedRun ++ Label.alone 7 (.change (.transition .running .completed) (.ofNat 1)) {} 3

/-- A retry that `complete_work` completes reports its success. -/
theorem outcomes_agree_iff_completedRetry :
    ((system storeClients).replayed Sys.initial completedRetry).OutcomesAgree :=
  (outcomes_agree_iff (Lts.run_replayed rfl)).mpr rfl

/-- A retry that `transition_state` completes reports the failure of the attempt before it. -/
theorem retried_completes_with_error :
    ¬ ∀ (ls : List Label) (s : Sys), (system storeClients).Run Sys.initial ls s →
      s.OutcomesAgree := by
  intro h
  have hreach : ((system storeClients).replayed Sys.initial transitionedRetry).Reachable
      storeClients := ⟨transitionedRetry, Lts.run_replayed rfl⟩
  obtain ⟨r, hr, hc, herror⟩ : ∃ r : Row,
      ((system storeClients).replayed Sys.initial transitionedRetry).db.row (.ofNat 1) = some r ∧
        r.state = .completed ∧ r.outcomeError = some "engage: exited" := ⟨_, rfl, rfl, rfl⟩
  have hagree := h transitionedRetry _ (Lts.run_replayed rfl)
  have hnone := (Sys.outcomesAgree_iff hreach.outcomeInv).mp hagree _ r hr hc
  cases herror.symm.trans hnone

end Animus
