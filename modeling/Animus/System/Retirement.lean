import Animus.System.Hooks

/-!
# Retired items and their hooks

A `process_work` call retires its item with what its focus run came to. The
columns a retired row carries are read back to the hooks that ran for it.

## Main definitions

- `Sys.Retires`: a step is the update that retires a row
- `Sys.RetiredBy`: where in a run a row was retired, and by which call
- `Focus.Completes`, `Focus.Fails`: what the hooks of a focus made of a row

## Main results

- `Sys.Reachable.retired_by`: a row is retired by the update of a `process_work` call
- `retired_rows_tell_their_focus`: the state and the outcome of a retired row are those of a focus
  run of its faculty by the call whose update retired it, and which ran no hook after that
-/

namespace Animus

open Effect

/-- The states an item is retired in. -/
def State.retired : State → Bool
  | .completed | .failed => true
  | _ => false

theorem State.source_of_retired {a b : State} (h : a.canTransitionTo b = true)
    (hb : b.retired = true) : a = .running := by
  cases b with
  | completed | failed => cases a <;> first | rfl | cases h
  | _ => cases hb

section Retired

variable {s s' : Sys} {l : Label} {ls : List Label} {i : CallId} {id : WorkId} {r r' : Row}

/-- The update `c`, which call `i` of the control plane issues next, makes the row what it is. -/
structure Sys.Retires (m m' : Sys) (i : CallId) (env : Env) (cp : ControlPlane) (id : WorkId)
    (c : Change) (r : Row) : Prop where
  issues : ∃ now k ph, m.calls i = .live ⟨.process cp, .eff (.pool (.change c id now)) k, ph⟩
  moves : ∃ r₀ now, m.db.row id = some r₀ ∧ r₀.state = .running ∧ c.source = .running ∧
    c.apply env.chance.jsonb now r₀ = some r
  row : m'.db.row id = some r

/-- The update that retires a row is that of a `process_work` call. -/
theorem Sys.Reachable.retired_by_exec (hreach : s.Reachable planeClients) {env : Env}
    (h : s.step planeClients (.exec i env) = some s') {c : Change}
    (hi : (s.calls i).Updates c id) (hc : c.source = .running) (hr : s'.db.row id = some r')
    (hret : r'.state.retired = true) :
    s.db.row id = some r' ∨ ∃ cp c, s.Retires s' i env cp id c r' := by
  obtain ⟨op, β, e, k, ph, hj, -, rfl⟩ := step_exec h
  obtain ⟨hop, ha, -⟩ := hreach.lawful i _ hj
  rw [hj] at hi
  cases op with
  | submit new => exact hi.elim
  | change c₀ id₀ =>
    -- the operator only cancels and re-queues
    obtain ⟨-, rfl, -⟩ := hi
    cases c with
    | transition a b => cases hc; cases hop
    | _ => cases hop
  | process cp =>
    by_cases he : e.changes = true
    · cases e with
      | pool q =>
        cases q with
        | change c' id' now =>
          have hissues : ph.Issues c' id' := by
            cases ph with
            | owning st m k' => cases st <;> exact ha
            | _ => exact ha
          have hup : UpdateStep env s.db c' id'
              (env.reply s.db (s.db.exec none env.chance (.change c' id' now))).1
              (env.reply s.db (s.db.exec none env.chance (.change c' id' now))).2 :=
            updateStep_of env s.db hissues.valid
          obtain hsame | ⟨r₀, r₁, now', hr₀, hs, happ, hrow⟩ := hup.row
          · exact .inl ((hsame id).symm.trans hr)
          · have hrow' : (if id = id' then some r₁ else s.db.row id) = some r' :=
              (hrow id).symm.trans hr
            split at hrow'
            · next hk =>
              subst hk
              cases hrow'
              have hsource : c'.source = .running :=
                State.source_of_retired hissues.valid ((c'.apply_state happ).1 ▸ hret)
              exact .inr ⟨cp, c', ⟨now, k, ph, hj⟩,
                ⟨r₀, now', hr₀, hs.trans hsource, hsource, happ⟩, hr⟩
            · exact .inl hrow'
        | _ => cases he
      | _ => cases he
    · have hrow : (handle i e env s.world).2.db.row id = s.db.row id :=
        planeAllowed.row ha ((Bool.not_eq_true _).mp he) id
      exact .inl (hrow.symm.trans hr)

/-- A row is retired by the update of a `process_work` call. -/
theorem Sys.Reachable.retired_by (hreach : s.Reachable planeClients)
    (h : s.step planeClients l = some s') (hr : s'.db.row id = some r')
    (hret : r'.state.retired = true) : s.db.row id = some r' ∨
    ∃ i env cp c, l = .exec i env ∧ s.Retires s' i env cp id c r' := by
  cases hreach.rowStep h with
  | same hsame => exact .inl ((hsame id).symm.trans hr)
  | @insert i env new p ph k x hl hi hph fresh hrow =>
    by_cases hk : id = k
    · rw [hrow, if_pos hk] at hr
      cases hr
      exfalso
      cases ph with
      | queued id' m =>
        obtain ⟨-, jsonb, now, t, rfl⟩ := hph
        cases hret
      | merging id' c =>
        obtain ⟨-, jsonb, now, rfl⟩ := hph
        cases hret
      | _ => exact hph.elim
    · rw [hrow, if_neg hk] at hr
      exact .inl hr
  | @update i env c k x x' now hl hi hc hx hs happ hrow =>
    by_cases hk : id = k
    · subst hk
      rw [hrow, if_pos rfl] at hr
      cases hr
      subst hl
      have hsource := State.source_of_retired hc ((c.apply_state happ).1 ▸ hret)
      have hnow : s'.db.row id = some r' := by rw [hrow, if_pos rfl]
      obtain hbefore | ⟨cp, c', hretires⟩ := hreach.retired_by_exec h hi hsource hnow hret
      · exact .inl hbefore
      · exact .inr ⟨i, env, cp, c', rfl, hretires⟩
    · rw [hrow, if_neg hk] at hr
      exact .inl hr

/-- The outcome columns a result was stored in. -/
theorem FocusResult.stored {result : FocusResult} {jsonb : Json → Json} {now : Sql.Timestamp}
    (h : result.change.apply jsonb now r = some r') : match result with
      | .completed data _ => r'.state = .completed ∧ r'.outcomeData = some (jsonb data)
      | .failed phase error _ =>
        r'.state = .failed ∧ r'.outcomeError = some (phase ++ ": " ++ error) := by
  cases result <;> cases h <;> exact ⟨rfl, rfl⟩

/-- After the run `ls₁` call `i` retired the row with the result, and ran no hook from there to the
end of the run `ls`. -/
structure Sys.RetiredBy (ls ls₁ : List Label) (i : CallId) (cp : ControlPlane) (id : WorkId)
    (result : FocusResult) (r : Row) : Prop where
  step : ∃ env ls₂ m m', ls = ls₁ ++ .exec i env :: ls₂ ∧
    (system planeClients).Run Sys.initial ls₁ m ∧ m.step planeClients (.exec i env) = some m' ∧
    m.Retires m' i env cp id result.change r
  last : hookRuns (Sys.performed planeClients i ls) = hookRuns (Sys.performed planeClients i ls₁)

/-- A retired row, with the focus run it was retired with and the retirement in the transcript. -/
def Sys.ToldBy (ls ls₁ : List Label) (i : CallId) (cp : ControlPlane) (id : WorkId)
    (result : FocusResult) (r : Row) : Prop :=
  Sys.RetiredBy ls ls₁ i cp id result r ∧ Accounts cp id result (Sys.performed planeClients i ls₁) ∧
    ∃ x ∈ Sys.performed planeClients i ls, x.eff.retires = true

theorem Sys.RetiredBy.snoc {ls₁ : List Label} {cp : ControlPlane} {result : FocusResult}
    (h : Sys.RetiredBy ls ls₁ i cp id result r)
    (hruns : hookRuns (Sys.performed planeClients i (ls ++ [l])) =
      hookRuns (Sys.performed planeClients i ls)) :
    Sys.RetiredBy (ls ++ [l]) ls₁ i cp id result r := by
  obtain ⟨⟨env, ls₂, m, m', hls, hstep⟩, hlast⟩ := h
  refine ⟨⟨env, ls₂ ++ [l], m, m', ?_, hstep⟩, hruns.trans hlast⟩
  rw [hls, List.append_assoc, List.cons_append]

variable (hrun : (system planeClients).Run Sys.initial ls s)
  (h : s.step planeClients l = some s')

include hrun h

/-- After its retirement a call runs no hook. -/
theorem Sys.ToldBy.step {ls₁ : List Label} {cp : ControlPlane} {result : FocusResult}
    (ht : Sys.ToldBy ls ls₁ i cp id result r) : Sys.ToldBy (ls ++ [l]) ls₁ i cp id result r := by
  obtain ⟨hretired, hacc, x, hx, hretire⟩ := ht
  obtain ⟨hsame, -⟩ | ⟨env, op, β, e, k, ph, rfl, hi, -, hmore⟩ := Sys.performed_snoc hrun h i
  · exact ⟨hretired.snoc (by rw [hsame]), hacc, x, hsame ▸ hx, hretire⟩
  · have hquiet : e.runsHook = false := by
      cases e with
      | status command dir env' =>
        obtain ⟨cp', focus, faculty, -, hrunning, -⟩ := Sys.focus_of_hook hrun hi
        rw [hrunning.retires x hx] at hretire
        cases hretire
      | _ => rfl
    refine ⟨hretired.snoc ?_, hacc, x, ?_, hretire⟩
    · rw [hmore, hookRuns_append, hookRuns_eq_nil (List.forall_mem_singleton.mpr hquiet),
        List.append_nil]
    · rw [hmore]
      exact List.mem_append_left _ hx

/-- A row that is retired now is told of by the call that retired it. -/
theorem Sys.toldBy_of_retired (hr : s'.db.row id = some r) (hret : r.state.retired = true)
    (hnew : s.db.row id ≠ some r) :
    ∃ i cp result, Sys.ToldBy (ls ++ [l]) ls i cp id result r := by
  have hreach : s.Reachable planeClients := ⟨ls, hrun⟩
  obtain hold | ⟨i, env, cp, c, rfl, hretires⟩ := hreach.retired_by h hr hret
  · exact absurd hold hnew
  obtain ⟨now, k, ph, hi⟩ := hretires.issues
  obtain ⟨-, -, -, -, hc, -⟩ := hretires.moves
  obtain ⟨ha, -⟩ := Sys.heeding hrun hi
  obtain ⟨result, rfl, hacc⟩ := ha hc
  have hmore := Sys.performed_exec hrun h hi
  refine ⟨i, cp, result, ⟨⟨env, [], s, s', rfl, hrun, h, hretires⟩, ?_⟩, hacc, ?_⟩
  · rw [hmore, hookRuns_append]
    exact List.append_nil _
  · rw [hmore]
    exact ⟨_, List.mem_append_right _ (List.mem_singleton_self _), decide_eq_true hc⟩

end Retired

/-- Every retired row is told of by a call. -/
theorem Sys.told {s : Sys} {ls : List Label} (hrun : (system planeClients).Run Sys.initial ls s) :
    ∀ id r, s.db.row id = some r → r.state.retired = true →
      ∃ ls₁ i cp result, Sys.ToldBy ls ls₁ i cp id result r := by
  refine Lts.Run.snoc_induction (I := fun xs m => ∀ id r, m.db.row id = some r →
    r.state.retired = true → ∃ ls₁ i cp result, Sys.ToldBy xs ls₁ i cp id result r)
    (fun _ _ hr => by cases hr)
    (fun xs l m m' hxs ih (hstep : m.step planeClients l = some m') => ?_) hrun
  intro id r hr hret
  by_cases hold : m.db.row id = some r
  · obtain ⟨ls₁, i, cp, result, ht⟩ := ih id r hold hret
    exact ⟨ls₁, i, cp, result, ht.step hxs hstep⟩
  · exact ⟨xs, Sys.toldBy_of_retired hxs hstep hr hret hold⟩

/-- Every hook succeeded, and the data of the row is what was read, as the row holds it. -/
def Focus.Completes (jsonb : Json → Json) (focus : Focus) (faculty : FacultyMeta)
    (t : List (Event Eff)) (r : Row) : Prop :=
  focus.Succeeded (phases faculty) (hookRuns t) ∧
    ∃ data, r.outcomeData = some (jsonb data) ∧ focus.Read data t

/-- The error of the row is that of the first hook that failed, after which none ran, or that of
reading the outcome after all of them succeeded. -/
def Focus.Fails (focus : Focus) (faculty : FacultyMeta) (t : List (Event Eff)) (r : Row) : Prop :=
  ∃ phase error, r.outcomeError = some (phase ++ ": " ++ error) ∧
    ((∃ before hook after xs ys, phases faculty = before ++ hook :: after ∧ hook.1 = phase ∧
        hookRuns t = xs ++ ys ∧ focus.Succeeded before xs ∧ focus.Stopped t hook error ys) ∨
      focus.Succeeded (phases faculty) (hookRuns t) ∧ phase = "consolidate" ∧
        focus.Unread error t)

/-- A retired row was retired by the update of one `process_work` call, with the result of a focus
run for it; what the call had performed before tells its state and outcome, and it ran no hook
after. -/
theorem retired_rows_tell_their_focus {s : Sys} {ls : List Label} {jsonb : Json → Json}
    (hrun : (system planeClients).Run Sys.initial ls s) (hserved : ServedBy jsonb ls) {id : WorkId}
    {r : Row} (hr : s.db.row id = some r) (hret : r.state.retired = true) :
    ∃ (ls₁ : List Label) (i : CallId) (cp : ControlPlane) (result : FocusResult) (focus : Focus)
      (faculty : FacultyMeta),
      Label.start i (.process cp) ∈ ls ∧ Sys.RetiredBy ls ls₁ i cp id result r ∧
      focus.workItem.id = id ∧ focus.workItem.faculty = r.faculty ∧
      cp.registry r.faculty = some faculty ∧ (r.state = .completed →
        focus.Completes jsonb faculty (Sys.performed planeClients i ls₁) r) ∧
      (r.state = .failed → focus.Fails faculty (Sys.performed planeClients i ls₁) r) := by
  obtain ⟨ls₁, i, cp, result, hretired, hacc, -⟩ := Sys.told hrun id r hr hret
  obtain ⟨env, ls₂, m, m', hls, hrun₁, -, hretires⟩ := hretired.step
  obtain ⟨now, k, ph, hi⟩ := hretires.issues
  obtain ⟨r₀, now', hr₀, -, -, hstored⟩ := hretires.moves
  rw [hserved i env (hls ▸ List.mem_append_right _ List.mem_cons_self)] at hstored
  have hstart : Label.start i (.process cp) ∈ ls :=
    hls ▸ List.mem_append_left _ (Sys.start_mem hrun₁ hi)
  have hcolumns := FocusResult.stored hstored
  obtain ⟨before, run, after, focus, faculty, ht, rfl, hready, hyields, hafter⟩ := hacc
  obtain ⟨hplain, row, hread, hitem⟩ := hready.fetched
  -- the row the call read is the retired one
  have hread' : (⟨.pool (.selectById focus.workItem.id), .ok (some row)⟩ : Event Eff) ∈
      Sys.performed planeClients i ls₁ := by
    rw [ht]
    exact List.mem_append_left _ (List.mem_append_left _ hread)
  obtain ⟨r₁, hr₁, hsame⟩ : ∃ r₁, m.db.row focus.workItem.id = some r₁ ∧ r₁.faculty = row.faculty :=
    Sys.lasting hrun₁ (fun _ _ hev hfac => hev.faculty.trans hfac) (fun _ _ _ => rfl) hread'
  have hfaculty : focus.workItem.faculty = r.faculty := by
    cases hr₀.symm.trans hr₁
    rw [(Change.apply_identity _ hstored).2.1, hsame]
    exact (Row.of_read hitem).2.1
  have hruns : hookRuns (Sys.performed planeClients i ls₁) = hookRuns run := by
    rw [ht, hookRuns_append, hookRuns_append, hplain.hookRuns_eq_nil, hafter, List.append_nil,
      List.nil_append]
  have hsub : run ⊆ Sys.performed planeClients i ls₁ := by
    rw [ht]
    exact fun x hx => List.mem_append_left _ (List.mem_append_right _ hx)
  refine ⟨ls₁, i, cp, result, focus, faculty, hstart, hretired, rfl, hfaculty,
    hfaculty ▸ hready.registered, ?_⟩
  rw [Focus.Completes, Focus.Fails, hruns]
  cases result with
  | completed data ms =>
    obtain ⟨hstate, hdata⟩ := hcolumns
    obtain ⟨hsucceeded, hread⟩ := Focus.run_completed hyields
    refine ⟨fun _ => ⟨hsucceeded, data, hdata, hread.mono hsub⟩, fun hfailed => ?_⟩
    rw [hstate] at hfailed
    cases hfailed
  | failed phase error ms =>
    obtain ⟨hstate, herror⟩ := hcolumns
    refine ⟨fun hcompleted => ?_, fun _ => ⟨phase, error, herror, ?_⟩⟩
    · rw [hstate] at hcompleted
      cases hcompleted
    · refine (Focus.run_failed hyields).imp ?_ fun ⟨hall, hphase, hwhy⟩ =>
        ⟨hall, hphase, hwhy.mono hsub⟩
      rintro ⟨before, hook, after, xs, ys, hhooks, hphase, hxs, hbefore, hstop⟩
      exact ⟨before, hook, after, xs, ys, hhooks, hphase, hxs, hbefore, hstop.mono hsub⟩

theorem servedBy_retiredRun : ServedBy id retiredRun := by
  unfold retiredRun
  rw [servedBy_append, servedBy_append]
  exact ⟨⟨servedBy_focusedRun, servedBy_replicate 12 rfl⟩,
    .cons (fun _ _ => Label.noConfusion) (servedBy_nil id)⟩

theorem retired_rows_tell_their_focus_completed :
    ∃ (r : Row) (ls₁ : List Label) (i : CallId) (cp : ControlPlane) (result : FocusResult)
      (focus : Focus) (faculty : FacultyMeta),
      ((system planeClients).replayed Sys.initial retiredRun).db.row (.ofNat 1) = some r ∧
      r.state = .completed ∧ Label.start i (.process cp) ∈ retiredRun ∧
      Sys.RetiredBy retiredRun ls₁ i cp (.ofNat 1) result r ∧
      focus.Completes id faculty (Sys.performed planeClients i ls₁) r := by
  have hrow : ∃ r, ((system planeClients).replayed Sys.initial retiredRun).db.row (.ofNat 1) =
      some r ∧ r.state = .completed := ⟨_, rfl, rfl⟩
  obtain ⟨r, hr, hstate⟩ := hrow
  have hret : r.state.retired = true := by
    rw [hstate]
    rfl
  obtain ⟨ls₁, i, cp, result, focus, faculty, hstart, hretired, -, -, -, hcompletes, -⟩ :=
    retired_rows_tell_their_focus (Lts.run_replayed rfl) servedBy_retiredRun hr hret
  exact ⟨r, ls₁, i, cp, result, focus, faculty, hr, hstate, hstart, hretired, hcompletes hstate⟩

end Animus
