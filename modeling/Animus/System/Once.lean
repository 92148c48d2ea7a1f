import Animus.System.History

/-!
# Work once

Control planes, submitters and an operator who cancels and re-queues: a work
item has at most one owner, the owner retires only the attempt it started, and
every focus run is paid for by an attempt.

## Main definitions

- `planeClients`: the operations in use
- `Slot.Owns`: a `process_work` call between its claim and its retirement
- `Sys.OnceInv`: what ties an owner to its row

## Main results

- `work_once`
-/

namespace Animus

open Effect

/-- Submitters, control planes, and an operator who cancels and re-queues. -/
def planeClients : Op → Bool
  | .submit _ => true
  | .process _ => true
  | .change (.transition .queued .dead) _ => true
  | .change (.transition .failed .queued) _ => true
  | .change (.transition .failed .dead) _ => true
  | .change _ _ => false

/-- The call is between its claim of an item and its retirement of it. -/
def Slot.Owns (x : Slot) (st : Stage) (id : WorkId) : Prop :=
  ∃ cp p m, x = .live ⟨.process cp, p, .owning st m id⟩

/-- The state the row of an owned item is in. -/
def Stage.rowState : Stage → State
  | .claimed => .claimed
  | _ => .running

/-- The attempts of an item, none before it exists. -/
def Sys.attempts (s : Sys) (id : WorkId) : ℤ := ((s.db.row id).map Row.attempts).getD 0

structure Sys.OnceInv (s : Sys) : Prop where
  row : ∀ i st id, (s.calls i).Owns st id → ∃ r, s.db.row id = some r ∧ r.state = st.rowState
  runner : ∀ i st id, (s.calls i).Owns st id → st ≠ .claimed → s.runner id = some i
  unique : ∀ i j st st' id, (s.calls i).Owns st id → (s.calls j).Owns st' id → i = j
  started : ∀ id, (s.world.started id : ℤ) ≤ s.attempts id
  /-- A run that is about to start is paid for. -/
  paid : ∀ i st id, (s.calls i).Owns st id → st = .running ∨ st = .counted →
    (s.world.started id : ℤ) < s.attempts id

section Steps

variable {clients : Op → Bool} {s s' : Sys} {l : Label}

theorem Slot.Owns.inj {x : Slot} {st st' : Stage} {id id' : WorkId} (h : x.Owns st id)
    (h' : x.Owns st' id') : st = st' ∧ id = id' := by
  obtain ⟨cp, p, m, h⟩ := h
  obtain ⟨cp', p', m', h'⟩ := h'
  cases h.symm.trans h'
  exact ⟨rfl, rfl⟩

theorem becameRunning_eq_false {db db' : Db} {id : WorkId} (h : db'.row id = db.row id) :
    becameRunning db db' id = false := by
  rw [becameRunning, h]
  simp

/-- Only a step that moves a row to `running` sets who runs it. -/
theorem SysStep.runner_eq (h : SysStep clients s l s') (id : WorkId) :
    (becameRunning s.db s'.db id = false ∧ s'.runner id = s.runner id) ∨
    ∃ i env, l = .exec i env ∧ becameRunning s.db s'.db id = true ∧ s'.runner id = some i := by
  have move : ∀ {i env c w}, l = .exec i env → s' = s.move i c w →
      (becameRunning s.db s'.db id = false ∧ s'.runner id = s.runner id) ∨
      ∃ i env, l = .exec i env ∧ becameRunning s.db s'.db id = true ∧ s'.runner id = some i := by
    rintro i env c w hl rfl
    by_cases hb : becameRunning s.db w.db id = true
    · exact .inr ⟨i, env, hl, hb, if_pos hb⟩
    · exact .inl ⟨(Bool.not_eq_true _).mp hb, if_neg hb⟩
  cases h with
  | start hi hop => exact .inl ⟨becameRunning_eq_false rfl, rfl⟩
  | submit hi h => exact move rfl rfl
  | change hi h => exact move rfl rfl
  | process hi h => exact move rfl rfl
  | leave hi hl =>
    refine .inl ⟨becameRunning_eq_false ?_, rfl⟩
    rw [Sys.leave_db, Db.row, Db.rowOf_rollback, if_neg (by simp)]
    rfl
  | expire m => exact .inl ⟨becameRunning_eq_false rfl, rfl⟩

theorem SysStep.runner_same (h : SysStep clients s l s') {id : WorkId}
    (hrow : s'.db.row id = s.db.row id) : s'.runner id = s.runner id := by
  obtain ⟨-, hsame⟩ | ⟨i, env, -, hb, -⟩ := h.runner_eq id
  · exact hsame
  · rw [becameRunning_eq_false hrow] at hb
    cases hb

/-- A focus run is counted by its owner, and the rows stay. -/
theorem SysStep.started_eq (h : SysStep clients s l s') (id : WorkId) :
    s'.world.started id = s.world.started id ∨
    ∃ i env, l = .exec i env ∧ (s.calls i).Owns .counted id ∧ (s'.calls i).Owns .focused id ∧
      s'.world.started id = s.world.started id + 1 ∧ s'.db = s.db := by
  cases h with
  | @process i env cp p p' ph ph' w' hi h =>
    cases h with
    | focus m k =>
      by_cases hk : id = k
      · subst hk
        refine .inr ⟨i, env, rfl, ⟨cp, p, m, hi⟩, ⟨cp, p', m, Sys.move_calls_self ..⟩, ?_, rfl⟩
        rw [Sys.move_world]
        exact Function.update_self ..
      · refine .inl ?_
        rw [Sys.move_world]
        exact Function.update_of_ne hk ..
    | _ => exact .inl rfl
  | _ => exact .inl rfl

/-- The update that makes a call own its item at a stage moved the row there. -/
theorem PlanePhase.afterUpdate_owning {ph : PlanePhase} {c : Change} {id k : WorkId} {st : Stage}
    {m : ℤ} {a : Except DbError ℕ} (hph : ph.Issues c k)
    (h : ph.afterUpdate c a = .owning st m id) :
    k = id ∧ c.target = st.rowState ∧ (∃ n, a = .ok n ∧ n ≠ 0) ∧
      ((st = .claimed ∧ c = .transition .queued .claimed) ∨
        (st = .running ∧ c = .transition .claimed .running ∧ ph = .owning .claimed m id)) := by
  cases ph with
  | fetched m' id' =>
    obtain ⟨rfl, rfl⟩ := hph
    cases a with
    | error d => cases h
    | ok n =>
      by_cases hn : n = 0
      · simp [PlanePhase.afterUpdate, hn] at h
      · simp only [PlanePhase.afterUpdate, hn, if_false] at h
        cases h
        exact ⟨rfl, rfl, ⟨n, rfl, hn⟩, .inl ⟨rfl, rfl⟩⟩
  | owning st' m' id' =>
    cases st' with
    | claimed =>
      obtain ⟨rfl, rfl⟩ := hph
      cases a with
      | error d => cases h
      | ok n =>
        by_cases hn : n = 0
        · simp [PlanePhase.afterUpdate, hn] at h
        · simp only [PlanePhase.afterUpdate, hn, if_false] at h
          cases h
          exact ⟨rfl, rfl, ⟨n, rfl, hn⟩, .inr ⟨rfl, rfl, rfl⟩⟩
    | ran =>
      obtain ⟨⟨o, rfl⟩ | ⟨e, ms, rfl⟩, rfl⟩ := hph
      · cases a with
        | error d => cases h
        | ok n => by_cases hn : n = 0 <;> simp [PlanePhase.afterUpdate, hn] at h
      · cases a <;> cases h
    | _ => exact hph.elim
  | _ => exact hph.elim

/-- How a call came to own an item: it did before, it claimed or started it by an update of its
row, or it went on with its focus. -/
theorem SysStep.owns (h : SysStep clients s l s') {j : CallId} {st : Stage} {id : WorkId}
    (hj : (s'.calls j).Owns st id) :
    ((s.calls j).Owns st id ∧ ((∀ env, l ≠ .exec j env) ∨ s'.db = s.db)) ∨
    (∃ env c r r' now, l = .exec j env ∧ (s.calls j).Updates c id ∧ c.target = st.rowState ∧
      ((st = .claimed ∧ c.source = .queued) ∨
        (st = .running ∧ c.source = .claimed ∧ (s.calls j).Owns .claimed id)) ∧
      s.db.row id = some r ∧ r.state = c.source ∧ c.apply env.chance.jsonb now r = some r' ∧
      ∀ k, s'.db.row k = if k = id then some r' else s.db.row k) ∨
    (∃ env st₀, l = .exec j env ∧ (s.calls j).Owns st₀ id ∧ s'.db = s.db ∧
      ((st₀ = .running ∧ st = .counted) ∨
        (st₀ = .counted ∧ st = .focused ∧ s'.world.started id = s.world.started id + 1) ∨
        (st₀ = .focused ∧ st = .ran))) := by
  obtain ⟨cp, p', m, hj⟩ := hj
  obtain ⟨hj, hl⟩ | ⟨-, hidle⟩ | ⟨env, p, ph, hl, hj₀, hstep⟩ := h.processing hj
  · exact .inl ⟨⟨cp, p', m, hj⟩, .inl hl⟩
  · cases hidle
  · generalize hph' : PlanePhase.owning st m id = ph' at hstep
    generalize hw : s'.world = w' at hstep
    have hdb : s'.db = w'.db := congrArg World.db hw
    rw [hdb]
    cases hstep with
    | passive ph dirs => exact .inl ⟨⟨cp, p, m, hph' ▸ hj₀⟩, .inr rfl⟩
    | read hmem htxn hhid hland =>
      subst hph'
      obtain hread | ⟨-, hclosed⟩ := hland
      · obtain hafter | ⟨m', id', hafter⟩ := PlanePhase.afterRead_cases _ <;>
          cases hread.trans hafter
      · cases hclosed
    | unread why => cases hph'
    | fetch hr => split at hph' <;> cases hph'
    | unfetched why => cases hph'
    | @update ph c k a db' hph hup =>
      obtain ⟨rfl, htarget, ⟨n, hn, hn0⟩, hst⟩ := PlanePhase.afterUpdate_owning hph hph'.symm
      obtain ⟨r, r', now, hr, hs, happ, hrow⟩ := hup.of_ok hn hn0
      refine .inr (.inl ⟨env, c, r, r', now, hl, by rw [hj₀]; exact hph, htarget, ?_, hr, hs, happ,
        hrow⟩)
      obtain ⟨rfl, rfl⟩ | ⟨rfl, rfl, rfl⟩ := hst
      · exact .inl ⟨rfl, rfl⟩
      · exact .inr ⟨rfl, rfl, cp, p, m, hj₀⟩
    | count m' k =>
      cases hph'
      exact .inr (.inr ⟨env, .running, hl, ⟨cp, p, m, hj₀⟩, rfl, .inl ⟨rfl, rfl⟩⟩)
    | focus m' k =>
      cases hph'
      exact .inr (.inr ⟨env, .counted, hl, ⟨cp, p, m, hj₀⟩, rfl,
        .inr (.inl ⟨rfl, rfl, Function.update_self ..⟩)⟩)
    | uncount m' k =>
      cases hph'
      exact .inr (.inr ⟨env, .focused, hl, ⟨cp, p, m, hj₀⟩, rfl, .inr (.inr ⟨rfl, rfl⟩)⟩)
    | archive m' k => cases hph'
    | unarchived m' k why => cases hph'

/-- What an operator issues starts from `queued` or `failed`. -/
theorem operator_source {c : Change} {id : WorkId} (h : planeClients (.change c id) = true) :
    c.source = .queued ∨ c.source = .failed := by
  cases c with
  | transition a b => cases a <;> cases b <;> first | exact absurd h Bool.false_ne_true | decide
  | complete o => exact absurd h Bool.false_ne_true
  | fail e ms => exact absurd h Bool.false_ne_true

/-- An update of an owned row is its owner's. -/
theorem Sys.OnceInv.updater (h : s.OnceInv) (hs : s.Lawful planeClients) {i j : CallId} {st : Stage}
    {id : WorkId} (hj : (s.calls j).Owns st id) {c : Change} (hi : (s.calls i).Updates c id)
    {r : Row} (hr : s.db.row id = some r) (hsrc : r.state = c.source) : i = j := by
  obtain ⟨r', hr', hstate⟩ := h.row j st id hj
  rw [hr] at hr'
  cases hr'
  rw [hsrc] at hstate
  cases hslot : s.calls i with
  | idle => rw [hslot] at hi; exact hi.elim
  | ended => rw [hslot] at hi; exact hi.elim
  | live x =>
    rw [hslot] at hi
    obtain ⟨op, p, ph⟩ := x
    cases op with
    | submit new => exact hi.elim
    -- operators move queued and failed rows only, and an owned one is neither
    | change c' id' =>
      obtain ⟨-, rfl, rfl⟩ := hi
      obtain hq | hf := operator_source (hs i _ hslot).1
      · rw [hq] at hstate
        cases st <;> cases hstate
      · rw [hf] at hstate
        cases st <;> cases hstate
    -- a claim needs a queued row, and any other update of a plane is the owner's
    | process cp =>
      cases ph with
      | fetched m id' =>
        obtain ⟨rfl, rfl⟩ := hi
        cases st <;> cases hstate
      | owning st' m id' =>
        have hid : id' = id := by
          cases st' with
          | claimed => exact hi.2.symm
          | ran => exact hi.2.symm
          | _ => exact hi.elim
        subst hid
        exact h.unique i j st' st id' ⟨cp, p, m, hslot⟩ hj
      | _ => exact hi.elim

/-- A step of another call leaves the row and the runner of an owned item alone. -/
theorem Sys.OnceInv.row_of_owned (h : s.OnceInv) (hs : s.Lawful planeClients)
    (hstep : SysStep planeClients s l s') (htx : s.TxInv) {j : CallId} {st : Stage} {id : WorkId}
    (hj : (s.calls j).Owns st id) (hl : ∀ env, l ≠ .exec j env) :
    s'.db.row id = s.db.row id := by
  cases rowStep_of hstep htx with
  | same hsame => exact hsame id
  | @insert i env new p ph k x hl' hi hph fresh hrow =>
    obtain ⟨r, hr, -⟩ := h.row j st id hj
    rw [hrow, if_neg]
    rintro rfl
    rw [fresh] at hr
    cases hr
  | @update i env c k r r' now hl' hi hc hr hsrc happ hrow =>
    rw [hrow, if_neg]
    rintro rfl
    obtain rfl := h.updater hs hj hi hr hsrc
    exact hl env hl'

theorem Sys.onceInv_initial : Sys.initial.OnceInv where
  row i st id h := by obtain ⟨cp, p, m, h⟩ := h; cases h
  runner i st id h := by obtain ⟨cp, p, m, h⟩ := h; cases h
  unique i j st st' id h := by obtain ⟨cp, p, m, h⟩ := h; cases h
  started id := le_refl _
  paid i st id h := by obtain ⟨cp, p, m, h⟩ := h; cases h

/-- The attempts of an item never decrease. -/
theorem RowStep.attempts_le (h : RowStep s l s') (id : WorkId) :
    s.attempts id ≤ s'.attempts id := by
  unfold Sys.attempts
  cases hr : s.db.row id with
  | none =>
    cases hr' : s'.db.row id with
    | none => exact le_refl _
    | some r' => simp [(h.birth hr hr').2]
  | some r =>
    obtain ⟨r', hr', hedge⟩ := h.edge hr
    rw [hr']
    obtain ⟨-, hatt⟩ | ⟨-, hatt⟩ := hedge
    · simp [hatt]
    · simp only [Option.map_some, Option.getD_some, hatt]
      split <;> omega

/-- An owner owned its item before, or has just claimed it while it was queued. -/
theorem SysStep.owned_before (h : SysStep clients s l s') {j : CallId} {st : Stage} {id : WorkId}
    (hj : (s'.calls j).Owns st id) : (∃ st₀, (s.calls j).Owns st₀ id) ∨
      ∃ env r, l = .exec j env ∧ s.db.row id = some r ∧ r.state = .queued := by
  obtain ⟨hj, -⟩ | ⟨env, c, r, r', now, hl, -, -, hst, hr, hsrc, -⟩ | ⟨env, st₀, -, hj, -⟩ :=
    h.owns hj
  · exact .inl ⟨st, hj⟩
  · obtain ⟨-, hq⟩ | ⟨-, -, hj⟩ := hst
    · exact .inr ⟨env, r, hl, hr, hsrc.trans hq⟩
    · exact .inl ⟨_, hj⟩
  · exact .inl ⟨st₀, hj⟩

theorem Sys.OnceInv.not_queued (h : s.OnceInv) {j : CallId} {st : Stage} {id : WorkId}
    (hj : (s.calls j).Owns st id) {r : Row} (hr : s.db.row id = some r) : r.state ≠ .queued := by
  obtain ⟨r', hr', hstate⟩ := h.row j st id hj
  rw [hr] at hr'
  cases hr'
  rw [hstate]
  cases st <;> decide

/-- The focus run a step starts is that of an owner in phase `counted`; at any other stage the
count of an owned item stays. -/
theorem Sys.OnceInv.started_of_owned (h : s.OnceInv) (hstep : SysStep clients s l s') {j : CallId}
    {st : Stage} {id : WorkId} (hj : (s.calls j).Owns st id) (hst : st ≠ .counted) :
    s'.world.started id = s.world.started id := by
  obtain hsame | ⟨i, env, -, hi, -⟩ := hstep.started_eq id
  · exact hsame
  · obtain rfl := h.unique i j _ _ id hi hj
    exact absurd (hj.inj hi).1 hst

section Preserved

variable (hstep : SysStep planeClients s l s') (hs : s.Lawful planeClients) (htx : s.TxInv)
  (h : s.OnceInv)

include hstep hs htx h

/-- The row of an owned item changes by an update of its owner only. -/
theorem Sys.OnceInv.row_kept {j : CallId} {st : Stage} {id : WorkId} (hj : (s.calls j).Owns st id)
    (hl : (∀ env, l ≠ .exec j env) ∨ s'.db = s.db) : s'.db.row id = s.db.row id := by
  obtain hl | hdb := hl
  · exact h.row_of_owned hs hstep htx hj hl
  · rw [hdb]

theorem Sys.OnceInv.row_step (j : CallId) (st : Stage) (id : WorkId)
    (hj : (s'.calls j).Owns st id) : ∃ r, s'.db.row id = some r ∧ r.state = st.rowState := by
  obtain ⟨hj, hl⟩ | ⟨env, c, r, r', now, -, -, htarget, -, -, -, happ, hrow'⟩ |
    ⟨env, st₀, -, hj, hdb, hst⟩ := hstep.owns hj
  · rw [h.row_kept hstep hs htx hj hl]
    exact h.row j st id hj
  · exact ⟨r', by rw [hrow', if_pos rfl], (c.apply_state happ).1.trans htarget⟩
  · -- the stages from `running` to `ran` are one state of the row
    rw [hdb]
    obtain ⟨r, hr, hstate⟩ := h.row j st₀ id hj
    refine ⟨r, hr, hstate.trans ?_⟩
    obtain ⟨rfl, rfl⟩ | ⟨rfl, rfl, -⟩ | ⟨rfl, rfl⟩ := hst <;> rfl

theorem Sys.OnceInv.runner_step (j : CallId) (st : Stage) (id : WorkId)
    (hj : (s'.calls j).Owns st id) (hne : st ≠ .claimed) : s'.runner id = some j := by
  obtain ⟨hj, hl⟩ | ⟨env, c, r, r', now, hl, -, htarget, hst, hr, hsrc, happ, hrow'⟩ |
    ⟨env, st₀, -, hj, hdb, hst⟩ := hstep.owns hj
  · rw [hstep.runner_same (h.row_kept hstep hs htx hj hl)]
    exact h.runner j st id hj hne
  · obtain ⟨rfl, -⟩ | ⟨rfl, hc, -⟩ := hst
    · exact absurd rfl hne
    · obtain ⟨hb, -⟩ | ⟨i, env', hl', -, hrun⟩ := hstep.runner_eq id
      · rw [becameRunning, hrow', if_pos rfl, hr, Option.map_some, Option.map_some, hsrc, hc,
          (c.apply_state happ).1, htarget] at hb
        exact absurd hb (by decide)
      · cases hl.symm.trans hl'
        exact hrun
  · rw [hstep.runner_same (by rw [hdb])]
    refine h.runner j st₀ id hj ?_
    obtain ⟨rfl, -⟩ | ⟨rfl, -⟩ | ⟨rfl, -⟩ := hst <;> decide

omit hs htx in
/-- An owner that is new found the row queued, so nobody else owned it. -/
theorem Sys.OnceInv.unique_step (i j : CallId) (st st' : Stage) (id : WorkId)
    (hi : (s'.calls i).Owns st id) (hj : (s'.calls j).Owns st' id) : i = j := by
  obtain ⟨st₀, hi⟩ | ⟨env, r, hl, hr, hq⟩ := hstep.owned_before hi
  · obtain ⟨st₁, hj⟩ | ⟨env, r, -, hr, hq⟩ := hstep.owned_before hj
    · exact h.unique i j st₀ st₁ id hi hj
    · exact absurd hq (h.not_queued hi hr)
  · obtain ⟨st₁, hj⟩ | ⟨env', r', hl', -, -⟩ := hstep.owned_before hj
    · exact absurd hq (h.not_queued hj hr)
    · cases hl.symm.trans hl'
      rfl

omit hs in
theorem Sys.OnceInv.started_step (id : WorkId) :
    (s'.world.started id : ℤ) ≤ s'.attempts id := by
  obtain hsame | ⟨i, env, -, hi, -, hplus, hdb⟩ := hstep.started_eq id
  · rw [hsame]
    exact (h.started id).trans ((rowStep_of hstep htx).attempts_le id)
  · have hpaid := h.paid i .counted id hi (.inr rfl)
    have hatt : s'.attempts id = s.attempts id := by rw [Sys.attempts, hdb]; rfl
    rw [hplus, hatt]
    omega

omit hs in
theorem Sys.OnceInv.paid_step (j : CallId) (st : Stage) (id : WorkId)
    (hj : (s'.calls j).Owns st id) (hst : st = .running ∨ st = .counted) :
    (s'.world.started id : ℤ) < s'.attempts id := by
  have hle := (rowStep_of hstep htx).attempts_le id
  obtain ⟨hj₀, -⟩ | ⟨env, c, r, r', now, -, -, htarget, hst', hr, -, happ, hrow'⟩ |
    ⟨env, st₀, -, hj₀, -, hst'⟩ := hstep.owns hj
  · have hpaid := h.paid j st id hj₀ hst
    obtain hsame | ⟨i, env, -, hi, hi', -⟩ := hstep.started_eq id
    · rw [hsame]
      omega
    · obtain rfl := h.unique i j _ _ id hi hj₀
      obtain rfl := (hj.inj hi').1
      obtain hst | hst := hst <;> cases hst
  · obtain ⟨rfl, -⟩ | ⟨rfl, hc, hj₀⟩ := hst'
    · obtain hst | hst := hst <;> cases hst
    · -- the update to `running` adds the attempt that pays for the run
      rw [h.started_of_owned hstep hj₀ (by decide)]
      have hatt : s'.attempts id = s.attempts id + 1 := by
        rw [Sys.attempts, Sys.attempts, hrow', if_pos rfl, hr]
        simp only [Option.map_some, Option.getD_some, (c.apply_state happ).2.2, htarget]
        rfl
      have := h.started id
      omega
  · obtain ⟨rfl, rfl⟩ | ⟨rfl, rfl, -⟩ | ⟨rfl, rfl⟩ := hst'
    · rw [h.started_of_owned hstep hj₀ (by decide)]
      have := h.paid j .running id hj₀ (.inl rfl)
      omega
    · obtain hst | hst := hst <;> cases hst
    · obtain hst | hst := hst <;> cases hst

end Preserved

theorem SysStep.onceInv (hstep : SysStep planeClients s l s') (hs : s.Lawful planeClients)
    (htx : s.TxInv) (h : s.OnceInv) : s'.OnceInv where
  row := h.row_step hstep hs htx
  runner := h.runner_step hstep hs htx
  unique := h.unique_step hstep
  started := h.started_step hstep htx
  paid := h.paid_step hstep htx

theorem Sys.Reachable.onceInv (h : s.Reachable planeClients) : s.OnceInv :=
  (Lts.reachable_invariant (I := fun s => s.Lawful planeClients ∧ s.TxInv ∧ s.OnceInv)
    (fun _ _ _ hs hstep =>
      have hsys := sysStep_of hs.1 hs.2.1 hstep
      ⟨Sys.lawful_step hs.1 hstep, hsys.txInv hs.2.1, hsys.onceInv hs.1 hs.2.1 hs.2.2⟩) h
    ⟨Sys.lawful_initial, Sys.txInv_initial, Sys.onceInv_initial⟩).2.2

/-- An item whose row is terminal starts no focus run. -/
theorem Sys.OnceInv.started_of_terminal (h : s.OnceInv) (hstep : SysStep clients s l s')
    {id : WorkId} {r : Row} (hr : s.db.row id = some r) (hterm : r.state.isTerminal = true) :
    s'.world.started id = s.world.started id := by
  obtain hsame | ⟨i, env, -, hi, -⟩ := hstep.started_eq id
  · exact hsame
  · obtain ⟨r', hr', hstate⟩ := h.row i .counted id hi
    rw [hr] at hr'
    cases hr'
    rw [hstate] at hterm
    cases hterm

theorem Sys.Reachable.started_run (h : s.Reachable planeClients) {ls : List Label}
    (hrun : (system planeClients).Run s ls s') {id : WorkId} {r : Row}
    (hr : s.db.row id = some r) (hterm : r.state.isTerminal = true) :
    s'.world.started id = s.world.started id := by
  refine (Lts.run_invariant (I := fun m => m.Reachable planeClients ∧ m.db.row id = some r ∧
    m.world.started id = s.world.started id) (fun m l m' hm hstep => ?_) hrun ⟨h, hr, rfl⟩).2.2
  obtain ⟨hm, hrow, hstarted⟩ := hm
  have hone : (system planeClients).Run m [l] m' := .head hstep (.refl m')
  exact ⟨hm.next hstep, hm.run_row hone hrow hterm,
    (hm.onceInv.started_of_terminal (sysStep_of hm.inv.1 hm.inv.2 hstep) hrow hterm).trans hstarted⟩

/-- A retirement changes the row of its own item, on the attempt the call started. -/
theorem Sys.Reachable.retires_own (h : s.Reachable planeClients) {i : CallId} {env : Env}
    {id k : WorkId} (hstep : s.step planeClients (.exec i env) = some s')
    (hi : (s.calls i).Owns .ran id) (hne : s'.db.row k ≠ s.db.row k) :
    k = id ∧ s.runner id = some i := by
  refine ⟨?_, h.onceInv.runner i .ran id hi (by decide)⟩
  obtain ⟨cp, p, m, hi⟩ := hi
  cases h.rowStep hstep with
  | same hsame => exact absurd (hsame k) hne
  | insert hl hi' =>
    cases hl
    cases hi.symm.trans hi'
  | @update _ env' c id' r r' now hl hi' hc hr hs happ hrow =>
    cases hl
    rw [hi] at hi'
    obtain ⟨-, rfl⟩ := hi'
    by_contra hk
    exact hne (by rw [hrow, if_neg hk])

/-- Work once, for any number of control planes, submitters and the operator: an item has at most
one owner, and while it has one its row is claimed or running; a retirement takes effect on the
attempt its call started; the attempts bound the focus runs; and none starts once the row is
terminal. -/
theorem work_once (h : s.Reachable planeClients) :
    (∀ i j st st' id, (s.calls i).Owns st id → (s.calls j).Owns st' id → i = j) ∧
    (∀ i st id, (s.calls i).Owns st id →
      ∃ r, s.db.row id = some r ∧ (r.state = .claimed ∨ r.state = .running)) ∧
    (∀ i env s' id k, s.step planeClients (.exec i env) = some s' → (s.calls i).Owns .ran id →
      s'.db.row k ≠ s.db.row k → k = id ∧ s.runner id = some i) ∧
    (∀ id, (s.world.started id : ℤ) ≤ s.attempts id) ∧
    ∀ id r, s.db.row id = some r → r.state.isTerminal = true → ∀ ls s',
      (system planeClients).Run s ls s' → s'.world.started id = s.world.started id := by
  have hinv := h.onceInv
  refine ⟨hinv.unique, ?_, fun i env s' id k => h.retires_own, hinv.started,
    fun id r hr hterm ls s' hrun => h.started_run hrun hr hterm⟩
  intro i st id hi
  obtain ⟨r, hr, hstate⟩ := hinv.row i st id hi
  refine ⟨r, hr, ?_⟩
  cases st with
  | claimed => exact .inl hstate
  | _ => exact .inr hstate

end Steps

/-! ### A sample -/

def sampleFaculty : FacultyMeta := { name := "social", engage := "/bin/engage" }

def samplePlane : ControlPlane where
  plane := 0
  registry faculty := if faculty = "social" then some sampleFaculty else none
  maxConcurrent := 1

/-- A submission, and a control plane that has started the focus run of its item. -/
def focusedRun : List Label :=
  Label.alone 0 (.submit sampleItem) { uuid := .ofNat 1 } 9 ++
    .start 1 (.process samplePlane) :: List.replicate 17 (.exec 1 { uuid := .ofNat 2 })

theorem servedBy_focusedRun : ServedBy id focusedRun := by
  unfold focusedRun
  rw [servedBy_append]
  exact ⟨servedBy_alone 0 _ 9 rfl,
    .cons (fun _ _ => Label.noConfusion) (servedBy_replicate 17 rfl)⟩

theorem work_once_focused :
    ((system planeClients).replayed Sys.initial focusedRun).world.started (.ofNat 1) = 1 ∧
    (((system planeClients).replayed Sys.initial focusedRun).world.started (.ofNat 1) : ℤ) ≤
      ((system planeClients).replayed Sys.initial focusedRun).attempts (.ofNat 1) :=
  ⟨rfl, (work_once ⟨focusedRun, Lts.run_replayed rfl⟩).2.2.2.1 (.ofNat 1)⟩

end Animus
