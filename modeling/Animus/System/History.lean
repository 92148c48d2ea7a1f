import Animus.System.WorkTable

/-!
# Histories of rows

The states a committed row goes through, and which call causes each change.

## Main definitions

- `Sys.history`: the committed states of a row along a run
- `Slot.Causes`: the change of a row a call is about to make
- `storeClients`: clients that use the store operations directly

## Main results

- `histories_are_lifecycle_paths`
-/

namespace Animus

open Effect

/-- The committed state of a row. -/
def Sys.rowState (id : WorkId) (s : Sys) : Option State := (s.db.row id).map Row.state

/-- The committed states of a row along a run, one entry for each change. -/
def Sys.history (clients : Op → Bool) (id : WorkId) (ls : List Label) : List State :=
  (system clients).observed (Sys.rowState id) Sys.initial ls

/-- The change of a row a call is about to make. -/
def Slot.Causes (x : Slot) (id : WorkId) : Option State → Option State → Prop
  | none, some b => ∃ new p ph r, x = .live ⟨.submit new, p, ph⟩ ∧ ph.Commits new id r ∧ r.state = b
  | some a, some b => ∃ c, x.Updates c id ∧ c.source = a ∧ c.target = b
  | _, none => False

/-- Clients of `submit_work`, `transition_state`, `complete_work` and `fail_work`. -/
def storeClients : Op → Bool
  | .process _ => false
  | _ => true

section Steps

variable {clients : Op → Bool} {s s' : Sys} {l : Label}

/-- One step of a row that exists: it stays, or takes an edge and counts an attempt when that
edge enters `running`. -/
theorem RowStep.edge (h : RowStep s l s') {id : WorkId} {r : Row} (hr : s.db.row id = some r) :
    ∃ r', s'.db.row id = some r' ∧
      ((r'.state = r.state ∧ r'.attempts = r.attempts) ∨
        (r.state.canTransitionTo r'.state = true ∧
          r'.attempts = r.attempts + if r'.state = .running then 1 else 0)) := by
  obtain ⟨r', hr', rfl | ⟨c, jsonb, now, hc, hs, happ⟩⟩ := h.evolves hr
  · exact ⟨_, hr', .inl ⟨rfl, rfl⟩⟩
  · obtain ⟨hst, -, hatt⟩ := c.apply_state happ
    exact ⟨r', hr', .inr ⟨by rw [hs, hst]; exact hc, by rw [hst]; exact hatt⟩⟩

/-- One step of a row that does not exist: it may be inserted, queued or merged, with no attempt. -/
theorem RowStep.birth (h : RowStep s l s') {id : WorkId} {r' : Row} (hr : s.db.row id = none)
    (hr' : s'.db.row id = some r') :
    (r'.state = .queued ∨ r'.state = .merged) ∧ r'.attempts = 0 := by
  obtain ⟨r, hr₀, -⟩ | ⟨i, env, new, p, ph, -, hi, hph, -⟩ := h.origin hr'
  · rw [hr] at hr₀
    cases hr₀
  · cases ph with
    | queued id' m =>
      obtain ⟨-, jsonb, now, t, rfl⟩ := hph
      exact ⟨.inl rfl, rfl⟩
    | merging id' c =>
      obtain ⟨-, jsonb, now, rfl⟩ := hph
      exact ⟨.inr rfl, rfl⟩
    | _ => exact hph.elim

/-! ### Histories -/

theorem Sys.Reachable.rowState_step (h : s.Reachable clients) (hstep : s.step clients l = some s')
    {id : WorkId} {a : State} (ha : s.rowState id = some a) :
    ∃ b, s'.rowState id = some b ∧ (b = a ∨ a.canTransitionTo b = true) := by
  obtain ⟨r, hr, rfl⟩ := Option.map_eq_some_iff.mp ha
  obtain ⟨r', hr', hedge⟩ := (h.rowStep hstep).edge hr
  refine ⟨r'.state, by rw [Sys.rowState, hr']; rfl, ?_⟩
  exact hedge.imp And.left And.left

/-- Along a run of a row that exists, the attempts grow by the steps into `running`. -/
theorem Sys.Reachable.attempts_run (h : s.Reachable clients) {ls : List Label}
    (hrun : (system clients).Run s ls s') {id : WorkId} {r : Row} (hr : s.db.row id = some r) :
    ∃ r', s'.db.row id = some r' ∧ r'.attempts = r.attempts +
      (((system clients).observed (Sys.rowState id) s ls).count .running : ℤ) := by
  induction ls generalizing s r with
  | nil =>
    rw [Lts.run_nil] at hrun
    subst hrun
    exact ⟨r, hr, by simp [Lts.observed]⟩
  | cons l ls ih =>
    obtain ⟨m, hm, hrun⟩ := Lts.run_cons.mp hrun
    obtain ⟨rm, hrm, hedge⟩ := (h.rowStep hm).edge hr
    obtain ⟨r', hr', hcount⟩ := ih (h.next hm) hrun hrm
    refine ⟨r', hr', ?_⟩
    have hs : Sys.rowState id s = some r.state := by rw [Sys.rowState, hr]; rfl
    have hms : Sys.rowState id m = some rm.state := by rw [Sys.rowState, hrm]; rfl
    rw [Lts.observed_cons hm, hcount, hs, hms]
    -- a step that moves the row shows in the history, and is counted when it is to `running`
    obtain ⟨hst, hatt⟩ | ⟨hcan, hatt⟩ := hedge
    · simp [hst, hatt]
    · have hne : rm.state ≠ r.state := (State.ne_of_canTransitionTo hcan).symm
      simp only [Option.some.injEq, hne, if_false, Option.toList_some, List.singleton_append,
        List.count_cons, hatt, beq_iff_eq]
      split <;> push_cast <;> omega

/-- A path of the lifecycle graph from an initial state, with the state it leads to and the
attempts it counts. -/
structure Sys.IsHistory (s : Sys) (id : WorkId) (hist : List State) : Prop where
  path : hist.IsChain fun a b => a.canTransitionTo b = true
  first : ∀ a, hist.head? = some a → a = .queued ∨ a = .merged
  last : s.rowState id = hist.getLast?
  attempts : ∀ r, s.db.row id = some r → r.attempts = hist.count .running

theorem Sys.Reachable.isHistory_of_none (h : s.Reachable clients) {ls : List Label}
    (hrun : (system clients).Run s ls s') {id : WorkId} (hr : s.db.row id = none) :
    s'.IsHistory id ((system clients).observed (Sys.rowState id) s ls) := by
  induction ls generalizing s with
  | nil =>
    rw [Lts.run_nil] at hrun
    subst hrun
    exact ⟨.nil, fun a ha => (by cases ha), by simp [Sys.rowState, Lts.observed, hr],
      fun r hr' => by rw [hr] at hr'; cases hr'⟩
  | cons l ls ih =>
    obtain ⟨m, hm, hrun⟩ := Lts.run_cons.mp hrun
    have hs : Sys.rowState id s = none := by rw [Sys.rowState, hr]; rfl
    rw [Lts.observed_cons hm, hs]
    cases hrm : m.db.row id with
    | none =>
      have hms : Sys.rowState id m = none := by rw [Sys.rowState, hrm]; rfl
      rw [hms, if_pos rfl, List.nil_append]
      exact ih (h.next hm) hrun hrm
    | some rm =>
      -- the step inserts the row; from here on its states follow the lifecycle graph
      have hms : Sys.rowState id m = some rm.state := by rw [Sys.rowState, hrm]; rfl
      obtain ⟨hfirst, hzero⟩ := (h.rowStep hm).birth hr hrm
      obtain ⟨hpath, hlast⟩ := Lts.Run.observed_chain (I := Sys.Reachable clients)
        (R := fun a b : State => a.canTransitionTo b = true) (f := Sys.rowState id)
        (fun _ _ _ hx hstep => Sys.Reachable.next hx hstep)
        (fun _ _ _ _ hx hstep ha => Sys.Reachable.rowState_step hx hstep ha) hrun (h.next hm) hms
      obtain ⟨r', hr', hcount⟩ := (h.next hm).attempts_run hrun hrm
      rw [hms, if_neg (by simp)]
      refine ⟨hpath, ?_, hlast, ?_⟩
      · rintro a ⟨⟩
        exact hfirst
      · intro r hr
        rw [hr'] at hr
        cases hr
        have hne : rm.state ≠ .running := by
          obtain h | h := hfirst <;> rw [h] <;> decide
        simp [hcount, hzero, hne]

/-! ### Causes -/

/-- A change of a committed row is made by one call, whose next effect it is. -/
theorem RowStep.causes (h : RowStep s l s') {id : WorkId} (hne : s'.rowState id ≠ s.rowState id) :
    ∃ i env, l = .exec i env ∧ (s.calls i).Causes id (s.rowState id) (s'.rowState id) := by
  cases h with
  | same h => exact absurd (congrArg (Option.map Row.state) (h id)) hne
  | @insert i env new p ph k r hl hi hph fresh hrow =>
    have hk : id = k := by
      by_contra hk
      exact hne (by rw [Sys.rowState, hrow, if_neg hk]; rfl)
    subst hk
    refine ⟨i, env, hl, ?_⟩
    rw [Sys.rowState, Sys.rowState, fresh, hrow, if_pos rfl]
    exact ⟨new, p, ph, r, hi, hph, rfl⟩
  | @update i env c k r r' now hl hi hc hr hs happ hrow =>
    have hk : id = k := by
      by_contra hk
      exact hne (by rw [Sys.rowState, hrow, if_neg hk]; rfl)
    subst hk
    refine ⟨i, env, hl, ?_⟩
    rw [Sys.rowState, Sys.rowState, hr, hrow, if_pos rfl]
    exact ⟨c, hi, hs.symm, (c.apply_state happ).1.symm⟩

/-- A step changes the state of at most one row. -/
theorem RowStep.changes_one (h : RowStep s l s') {id id' : WorkId}
    (hne : s'.rowState id ≠ s.rowState id) (hne' : s'.rowState id' ≠ s.rowState id') :
    id = id' := by
  have only : ∀ {k x}, (∀ j, s'.db.row j = if j = k then some x else s.db.row j) →
      ∀ j, s'.rowState j ≠ s.rowState j → j = k := by
    intro k x hrow j hj
    by_contra hk
    exact hj (by rw [Sys.rowState, hrow, if_neg hk]; rfl)
  cases h with
  | same h => exact absurd (congrArg (Option.map Row.state) (h id)) hne
  | insert hl hi hph fresh hrow => rw [only hrow id hne, only hrow id' hne']
  | update hl hi hc hr hs happ hrow => rw [only hrow id hne, only hrow id' hne']

/-- A submission that has committed or failed. -/
def SubmitPhase.spent : SubmitPhase → Bool
  | .merged _ _ | .created _ | .shown _ | .failed => true
  | _ => false

/-- A call that can change no row any more. -/
def Slot.Spent : Slot → Prop
  | .live ⟨.submit _, _, ph⟩ => ph.spent = true
  | .live ⟨.change _ _, _, ph⟩ => ph ≠ .ready
  | .ended => True
  | _ => False

theorem Slot.Spent.not_causes {x : Slot} (h : x.Spent) {id : WorkId} {a b : Option State} :
    ¬ x.Causes id a b := by
  cases x with
  | idle => exact h.elim
  | ended => cases a <;> cases b <;> simp [Slot.Causes, Slot.Updates]
  | live c =>
    obtain ⟨op, p, ph⟩ := c
    cases op with
    | submit new =>
      cases a <;> cases b
      · exact fun h => h
      · rintro ⟨new', p', ph', r, heq, hph, -⟩
        cases heq
        cases ph <;> first | exact hph | exact Bool.false_ne_true h
      · exact fun h => h
      · rintro ⟨c, hc, -⟩
        exact hc
    | change c id' =>
      cases a <;> cases b
      · exact fun h => h
      · rintro ⟨new', p', ph', r, heq, -⟩
        cases heq
      · exact fun h => h
      · rintro ⟨c', ⟨hready, -⟩, -⟩
        exact h hready
    | process cp => exact h.elim

theorem SubmitStep.spent {new : NewWorkItem} {i : CallId} {env : Env} {db db' : Db}
    {ph ph' : SubmitPhase} (h : SubmitStep new i env db ph ph' db') (hs : ph.spent = true) :
    ph'.spent = true := by
  cases h <;> first | rfl | cases hs

/-- A submission leaves the committed rows alone until the effect that spends it. -/
theorem SubmitStep.row_or_spent {new : NewWorkItem} {i : CallId} {env : Env} {db db' : Db}
    {ph ph' : SubmitPhase} (h : SubmitStep new i env db ph ph' db') :
    (∀ k, db'.row k = db.row k) ∨ ph'.spent = true := by
  cases h with
  | insert id hput fresh hland => exact .inl hput.row_some
  | merge id c hput fresh hland => exact .inl hput.row_some
  | record id m hrow hput hland => exact .inl hput.row_some
  | commitMerged id c hland => obtain rfl | ⟨-, rfl⟩ := hland <;> exact .inr rfl
  | commitQueued id m hland => obtain rfl | ⟨-, rfl⟩ := hland <;> exact .inr rfl
  | _ => exact .inl fun _ => rfl

theorem ChangePhase.afterUpdate_ne (a : Except DbError ℕ) : ChangePhase.afterUpdate a ≠ .ready := by
  cases a with
  | ok n => by_cases hn : n = 0 <;> simp [ChangePhase.afterUpdate, hn]
  | error d => simp [ChangePhase.afterUpdate]

theorem ChangeStep.spent {c : Change} {id : WorkId} {env : Env} {db db' : Db}
    {ph ph' : ChangePhase} (h : ChangeStep c id env db ph ph' db') (hs : ph ≠ .ready) :
    ph' ≠ .ready := by
  cases h with
  | clock => exact hs
  | update hc hup => exact ChangePhase.afterUpdate_ne _
  | «show» hr => exact fun h => by cases h
  | fail why => exact fun h => by cases h

/-- A spent call stays spent. -/
theorem SysStep.spent (h : SysStep clients s l s') {j : CallId} (hj : (s.calls j).Spent) :
    (s'.calls j).Spent := by
  cases h.slot j with
  | stay h hl => rwa [h]
  | start hi h =>
    rw [hi] at hj
    exact hj.elim
  | ended h hl hdb =>
    rw [h]
    trivial
  | submit hl hi hi' h =>
    rw [hi] at hj
    rw [hi']
    exact h.spent hj
  | change hl hi hi' h =>
    rw [hi] at hj
    rw [hi']
    exact h.spent hj
  | process hl hi hi' h =>
    rw [hi] at hj
    exact hj.elim

/-- The effect by which a store call changes a row spends it. -/
theorem SysStep.spends (h : SysStep storeClients s l s') (hs : s.Lawful storeClients) {i : CallId}
    {env : Env} (hl : l = .exec i env) {id : WorkId} (hne : s'.rowState id ≠ s.rowState id) :
    (s'.calls i).Spent := by
  cases h with
  | @submit j env' new p p' ph ph' db' hi h =>
    cases hl
    rw [Sys.move_calls_self]
    obtain hsame | hspent := h.row_or_spent
    · exact absurd (congrArg (Option.map Row.state) (hsame id)) hne
    · exact hspent
  | @change j env' c id' p p' ph ph' db' hi h =>
    cases hl
    rw [Sys.move_calls_self]
    cases h with
    | update hc hup => exact ChangePhase.afterUpdate_ne _
    | _ => exact absurd rfl hne
  | @process j env' cp p p' ph ph' w' hi h => exact absurd (hs j _ hi).1 Bool.false_ne_true
  | leave hi hl' => obtain rfl | rfl := hl' <;> cases hl
  | _ => cases hl

theorem Sys.Reachable.spent_run (h : s.Reachable clients) {ls : List Label}
    (hrun : (system clients).Run s ls s') {j : CallId} (hj : (s.calls j).Spent) :
    (s'.calls j).Spent :=
  (Lts.run_invariant (I := fun s => s.Reachable clients ∧ (s.calls j).Spent)
    (fun _ _ _ hx hstep =>
      ⟨hx.1.next hstep, (sysStep_of hx.1.inv.1 hx.1.inv.2 hstep).spent hx.2⟩) hrun ⟨h, hj⟩).2

/-- After the step in which it changed a row, a store call changes none again. -/
theorem Sys.Reachable.changes_once (h : s.Reachable storeClients) {s₁ s₂ s₃ : Sys} {i : CallId}
    {env env' : Env} {ys : List Label} (h₁ : s.step storeClients (.exec i env) = some s₁)
    (hrun : (system storeClients).Run s₁ ys s₂)
    (h₂ : s₂.step storeClients (.exec i env') = some s₃) {id id' : WorkId}
    (hne : s₁.rowState id ≠ s.rowState id) : s₃.rowState id' = s₂.rowState id' := by
  have hspent := (sysStep_of h.inv.1 h.inv.2 h₁).spends h.inv.1 rfl hne
  have hspent₂ := (h.next h₁).spent_run hrun hspent
  by_contra hne'
  obtain ⟨j, e, hl, hc⟩ := (((h.next h₁).later hrun).rowStep h₂).causes hne'
  cases hl
  exact hspent₂.not_causes hc

/-- Histories of committed rows under any clients of the store: each is a path of the lifecycle
graph from `queued` or `merged`, whose steps into `running` the attempts count; each change is
made by exactly one call, changes one row, and is the only one of its call; and between two
changes of a row from the same state the row enters that state anew. -/
theorem histories_are_lifecycle_paths {ls : List Label}
    (hrun : (system storeClients).Run Sys.initial ls s) :
    (∀ id, s.IsHistory id (Sys.history storeClients id ls)) ∧
    (∀ l s₁ id, s.step storeClients l = some s₁ → s₁.rowState id ≠ s.rowState id →
      (∃! i, ∃ env, l = .exec i env ∧ (s.calls i).Causes id (s.rowState id) (s₁.rowState id)) ∧
      ∀ id', s₁.rowState id' ≠ s.rowState id' → id' = id) ∧
    (∀ i env s₁ ys s₂ env' s₃ id id', s.step storeClients (.exec i env) = some s₁ →
      s₁.rowState id ≠ s.rowState id → (system storeClients).Run s₁ ys s₂ →
      s₂.step storeClients (.exec i env') = some s₃ → s₃.rowState id' = s₂.rowState id') ∧
    ∀ l s₁ ys s₂ l' s₃ id a, s.step storeClients l = some s₁ →
      (system storeClients).Run s₁ ys s₂ → s₂.step storeClients l' = some s₃ →
      s.rowState id = some a → s₁.rowState id ≠ some a →
      s₂.rowState id = some a → s₃.rowState id ≠ some a →
      ∃ xs k zs m m', ys = xs ++ k :: zs ∧ (system storeClients).Run s₁ xs m ∧
        m.step storeClients k = some m' ∧ m.rowState id ≠ some a ∧ m'.rowState id = some a := by
  have h : s.Reachable storeClients := ⟨ls, hrun⟩
  refine ⟨fun id => Sys.Reachable.isHistory_of_none (Lts.Reachable.refl _) hrun rfl, ?_, ?_, ?_⟩
  · intro l s₁ id hstep hne
    obtain ⟨i, env, rfl, hc⟩ := (h.rowStep hstep).causes hne
    refine ⟨⟨i, ⟨env, rfl, hc⟩, ?_⟩, fun id' hne' => (h.rowStep hstep).changes_one hne' hne⟩
    rintro j ⟨env', hl, -⟩
    cases hl
    rfl
  · intro i env s₁ ys s₂ env' s₃ id id' h₁ hne hrun' h₂
    exact h.changes_once h₁ hrun' h₂ hne
  · intro l s₁ ys s₂ l' s₃ id a _ hrun' _ _ hleft hback _
    exact hrun'.exists_entry (P := fun x => Sys.rowState id x = some a) hleft hback

end Steps

/-- A submission whose row is claimed, started and failed. -/
def failedRun : List Label :=
  Label.alone 0 (.submit sampleItem) { uuid := .ofNat 1 } 9 ++
    Label.alone 1 (.change (.transition .queued .claimed) (.ofNat 1)) {} 3 ++
    Label.alone 2 (.change (.transition .claimed .running) (.ofNat 1)) {} 3 ++
    Label.alone 3 (.change (.fail "engage: exited" 7) (.ofNat 1)) {} 3

theorem histories_are_lifecycle_paths_failed :
    Sys.history storeClients (.ofNat 1) failedRun = [.queued, .claimed, .running, .failed] ∧
    ((system storeClients).replayed Sys.initial failedRun).IsHistory (.ofNat 1)
      (Sys.history storeClients (.ofNat 1) failedRun) :=
  ⟨rfl, (histories_are_lifecycle_paths (Lts.run_replayed rfl)).1 (.ofNat 1)⟩

end Animus
