import Animus.Engine.Control

/-!
# The protocol of each operation

What an operation may do next, given what it was answered so far. The phases
are the only view of a call the system invariants have.

## Main definitions

- `SubmitPhase`, `ChangePhase`, `PlanePhase`: where a call is
- `submitProtocol`, `changeProtocol`, `planeProtocol`

## Main results

- `submitWork_obeys`, `casUpdate_obeys`, `processWork_obeys`
-/

namespace Animus

open Effect Effect.Protocol

/-- What is known of an answer: a row found by id has that id. -/
def Eff.answers : {β : Type} → Eff β → β → Prop
  | _, .pool (.selectById id), .ok (some r) => r.id = id
  | _, _, _ => True

/-! ### Submitting -/

/-- Where a `submit_work` call is. Up to `merging` and `queued` its transaction is open. -/
inductive SubmitPhase
  | start
  | begun
  | named (id : WorkId)
  /-- The insert found the dedup key taken. -/
  | conflicted (id : WorkId)
  | canonical (id c : WorkId)
  | merging (id c : WorkId)
  | merged (id c : WorkId)
  | inserted (id : WorkId)
  | sent (id : WorkId) (m : ℤ)
  | queued (id : WorkId) (m : ℤ)
  | created (id : WorkId)
  /-- The new row was read back. -/
  | shown (id : WorkId)
  | failed

def submitAllowed (new : NewWorkItem) : {β : Type} → SubmitPhase → Eff β → Prop
  | _, .start, .begin => True
  | _, .begun, .newV4 => True
  | _, .named _, .utcNow => True
  | _, .named id, .tx (.insertOnConflict new' id' key _) =>
    new' = new ∧ id' = id ∧ new.dedupKey = some key
  | _, .named id, .tx (.insertPlain new' id' _) => new' = new ∧ id' = id ∧ new.dedupKey = none
  | _, .conflicted _, .tx (.selectCanonical faculty key) =>
    faculty = new.faculty ∧ new.dedupKey = some key
  | _, .canonical id c, .tx (.insertMerged new' id' c' _) => new' = new ∧ id' = id ∧ c' = c
  | _, .merging _ _, .commit => True
  | _, .inserted id, .tx (.pgmqSend payload) => payload = workPayload id new.params
  | _, .sent id m, .tx (.updateQueued m' id') => m' = m ∧ id' = id
  | _, .queued _ _, .tx (.pgNotify faculty) => faculty = new.faculty
  | _, .queued _ _, .commit => True
  | _, .created id, .pool (.selectById id') => id' = id
  | _, _, _ => False

def submitNext : {β : Type} → SubmitPhase → Eff β → β → SubmitPhase
  | _, .start, .begin, .ok _ => .begun
  | _, .begun, .newV4, id => .named id
  | _, .named id, .utcNow, _ => .named id
  | _, .named id, .tx (.insertOnConflict _ _ _ _), .ok (some _) => .inserted id
  | _, .named id, .tx (.insertOnConflict _ _ _ _), .ok none => .conflicted id
  | _, .named id, .tx (.insertPlain _ _ _), .ok _ => .inserted id
  | _, .conflicted id, .tx (.selectCanonical _ _), .ok c => .canonical id c
  | _, .canonical id c, .tx (.insertMerged _ _ _ _), .ok _ => .merging id c
  | _, .merging id c, .commit, .ok _ => .merged id c
  | _, .inserted id, .tx (.pgmqSend _), .ok m => .sent id m
  | _, .sent id m, .tx (.updateQueued _ _), .ok _ => .queued id m
  | _, .queued id m, .tx (.pgNotify _), .ok _ => .queued id m
  | _, .queued id _, .commit, .ok _ => .created id
  | _, .created id, .pool (.selectById _), .ok (some _) => .shown id
  | _, _, _, _ => .failed

/-- What a `submit_work` call returns in the phase it ends in. -/
def SubmitPhase.Returns : SubmitPhase → Except Error SubmitResult → Prop
  | .shown id, .ok (.created item) => item.id = id
  | .merged id c, .ok (.merged newId canonicalId) => newId = id ∧ canonicalId = c
  | .failed, .error _ => True
  | _, _ => False

def submitProtocol (new : NewWorkItem) : Protocol Eff SubmitPhase where
  answers := Eff.answers
  allowed := submitAllowed new
  next := submitNext

/-! ### Changing a row -/

/-- Where a `transition_state`, `complete_work` or `fail_work` call is. -/
inductive ChangePhase
  | ready
  /-- The update moved the row. -/
  | moved
  | shown
  | failed
  deriving DecidableEq

def changeAllowed (c : Change) (id : WorkId) : {β : Type} → ChangePhase → Eff β → Prop
  | _, .ready, .utcNow => True
  | _, .ready, .pool (.change c' id' _) =>
    c' = c ∧ id' = id ∧ c.source.canTransitionTo c.target = true
  | _, .moved, .pool (.selectById id') => id' = id
  | _, _, _ => False

def changeNext : {β : Type} → ChangePhase → Eff β → β → ChangePhase
  | _, .ready, .utcNow, _ => .ready
  | _, .ready, .pool (.change _ _ _), .ok n => if n = 0 then .failed else .moved
  | _, .moved, .pool (.selectById _), .ok (some _) => .shown
  | _, _, _, _ => .failed

/-- What such a call returns in the phase it ends in. -/
def ChangePhase.Returns : ChangePhase → Except Error WorkItem → Prop
  | .shown, .ok _ => True
  | .failed, .error _ => True
  | .ready, .error _ => True
  | _, _ => False

def changeProtocol (c : Change) (id : WorkId) : Protocol Eff ChangePhase where
  answers := Eff.answers
  allowed := changeAllowed c id
  next := changeNext

/-! ### Processing -/

/-- How far the owner of a work item is. -/
inductive Stage
  | claimed
  | running
  /-- Counted in `active_foci`. -/
  | counted
  | focused
  /-- The focus ended and is no longer counted. -/
  | ran
  deriving DecidableEq

/-- Where a `process_work` call is. -/
inductive PlanePhase
  | idle
  /-- It read message `m`, whose payload names `id`. -/
  | read (m : ℤ) (id : WorkId)
  /-- It fetched the row and has a faculty for it. -/
  | fetched (m : ℤ) (id : WorkId)
  | owning (st : Stage) (m : ℤ) (id : WorkId)
  | completed (m : ℤ) (id : WorkId)
  | closed

/-- Effects that touch neither a row, nor the queue, nor a counter. -/
def Eff.passive : {β : Type} → Eff β → Bool
  | _, .newV4 | _, .utcNow | _, .recordStateTransition _ _ _ | _, .elapsedMs | _, .createDirAll _
  | _, .removeDirAll _ | _, .toStringPretty _ | _, .write _ _ | _, .currentDir | _, .status _ _ _
  | _, .fileExists _ | _, .readToString _ | _, .parseJson _ | _, .pool (.selectById _)
  | _, .loadActive _ => true
  | _, _ => false

/-- The effects of a focus run after its first. -/
def Eff.hooks : {β : Type} → Eff β → Bool
  | _, .elapsedMs | _, .currentDir | _, .status _ _ _ | _, .fileExists _ | _, .readToString _
  | _, .parseJson _ => true
  | _, _ => false

/-- The update a call issues in a phase. -/
def PlanePhase.Issues : PlanePhase → Change → WorkId → Prop
  | .fetched _ id, c, id' => c = .transition .queued .claimed ∧ id' = id
  | .owning .claimed _ id, c, id' => c = .transition .claimed .running ∧ id' = id
  | .owning .ran _ id, c, id' => ((∃ o, c = .complete o) ∨ ∃ e ms, c = .fail e ms) ∧ id' = id
  | _, _, _ => False

def planeAllowed (cp : ControlPlane) : {β : Type} → PlanePhase → Eff β → Prop
  | _, .idle, .pool (.pgmqRead _) => True
  | _, .read _ id, .pool (.selectById id') => id' = id
  | _, g, .pool (.change c id _) => g.Issues c id
  | _, .owning .running _ _, .addActive p => p = cp.plane
  | _, .owning .counted _ id, .focusStart work => work = id
  | _, .owning .focused _ _, .subActive p => p = cp.plane
  | _, .completed m _, .pool (.pgmqArchive m') => m' = m
  | _, _, e => e.passive = true

/-- The phase after the message of a `pgmq.read`. -/
def PlanePhase.afterRead : Option PgmqMessage → PlanePhase
  | none => .closed
  | some msg =>
    match extractId msg.message with
    | none => .closed
    | some id => .read msg.msgId id

/-- The phase after the update a call issued. -/
def PlanePhase.afterUpdate : PlanePhase → Change → Except DbError ℕ → PlanePhase
  | .fetched m id, _, .ok n => if n = 0 then .closed else .owning .claimed m id
  | .owning .claimed m id, _, .ok n => if n = 0 then .closed else .owning .running m id
  | .owning .ran m id, .complete _, .ok n => if n = 0 then .closed else .completed m id
  | _, _, _ => .closed

def planeNext (cp : ControlPlane) : {β : Type} → PlanePhase → Eff β → β → PlanePhase
  | _, .idle, .pool (.pgmqRead _), .ok msg => .afterRead msg
  | _, .idle, .pool (.pgmqRead _), .error _ => .closed
  | _, .read m id, .pool (.selectById _), .ok (some r) =>
    if (cp.registry r.faculty).isSome then .fetched m id else .closed
  | _, .read _ _, .pool (.selectById _), _ => .closed
  | _, g, .pool (.change c _ _), a => g.afterUpdate c a
  | _, .owning .running m id, .addActive _, _ => .owning .counted m id
  | _, .owning .counted m id, .focusStart _, _ => .owning .focused m id
  | _, .owning .focused m id, .subActive _, _ => .owning .ran m id
  | _, .completed _ _, .pool (.pgmqArchive _), _ => .closed
  | _, g, _, _ => g

def planeProtocol (cp : ControlPlane) : Protocol Eff PlanePhase where
  answers := Eff.answers
  allowed := planeAllowed cp
  next := planeNext cp

/-! ### Every operation obeys its protocol -/

section Generic

variable {G : Type*} {P : Protocol Eff G} {g : G}

theorem validateTransition_obeys {Q : G → Unit → Prop} {R : G → Error → Prop} {a b : State}
    (hok : a.canTransitionTo b = true → Q g ())
    (herr : a.canTransitionTo b = false → ∀ e, R g e) :
    P.ObeysE Q R g (validateTransition a b) := by
  unfold validateTransition
  split
  · next h => exact .pure (hok h)
  · next h => exact .throw (herr ((Bool.not_eq_true _).mp h) _)

/-- The row is read back as the work item with its id and faculty. -/
theorem getWorkItem_obeys {Q : G → WorkItem → Prop} {R : G → Error → Prop} {id : WorkId}
    (hans : ∀ r, P.answers (.pool (.selectById id)) (.ok (some r)) → r.id = id)
    (ha : P.allowed g (.pool (.selectById id)))
    (hsome : ∀ r item, item.id = id → item.faculty = r.faculty →
      Q (P.next g (.pool (.selectById id)) (.ok (some r))) item)
    (hnone : P.answers (.pool (.selectById id)) (.ok none) →
      ∀ e, R (P.next g (.pool (.selectById id)) (.ok none)) e)
    (herr : ∀ d, P.answers (.pool (.selectById id)) (.error d) →
      ∀ e, R (P.next g (.pool (.selectById id)) (.error d)) e) :
    P.ObeysE Q R g (getWorkItem id) := by
  unfold getWorkItem
  refine .attempt_bind ha (fun row hrow => ?_) fun d hd => herr d hd _
  cases row with
  | none => exact .throw (hnone hrow _)
  | some r =>
    obtain ⟨item, hok, hid, hfac, -⟩ := r.tryIntoWorkItem_isOk
    refine .ofResult (fun item' hitem => ?_) fun e he => ?_
    · rw [hok] at hitem
      cases hitem
      exact hsome r item (hid.trans (hans r hrow)) hfac
    · rw [hok] at he
      cases he

/-- The shared shape: one update, then the row is read back from phase `g'`. -/
theorem casUpdate_obeys_of {Q : G → WorkItem → Prop} {R : G → Error → Prop} {c : Change}
    {id : WorkId} (g' : G)
    (hinvalid : c.source.canTransitionTo c.target = false → ∀ e, R g e)
    (hnow : P.allowed g .utcNow) (hstay : ∀ t, P.next g .utcNow t = g)
    (hchange : c.source.canTransitionTo c.target = true →
      ∀ now, P.allowed g (.pool (.change c id now)))
    (hmiss : ∀ now e, R (P.next g (.pool (.change c id now)) (.ok 0)) e)
    (herr : ∀ now d e, R (P.next g (.pool (.change c id now)) (.error d)) e)
    (hmove : ∀ now n, n ≠ 0 → P.next g (.pool (.change c id now)) (.ok n) = g')
    (hback : P.ObeysE Q R g' (getWorkItem id)) :
    P.ObeysE Q R g (casUpdate c id) := by
  unfold casUpdate
  refine ObeysE.bind (Q := fun g₁ _ => g₁ = g ∧ c.source.canTransitionTo c.target = true)
    (validateTransition_obeys (fun h => ⟨rfl, h⟩) hinvalid) ?_
  intro g₁ _ hg₁
  rw [hg₁.1]
  refine .perform_bind hnow fun now _ => ?_
  rw [hstay]
  refine .attempt_bind (hchange hg₁.2 now) (fun n _ => ?_) fun d _ => herr now d _
  by_cases hn : n = 0
  · rw [if_pos hn, hn]
    exact .throw (hmiss now _)
  · rw [if_neg hn, hmove now n hn]
    exact hback

end Generic

theorem casUpdate_obeys (c : Change) (id : WorkId) :
    (changeProtocol c id).Obeys ChangePhase.Returns .ready (casUpdate c id).run := by
  have h : (changeProtocol c id).ObeysE (fun g _ => g = .shown)
      (fun g _ => g = .failed ∨ g = .ready) .ready (casUpdate c id) := by
    refine casUpdate_obeys_of .moved (fun _ _ => .inr rfl) trivial
      (fun _ => rfl) (fun h _ => ⟨rfl, rfl, h⟩) (fun _ _ => .inl rfl) (fun _ _ _ => .inl rfl) ?_ ?_
    · intro now n hn
      exact if_neg hn
    · exact getWorkItem_obeys (fun r hr => hr) rfl (fun _ _ _ _ => rfl) (fun _ _ => .inl rfl)
        fun _ _ _ => .inl rfl
  refine Obeys.mono h fun g r hr => ?_
  cases r with
  | ok item => cases hr; trivial
  | error e => obtain rfl | rfl := hr <;> trivial

/-- A `submit_work` call ends with the result its last phase stands for. -/
def SubmitPhase.Ok (g : SubmitPhase) (r : SubmitResult) : Prop := g.Returns (.ok r)

theorem queueWork_obeys (new : NewWorkItem) (id : WorkId) :
    (submitProtocol new).ObeysE SubmitPhase.Ok (fun g _ => g = .failed) (.inserted id)
      (queueWork new id) := by
  unfold queueWork
  refine ObeysE.bind (Q := fun g _ => g = .inserted id)
    (validateTransition_obeys (fun _ => rfl) fun h => absurd h (by decide)) ?_
  rintro _ - rfl
  refine .attempt_bind rfl (fun m _ => ?_) fun _ _ => rfl
  refine .attempt_bind ⟨rfl, rfl⟩ (fun n _ => ?_) fun _ _ => rfl
  refine .attempt_bind rfl (fun _ _ => ?_) fun _ _ => rfl
  refine .attempt_bind trivial (fun _ _ => ?_) fun _ _ => rfl
  refine ObeysE.bind (Q := fun g (item : WorkItem) => g = .shown id ∧ item.id = id)
    (getWorkItem_obeys (fun r hr => hr) rfl (fun _ _ hid _ => ⟨rfl, hid⟩) (fun _ _ => rfl)
      fun _ _ _ => rfl) ?_
  rintro _ item ⟨rfl, hitem⟩
  exact .pure hitem

theorem mergeWork_obeys (new : NewWorkItem) (id : WorkId) (key : String) (now : Sql.Timestamp)
    (hk : new.dedupKey = some key) :
    (submitProtocol new).ObeysE SubmitPhase.Ok (fun g _ => g = .failed) (.conflicted id)
      (mergeWork new id key now) := by
  unfold mergeWork
  refine .attempt_bind ⟨rfl, hk⟩ (fun c _ => ?_) fun _ _ => rfl
  refine ObeysE.bind (Q := fun g _ => g = .canonical id c)
    (validateTransition_obeys (fun _ => rfl) fun h => absurd h (by decide)) ?_
  rintro _ - rfl
  refine .attempt_bind ⟨rfl, rfl, rfl⟩ (fun _ _ => ?_) fun _ _ => rfl
  refine .attempt_bind trivial (fun _ _ => ?_) fun _ _ => rfl
  exact .pure ⟨rfl, rfl⟩

theorem submitWork_obeys (new : NewWorkItem) :
    (submitProtocol new).Obeys SubmitPhase.Returns .start (submitWork new).run := by
  have h : (submitProtocol new).ObeysE SubmitPhase.Ok (fun g _ => g = .failed) .start
      (submitWork new) := by
    unfold submitWork
    refine .attempt_bind trivial (fun _ _ => ?_) fun _ _ => rfl
    refine .perform_bind trivial fun id _ => ?_
    refine .perform_bind trivial fun now _ => ?_
    -- an insert that conflicts answers with no id, and only one with a key can conflict
    cases hk : new.dedupKey with
    | some key =>
      refine .attempt_bind ⟨rfl, rfl, hk⟩ (fun ins _ => ?_) fun _ _ => rfl
      cases ins with
      | none => exact mergeWork_obeys new id key now hk
      | some _ => exact queueWork_obeys new id
    | none =>
      refine .attempt_bind ⟨rfl, rfl, hk⟩ (fun _ _ => ?_) fun _ _ => rfl
      exact queueWork_obeys new id
  refine Obeys.mono h fun g r hr => ?_
  cases r with
  | ok a => exact hr
  | error e => cases hr; trivial

/-! ### What passes through a phase -/

section Idle

variable {G : Type*} {P : Protocol Eff G} {g : G} {α β δ : Type}

/-- In phase `g` the effect is allowed and changes nothing. -/
def Idle (P : Protocol Eff G) (g : G) (e : Eff α) : Prop :=
  P.allowed g e ∧ ∀ r, P.next g e r = g

/-- In phase `g` passive effects are allowed and change nothing. -/
def Idles (P : Protocol Eff G) (g : G) : Prop :=
  ∀ ⦃β : Type⦄ (e : Eff β), e.passive = true → P.allowed g e ∧ ∀ r, P.next g e r = g

/-- In phase `g` hooks run and change nothing. -/
def Rests (P : Protocol Eff G) (g : G) : Prop :=
  ∀ ⦃β : Type⦄ (e : Eff β), e.hooks = true → Idle P g e

theorem Idles.rests (hg : Idles P g) : Rests P g := by
  intro β e he
  refine hg e ?_
  cases e <;> first | rfl | cases he

section Passive

variable {Q : G → β → Prop} {R : G → Error → Prop}

theorem Idle.perform_bind {e : Eff α} (he : Idle P g e) {f : α → Fallible Eff Error β}
    (h : ∀ a, P.ObeysE Q R g (f a)) : P.ObeysE Q R g (Fallible.perform e >>= f) := by
  obtain ⟨ha, hstay⟩ := he
  refine .perform_bind ha fun a _ => ?_
  rw [hstay]
  exact h a

theorem Idle.attempt_bind {wrap : δ → Error} {e : Eff (Except δ α)} (he : Idle P g e)
    {f : α → Fallible Eff Error β} (hok : ∀ a, P.ObeysE Q R g (f a)) (herr : ∀ e, R g e) :
    P.ObeysE Q R g (Fallible.attempt wrap e >>= f) := by
  obtain ⟨ha, hstay⟩ := he
  refine .attempt_bind ha (fun a _ => ?_) fun d _ => ?_
  · rw [hstay]
    exact hok a
  · rw [hstay]
    exact herr _

theorem Idle.eff {e : Eff α} (he : Idle P g e) {f : α → Prog Eff β}
    (h : ∀ a, P.Obeys Q g (f a)) : P.Obeys Q g (.eff e f) := by
  obtain ⟨ha, hstay⟩ := he
  refine ⟨ha, fun a _ => ?_⟩
  rw [hstay]
  exact h a

theorem passive_perform_bind (hg : Idles P g) {e : Eff α} (he : e.passive = true)
    {f : α → Fallible Eff Error β} (h : ∀ a, P.ObeysE Q R g (f a)) :
    P.ObeysE Q R g (Fallible.perform e >>= f) := Idle.perform_bind (hg e he) h

theorem passive_attempt_bind (hg : Idles P g) {wrap : δ → Error} {e : Eff (Except δ α)}
    (he : e.passive = true) {f : α → Fallible Eff Error β}
    (hok : ∀ a, P.ObeysE Q R g (f a)) (herr : ∀ e, R g e) :
    P.ObeysE Q R g (Fallible.attempt wrap e >>= f) := Idle.attempt_bind (hg e he) hok herr

theorem passive_eff (hg : Idles P g) {e : Eff α} (he : e.passive = true)
    {f : α → Prog Eff β} (h : ∀ a, P.Obeys Q g (f a)) : P.Obeys Q g (.eff e f) :=
  Idle.eff (hg e he) h

end Passive

theorem getWorkItem_stays (hg : Idles P g)
    (hans : ∀ {id : WorkId} r, P.answers (.pool (.selectById id)) (.ok (some r)) → r.id = id)
    (id : WorkId) :
    P.ObeysE (fun g' (item : WorkItem) => g' = g ∧ item.id = id)
      (fun g' _ => g' = g) g (getWorkItem id) := by
  obtain ⟨ha, hstay⟩ := hg (.pool (.selectById id)) rfl
  exact getWorkItem_obeys hans ha (fun _ _ hid _ => ⟨hstay _, hid⟩)
    (fun _ _ => hstay _) fun _ _ _ => hstay _

/-- One update that leads from phase `g` to phase `g'` when it moves a row. -/
theorem casUpdate_moves {R : G → Error → Prop} {c : Change} {id : WorkId} {g' : G}
    (hg : Idles P g) (hg' : Idles P g')
    (hans : ∀ {id : WorkId} r, P.answers (.pool (.selectById id)) (.ok (some r)) → r.id = id)
    (ha : ∀ now, P.allowed g (.pool (.change c id now)))
    (hmove : ∀ now n, n ≠ 0 → P.next g (.pool (.change c id now)) (.ok n) = g')
    (hmiss : ∀ now e, R (P.next g (.pool (.change c id now)) (.ok 0)) e)
    (herr : ∀ now d e, R (P.next g (.pool (.change c id now)) (.error d)) e)
    (hR : ∀ e, R g e) (hR' : ∀ e, R g' e) :
    P.ObeysE (fun g₁ _ => g₁ = g') R g (casUpdate c id) := by
  obtain ⟨hnow, hstay⟩ := hg .utcNow rfl
  refine casUpdate_obeys_of g' (fun _ => hR) hnow hstay (fun _ => ha) hmiss herr hmove ?_
  exact (getWorkItem_stays hg' hans id).mono (fun _ _ h => h.1) fun _ e h => h ▸ hR' e

theorem create_stays (hg : Idles P g) (base : String) (item : WorkItem) :
    P.ObeysE (fun g' (focus : Focus) => g' = g ∧ focus.workItem = item)
      (fun g' _ => g' = g) g (Focus.create base item) := by
  unfold Focus.create
  refine passive_perform_bind hg rfl fun id => ?_
  refine passive_attempt_bind hg rfl (fun _ => ?_) fun _ => rfl
  refine passive_attempt_bind hg rfl (fun _ => ?_) fun _ => rfl
  refine passive_attempt_bind hg rfl (fun _ => ?_) fun _ => rfl
  exact .pure ⟨rfl, rfl⟩

theorem runHook_stays (hg : Rests P g) (focus : Focus) (phase command : String) :
    P.ObeysE (fun g' _ => g' = g) (fun g' _ => g' = g) g (focus.runHook phase command) := by
  unfold Focus.runHook
  refine ObeysE.bind (Q := fun g' _ => g' = g) ?_ ?_
  · unfold Focus.resolveCommand
    split
    · exact (hg _ rfl).attempt_bind (fun _ => .pure rfl) fun _ => rfl
    · exact .pure rfl
  · rintro _ absCommand rfl
    refine (hg _ rfl).attempt_bind (fun code => ?_) fun _ => rfl
    split
    · exact .pure rfl
    · exact .throw rfl

theorem runPhases_stays (hg : Rests P g) (focus : Focus) (phases : List (String × String)) :
    P.Obeys (fun g' _ => g' = g) g (focus.runPhases phases) := by
  induction phases with
  | nil => exact rfl
  | cons p phases ih =>
    refine Obeys.bind (runHook_stays hg focus p.1 p.2) ?_
    intro g' r hr
    cases r with
    | ok _ => exact hr ▸ ih
    | error e =>
      rw [show g' = g from hr]
      exact (hg _ rfl).eff fun _ => rfl

theorem readOutcome_stays (hg : Rests P g) (focus : Focus) :
    P.Obeys (fun g' _ => g' = g) g focus.readOutcome := by
  refine (hg _ rfl).eff fun _ => (hg _ rfl).eff fun r => ?_
  cases r with
  | error e => exact (hg _ rfl).eff fun _ => rfl
  | ok content =>
    refine (hg _ rfl).eff fun r => ?_
    cases r with
    | ok data => exact (hg _ rfl).eff fun _ => rfl
    | error e => exact (hg _ rfl).eff fun _ => rfl

/-- A focus run is its first effect and then what hooks do. -/
theorem run_rests {g' : G} (hg' : Rests P g') (focus : Focus) (faculty : FacultyMeta)
    (ha : P.allowed g (.focusStart focus.workItem.id))
    (hnext : P.next g (.focusStart focus.workItem.id) () = g') :
    P.Obeys (fun g₁ _ => g₁ = g') g (focus.run faculty) := by
  refine Obeys.bind (Q := fun g₁ _ => g₁ = g') (.perform ha fun _ _ => hnext) ?_
  rintro _ _ rfl
  refine Obeys.bind (runPhases_stays hg' focus (Focus.phases faculty)) ?_
  rintro _ failure rfl
  cases failure with
  | some failure => exact rfl
  | none => exact readOutcome_stays hg' focus

/-- A focus run is its first effect and then passive. -/
theorem run_leads {g' : G} (hg' : Idles P g') (focus : Focus) (faculty : FacultyMeta)
    (ha : P.allowed g (.focusStart focus.workItem.id))
    (hnext : P.next g (.focusStart focus.workItem.id) () = g') :
    P.Obeys (fun g₁ _ => g₁ = g') g (focus.run faculty) :=
  run_rests hg'.rests focus faculty ha hnext

end Idle

/-! ### Processing obeys its protocol -/

section Plane

variable {cp : ControlPlane} {g : PlanePhase} {β : Type}

/-- A phase in which passive effects change nothing. -/
def PlanePhase.settled : PlanePhase → Bool
  | .read _ _ => false
  | _ => true

variable (cp) in
theorem passive_step (hg : g.settled = true) : Idles (planeProtocol cp) g := by
  intro β e he
  cases e with
  | pool q =>
    cases q with
    | selectById k =>
      cases g with
      | read m id => cases hg
      | owning st m id => cases st <;> exact ⟨rfl, fun _ => rfl⟩
      | _ => exact ⟨rfl, fun _ => rfl⟩
    | _ => exact absurd he Bool.false_ne_true
  | _ =>
    first
    | exact absurd he Bool.false_ne_true
    | cases g with
      | read m id => cases hg
      | owning st m id => cases st <;> exact ⟨rfl, fun _ => rfl⟩
      | _ => exact ⟨rfl, fun _ => rfl⟩

/-- A focus run starts once, in phase `counted`. -/
theorem run_obeys (focus : Focus) (faculty : FacultyMeta) (m : ℤ) :
    (planeProtocol cp).Obeys (fun g' _ => g' = .owning .focused m focus.workItem.id)
      (.owning .counted m focus.workItem.id) (focus.run faculty) :=
  run_leads (passive_step cp rfl) focus faculty rfl rfl

/-- One owned update: it moves the call from phase `g` to phase `g'`, or closes it. -/
theorem casUpdate_plane {c : Change} {id : WorkId} {g g' : PlanePhase} (hg : g.settled = true)
    (hg' : g'.settled = true) (ha : ∀ now, planeAllowed cp g (.pool (.change c id now)))
    (hmove : ∀ now n, n ≠ 0 → planeNext cp g (.pool (.change c id now)) (.ok n) = g') :
    (planeProtocol cp).ObeysE (fun g₁ _ => g₁ = g') (fun _ _ => True) g (casUpdate c id) :=
  casUpdate_moves (passive_step cp hg) (passive_step cp hg') (fun _ hr => hr) ha hmove
    (fun _ _ => trivial) (fun _ _ _ => trivial) (fun _ => trivial) fun _ => trivial

theorem claim_obeys (m : ℤ) (id : WorkId) :
    (planeProtocol cp).ObeysE (fun g _ => g = .owning .claimed m id) (fun _ _ => True)
      (.fetched m id) (transitionState id .queued .claimed) :=
  casUpdate_plane (g := .fetched m id) rfl rfl (fun _ => ⟨rfl, rfl⟩) fun _ _ hn => if_neg hn

theorem start_obeys (m : ℤ) (id : WorkId) :
    (planeProtocol cp).ObeysE (fun g _ => g = .owning .running m id) (fun _ _ => True)
      (.owning .claimed m id) (transitionState id .claimed .running) :=
  casUpdate_plane (g := .owning .claimed m id) rfl rfl (fun _ => ⟨rfl, rfl⟩)
    fun _ _ hn => if_neg hn

theorem complete_obeys (m : ℤ) (id : WorkId) (outcome : Outcome) :
    (planeProtocol cp).ObeysE (fun g _ => g = .completed m id) (fun _ _ => True)
      (.owning .ran m id) (completeWork id outcome) :=
  casUpdate_plane (g := .owning .ran m id) rfl rfl (fun _ => ⟨.inl ⟨_, rfl⟩, rfl⟩)
    fun _ _ hn => if_neg hn

theorem fail_obeys (m : ℤ) (id : WorkId) (error : String) (ms : UInt64) :
    (planeProtocol cp).ObeysE (fun g _ => g = .closed) (fun _ _ => True)
      (.owning .ran m id) (failWork id error ms) :=
  casUpdate_plane (g := .owning .ran m id) rfl rfl (fun _ => ⟨.inr ⟨_, _, rfl⟩, rfl⟩)
    fun _ _ _ => rfl

/-- A phase without an owned work item. -/
def PlanePhase.isDone : PlanePhase → Bool
  | .idle | .completed _ _ | .closed => true
  | _ => false

/-- An `Ok` return leaves no work item owned. -/
def PlanePhase.Returns (g : PlanePhase) : Except Error Unit → Prop
  | .ok _ => g.isDone = true
  | .error _ => True

theorem retire_obeys (msg : PgmqMessage) (id : WorkId) (result : FocusResult) :
    (planeProtocol cp).ObeysE (fun g _ => g = .closed) (fun _ _ => True)
      (.owning .ran msg.msgId id) (retire msg id result) := by
  cases result with
  | completed data ms =>
    refine passive_perform_bind (passive_step cp rfl) rfl fun _ => ?_
    refine ObeysE.bind (complete_obeys msg.msgId id _) ?_
    rintro _ item rfl
    exact .attempt rfl (fun _ _ => rfl) fun _ _ => trivial
  | failed phase error ms =>
    refine passive_perform_bind (passive_step cp rfl) rfl fun _ => ?_
    refine ObeysE.bind (fail_obeys msg.msgId id _ ms) ?_
    rintro _ item rfl
    exact .pure rfl

theorem runWork_obeys (msg : PgmqMessage) (item : WorkItem) (faculty : FacultyMeta) :
    (planeProtocol cp).ObeysE (fun g _ => g = .closed) (fun _ _ => True)
      (.fetched msg.msgId item.id) (runWork cp msg item.id item faculty) := by
  unfold runWork
  refine passive_perform_bind (passive_step cp rfl) rfl fun _ => ?_
  -- each update moves the call one stage on, or closes it
  refine ObeysE.bind (claim_obeys msg.msgId item.id) ?_
  rintro _ _ rfl
  refine passive_perform_bind (passive_step cp rfl) rfl fun _ => ?_
  refine ObeysE.bind (start_obeys msg.msgId item.id) ?_
  rintro _ _ rfl
  refine .perform_bind rfl fun _ _ => ?_
  refine ObeysE.bind (Q := fun g (focus : Focus) =>
    g = .owning .counted msg.msgId item.id ∧ focus.workItem = item)
    ((create_stays (passive_step cp rfl) _ item).mono (fun _ _ h => h)
      fun _ _ _ => trivial) ?_
  rintro _ focus ⟨rfl, rfl⟩
  refine ObeysE.bind (Q := fun g _ => g = .owning .focused msg.msgId focus.workItem.id)
    (.lift (run_obeys focus faculty msg.msgId)) ?_
  rintro _ result rfl
  refine .perform_bind rfl fun _ _ => ?_
  refine ObeysE.bind (retire_obeys msg focus.workItem.id result) ?_
  rintro _ _ rfl
  refine ObeysE.bind (Q := fun g _ => g = .closed) (.lift ?_) fun _ _ h => .pure (h ▸ rfl)
  exact passive_eff (passive_step cp rfl) rfl fun _ => rfl

/-- Fetching the row settles whether the item can be routed. -/
theorem fetch_obeys (m : ℤ) (id : WorkId) :
    (planeProtocol cp).ObeysE (fun g (item : WorkItem) => item.id = id ∧
        g = if (cp.registry item.faculty).isSome then .fetched m id else .closed)
      (fun _ _ => True) (.read m id) (getWorkItem id) := by
  exact getWorkItem_obeys (fun r hr => hr) rfl (fun r item hid hfac => ⟨hid, by rw [hfac]; rfl⟩)
    (fun _ _ => trivial) fun _ _ _ => trivial

theorem processWork_obeys (cp : ControlPlane) :
    (planeProtocol cp).Obeys PlanePhase.Returns .idle (processWork cp).run := by
  have h : (planeProtocol cp).ObeysE (fun g _ => g.isDone = true) (fun _ _ => True) .idle
      (processWork cp) := by
    unfold processWork
    refine passive_perform_bind (passive_step cp rfl) rfl fun active => ?_
    split
    · exact .pure rfl
    refine .attempt_bind trivial (fun msg _ => ?_) fun _ _ => trivial
    cases msg with
    | none => exact .pure rfl
    | some msg =>
      have hnext : (planeProtocol cp).next .idle (.pool (.pgmqRead cp.visibilityTimeout))
          (.ok (some msg)) = .afterRead (some msg) := rfl
      rw [hnext, PlanePhase.afterRead]
      dsimp only
      cases hid : extractId msg.message with
      | none => exact .throw trivial
      | some id =>
        refine ObeysE.bind (fetch_obeys msg.msgId id) ?_
        rintro g item ⟨rfl, rfl⟩
        cases hfac : cp.registry item.faculty with
        | none => exact .pure rfl
        | some faculty =>
          refine ObeysE.mono (runWork_obeys msg item faculty) ?_ fun _ _ h => h
          rintro _ _ rfl
          rfl
  refine Obeys.mono h fun g r hr => ?_
  cases r with
  | ok _ => exact hr
  | error _ => trivial

end Plane

end Animus
