import Animus.Db.Atomicity
import Animus.Lib.BigStep
import Animus.System.Hooks

/-!
# A call left alone

What `process_work` comes to when the database reports no error and nobody else
is at work, whatever the file system and the hooks do.

## Main definitions

- `Env.Serves`: the database reports no error, and a read gets the `k`-th visible message
- `Row.Moved`: a row moved by updates
- `ControlPlane.Works`: how a routed item ends
- `ControlPlane.Handles`: how the item of a message ends
- `ControlPlane.Polls`: how a call ends

## Main results

- `processWork_polls`: every run of `process_work` ends in one of these ways
- `processWork_unblocked`: it waits for nobody
-/

namespace Animus

open Effect Effect.Fallible

/-- The database reports no error, and a read gets the `k`-th visible message. -/
def Env.Serves (k : ℕ) (env : Env) : Prop := env.fault = none ∧ env.chance.pick = k

/-- The row is moved by the updates, one after the other. -/
inductive Row.Moved : Row → List Change → Row → Prop
  | nil (r : Row) : Moved r [] r
  | cons {r m r' : Row} {c : Change} {cs : List Change} {jsonb : Json → Json} {t : Sql.Timestamp}
      (happ : c.apply jsonb t r = some m) (h : Moved m cs r') : Moved r (c :: cs) r'

/-- The updates that start an attempt. -/
def starting : List Change := [.transition .queued .claimed, .transition .claimed .running]

theorem Row.Moved.identity {r r' : Row} {cs : List Change} (h : r.Moved cs r') :
    r'.id = r.id ∧ r'.faculty = r.faculty := by
  induction h with
  | nil r => exact ⟨rfl, rfl⟩
  | @cons r m r' c cs jsonb t happ h ih =>
    obtain ⟨hid, hfac, -⟩ := c.apply_identity happ
    exact ⟨ih.1.trans hid, ih.2.trans hfac⟩

theorem Row.Moved.append {r m r' : Row} {cs cs' : List Change} (h : r.Moved cs m)
    (h' : m.Moved cs' r') : r.Moved (cs ++ cs') r' := by
  induction h with
  | nil r => exact h'
  | cons happ h ih => exact .cons happ (ih h')

/-- The row is in the state the last update writes. -/
theorem Row.Moved.state {r r' : Row} {cs : List Change} {c : Change}
    (h : r.Moved (cs ++ [c]) r') : r'.state = c.target := by
  induction cs generalizing r with
  | nil =>
    obtain @⟨⟩ | ⟨happ, ⟨⟩⟩ := h
    exact (c.apply_state happ).1
  | cons _ cs ih =>
    obtain @⟨⟩ | ⟨-, h⟩ := h
    exact ih h

theorem Db.Puts.trans {db m db' : Db} {tag : Option CallId} {r r' : Row} (h : db.Puts m tag r)
    (h' : m.Puts db' tag r') (hid : r'.id = r.id) : db.Puts db' tag r' where
  rowOf t k := by
    rw [h'.rowOf, h.rowOf, hid]
    split <;> rfl
  queue := h'.queue.trans h.queue
  archive := h'.archive.trans h.archive
  nextMsgId := h'.nextMsgId.trans h.nextMsgId

/-- The world once a focus run of an item is counted. -/
def World.count (w : World) (id : WorkId) : World :=
  { w with started := Function.update w.started id (w.started id + 1) }

section Operations

variable {i : CallId} {H : Env → Prop} {w w' : World}

/-- A statement on the pool, when the database reports no error. -/
theorem ends_pool (hH : ∀ x, H x → x.fault = none) {γ : Type} {q : Stmt γ} {r : Except Error γ}
    (h : Ends (handle i) H (attempt Error.database (.pool q)).run w r w') :
    ∃ x, H x ∧ r = (w.db.exec none x.chance q).1.mapError .database ∧
      w' = { w with db := (w.db.exec none x.chance q).2 } := by
  obtain ⟨x, hx, rfl, rfl⟩ := ends_attempt.mp h
  have hans : handle i (.pool q) x w = w.withDb (w.db.exec none x.chance q) :=
    congrArg w.withDb (Env.reply_none (hH x hx) _ _)
  exact ⟨x, hx, by rw [hans]; rfl, by rw [hans]; rfl⟩

theorem ends_getWorkItem (hH : ∀ x, H x → x.fault = none) {id : WorkId} {r : Except Error WorkItem}
    (h : Ends (handle i) H (getWorkItem id).run w r w') : w' = w ∧
      ((w.db.row id = none ∧ r = .error (.notFound ("work item " ++ WorkId.toText id))) ∨
        ∃ row item, w.db.row id = some row ∧ row.tryIntoWorkItem = .ok item ∧ r = .ok item) := by
  obtain ⟨row, m, hsel, hrest⟩ | ⟨e, rfl, hsel⟩ := ends_run_bind.mp h
  · obtain ⟨x, -, hrow, rfl⟩ := ends_pool hH hsel
    rw [Db.exec_selectById] at hrow hrest
    cases hrow
    cases hr : w.db.row id with
    | none =>
      rw [hr] at hrest
      obtain ⟨rfl, rfl⟩ := hrest
      exact ⟨rfl, .inl ⟨rfl, rfl⟩⟩
    | some row =>
      rw [hr] at hrest
      obtain ⟨item, hitem, -⟩ := row.tryIntoWorkItem_isOk
      obtain ⟨rfl, rfl⟩ := hrest
      exact ⟨rfl, .inr ⟨row, item, rfl, hitem, hitem⟩⟩
  · obtain ⟨x, -, herr, -⟩ := ends_pool hH hsel
    rw [Db.exec_selectById] at herr
    cases herr

/-- How an update ends: it finds its row elsewhere, cannot be stored, or moves the row. -/
inductive Change.Ends (c : Change) (id : WorkId) (w : World) (r : Row) :
    Except Error WorkItem → World → Prop
  | missed (hs : r.state ≠ c.source) :
      Ends c id w r (.error (.invalidTransition c.source.toText c.target.toText)) w
  | overrun {jsonb : Json → Json} {t : Sql.Timestamp} (hs : r.state = c.source)
      (happ : c.apply jsonb t r = none) :
      Ends c id w r (.error (.database .badValue)) w
  | moved {jsonb : Json → Json} {t : Sql.Timestamp} {r' : Row} {item : WorkItem} {db : Db}
      (hs : r.state = c.source) (happ : c.apply jsonb t r = some r') (hput : w.db.Puts db none r') :
      Ends c id w r (.ok item) { w with db := db }

theorem ends_casUpdate (hH : ∀ x, H x → x.fault = none) {c : Change} {id : WorkId}
    (hc : c.source.canTransitionTo c.target = true) {r : Row} (hr : w.db.row id = some r)
    {a : Except Error WorkItem} (h : Ends (handle i) H (casUpdate c id).run w a w') :
    c.Ends id w r a w' := by
  unfold casUpdate validateTransition at h
  rw [if_pos hc] at h
  obtain ⟨x, hx, h⟩ := h
  change Ends (handle i) H (attempt Error.database (.pool (.change c id x.clock)) >>= _).run w a w'
    at h
  obtain ⟨n, m, hupd, hrest⟩ | ⟨e, rfl, hupd⟩ := ends_run_bind.mp h
  · obtain ⟨y, -, hn, rfl⟩ := ends_pool hH hupd
    obtain ⟨hmiss, hne⟩ | ⟨_, _, _, _, hbad⟩ | ⟨r₀, r', db', hr₀, hs, happ, hok, hput⟩ :=
      w.db.exec_change_cases y.chance id x.clock hc
    · rw [hmiss] at hn hrest
      cases hn
      obtain ⟨rfl, rfl⟩ := hrest
      exact .missed (hne r hr)
    · rw [hbad] at hn
      cases hn
    · rw [hok] at hn hrest
      cases hn
      cases hr.symm.trans hr₀
      have hid : r'.id = id := (c.apply_identity happ).1.trans (Db.rowOf_id hr)
      obtain ⟨rfl, ⟨hnone, -⟩ | ⟨row, item, hrow, -, rfl⟩⟩ := ends_getWorkItem hH hrest
      · cases hnone.symm.trans (hid ▸ hput.rowOf_self : db'.row id = some r')
      · exact .moved hs happ hput
  · obtain ⟨y, -, hn, rfl⟩ := ends_pool hH hupd
    obtain ⟨hmiss, hne⟩ | ⟨r₀, hr₀, hs, happ, hbad⟩ | ⟨_, _, _, _, _, _, hok, _⟩ :=
      w.db.exec_change_cases y.chance id x.clock hc
    · rw [hmiss] at hn
      cases hn
    · rw [hbad] at hn ⊢
      cases hn
      cases hr.symm.trans hr₀
      exact .overrun hs happ
    · rw [hok] at hn
      cases hn

theorem ends_create {base : String} {item : WorkItem} {r : Except Error Focus}
    (h : Ends (handle i) H (Focus.create base item).run w r w') :
    ∃ dirs, w' = { w with dirs := dirs } ∧ match r with
      | .ok focus => focus.workItem = item ∧ dirs = focus.dir :: w.dirs
      | .error _ => ∃ x, H x ∧ x.io.isSome = true := by
  obtain ⟨x, -, y, hy, h⟩ := h
  simp only [handle, Env.file] at h
  cases hio : y.io with
  | some e =>
    rw [hio] at h
    obtain ⟨rfl, rfl⟩ := h
    exact ⟨_, rfl, y, hy, by rw [hio]; rfl⟩
  | none =>
    rw [hio] at h
    obtain ⟨z, hz, h⟩ := h
    simp only [handle, Env.file] at h
    cases hio : z.io with
    | some e =>
      rw [hio] at h
      obtain ⟨rfl, rfl⟩ := h
      exact ⟨_, rfl, z, hz, by rw [hio]; rfl⟩
    | none =>
      rw [hio] at h
      obtain ⟨v, hv, h⟩ := h
      simp only [handle, Env.file] at h
      cases hio : v.io with
      | some e =>
        rw [hio] at h
        obtain ⟨rfl, rfl⟩ := h
        exact ⟨_, rfl, v, hv, by rw [hio]; rfl⟩
      | none =>
        rw [hio] at h
        obtain ⟨rfl, rfl⟩ := h
        exact ⟨_, rfl, rfl, rfl⟩

/-- A focus run counts itself and leaves the rest of the world alone. -/
theorem ends_run {focus : Focus} {faculty : FacultyMeta} {result : FocusResult}
    (h : Ends (handle i) H (focus.run faculty) w result w') :
    w' = w.count focus.workItem.id := by
  obtain ⟨p, hp, hworks⟩ := Focus.run_works (fun _ _ => True) focus faculty
  rw [hp] at h
  obtain ⟨x, -, h⟩ := h
  refine Ends.keeps (I := fun m => m = w.count focus.workItem.id) (fun _ _ _ => trivial) ?_ hworks h
    rfl
  rintro β e he x m rfl
  cases e <;> first | rfl | exact he.elim

theorem ends_cleanup {focus : Focus} {r : Except Error Unit}
    (h : Ends (handle i) H focus.cleanup.run w r w') :
    w' = { w with dirs := w.dirs.filter (· ≠ focus.dir) } ∨
      w' = w ∧ ∃ x, H x ∧ x.io.isSome = true := by
  obtain ⟨x, hx, -, rfl⟩ := ends_attempt.mp h
  simp only [handle, Env.file]
  cases hio : x.io with
  | none => exact .inl rfl
  | some e => exact .inr ⟨rfl, x, hx, by rw [hio]; rfl⟩

end Operations

/-! ### Retiring -/

/-- What becomes of the message of a retired item: that of a completed one is archived. -/
def FocusResult.settle (m : ℤ) (db : Db) : FocusResult → Db
  | .completed _ _ => db.archiveMessage m
  | .failed _ _ _ => db

section Retire

variable {i : CallId} {H : Env → Prop} {w w' : World}

theorem FocusResult.change_source (result : FocusResult) : result.change.source = .running := by
  cases result <;> rfl

theorem FocusResult.change_apply (result : FocusResult) (jsonb : Json → Json) (t : Sql.Timestamp)
    (r : Row) : result.change.apply jsonb t r ≠ none := by
  cases result <;> exact Option.some_ne_none _

/-- The retirement of a running row moves it and settles its message. -/
theorem ends_retire (hH : ∀ x, H x → x.fault = none) {msg : PgmqMessage} {id : WorkId} {r : Row}
    (hr : w.db.row id = some r) (hs : r.state = .running) {result : FocusResult}
    {a : Except Error Unit} (h : Ends (handle i) H (retire msg id result).run w a w') :
    ∃ db r', a = .ok () ∧ r.Moved [result.change] r' ∧ w.db.Puts db none r' ∧
      w' = { w with db := result.settle msg.msgId db } := by
  have hupdate : ∀ {b m}, Ends (handle i) H (casUpdate result.change id).run w b m →
      ∃ item db r', b = .ok item ∧ r.Moved [result.change] r' ∧ w.db.Puts db none r' ∧
        m = { w with db := db } := by
    intro b m hb
    have hc : result.change.source.canTransitionTo result.change.target = true := by
      cases result <;> rfl
    cases ends_casUpdate hH hc hr hb with
    | missed hne => exact absurd (hs.trans result.change_source.symm) hne
    | overrun _ hnone => exact absurd hnone (result.change_apply _ _ _)
    | moved _ happ hput => exact ⟨_, _, _, rfl, .cons happ (.nil _), hput, rfl⟩
  cases result with
  | completed data ms =>
    obtain ⟨x, -, h⟩ := h
    obtain ⟨item, m, hupd, hrest⟩ | ⟨e, rfl, hupd⟩ := ends_run_bind.mp h
    · obtain ⟨_, db, r', -, hmoved, hput, rfl⟩ := hupdate hupd
      obtain ⟨y, -, rfl, rfl⟩ := ends_pool hH hrest
      exact ⟨db, r', rfl, hmoved, hput, rfl⟩
    · obtain ⟨_, _, _, hbad, -⟩ := hupdate hupd
      cases hbad
  | failed phase error ms =>
    obtain ⟨x, -, h⟩ := h
    obtain ⟨item, m, hupd, hrest⟩ | ⟨e, rfl, hupd⟩ := ends_run_bind.mp h
    · obtain ⟨_, db, r', -, hmoved, hput, rfl⟩ := hupdate hupd
      obtain ⟨rfl, rfl⟩ := hrest
      exact ⟨db, r', rfl, hmoved, hput, rfl⟩
    · obtain ⟨_, _, _, hbad, -⟩ := hupdate hupd
      cases hbad

end Retire

/-! ### The whole call -/

section Whole

variable (cp : ControlPlane) (i : CallId) (H : Env → Prop)

/-- How the work on a routed item ends, from its row and what was read of it. -/
inductive ControlPlane.Works (w : World) (m : ℤ) (r : Row) (item : WorkItem)
    (faculty : FacultyMeta) : Except Error Unit → World → Prop
  /-- The claim finds the row elsewhere. -/
  | refused (hs : r.state ≠ .queued) :
    Works w m r item faculty (.error (.invalidTransition "queued" "claimed")) w
  /-- The attempt counter is at its limit: the row is left claimed. -/
  | overrun {db : Db} {r' : Row} (hs : r.state = .queued)
      (hfull : ¬ Sql.Value.inInt4 (r.attempts + 1))
      (hmoved : r.Moved [.transition .queued .claimed] r') (hput : w.db.Puts db none r') :
    Works w m r item faculty (.error (.database .badValue)) { w with db := db }
  /-- The focus is not created: the row is left running, and its slot taken. -/
  | uncreated {db : Db} {r' : Row} {dirs : List String} {e : Error} (hs : r.state = .queued)
      (hmoved : r.Moved starting r') (hput : w.db.Puts db none r')
      (hio : ∃ x, H x ∧ x.io.isSome = true) :
    Works w m r item faculty (.error e)
      ⟨db, Function.update w.active cp.plane (w.active cp.plane + 1), dirs, w.started⟩
  /-- The row is retired with the result of a focus run. -/
  | retired {db : Db} {r' : Row} {dirs : List String} {focus : Focus} {result : FocusResult}
      {v v' : World} (hs : r.state = .queued) (hfit : Sql.Value.inInt4 (r.attempts + 1))
      (hitem : focus.workItem = item)
      (hrun : Ends (handle i) H (focus.run faculty) v result v')
      (hmoved : r.Moved (starting ++ [result.change]) r') (hput : w.db.Puts db none r')
      (hdirs : dirs = w.dirs.filter (· ≠ focus.dir) ∨
        dirs = focus.dir :: w.dirs ∧ ∃ x, H x ∧ x.io.isSome = true) :
    Works w m r item faculty (.ok ())
      { w.count item.id with db := result.settle m db, dirs := dirs }

/-- How a call ends that took a message, in the world where the message is hidden. -/
inductive ControlPlane.Handles (w : World) (msg : Message) : Except Error Unit → World → Prop
  | unnamed (hid : extractId msg.message = none) :
    Handles w msg (.error (.other "bad pgmq payload: missing work_item_id")) w
  | missing {id : WorkId} (hid : extractId msg.message = some id) (hr : w.db.row id = none) :
    Handles w msg (.error (.notFound ("work item " ++ WorkId.toText id))) w
  | unrouted {id : WorkId} {r : Row} (hid : extractId msg.message = some id)
      (hr : w.db.row id = some r) (hf : cp.registry r.faculty = none) : Handles w msg (.ok ()) w
  | routed {id : WorkId} {r : Row} {item : WorkItem} {faculty : FacultyMeta}
      {a : Except Error Unit} {w' : World} (hid : extractId msg.message = some id)
      (hr : w.db.row id = some r) (hitem : r.tryIntoWorkItem = .ok item)
      (hf : cp.registry r.faculty = some faculty)
      (h : cp.Works i H w msg.msgId r item faculty a w') : Handles w msg a w'

/-- How a `process_work` call ends. -/
inductive ControlPlane.Polls (k : ℕ) (w : World) : Except Error Unit → World → Prop
  | full (hcap : cp.maxConcurrent ≤ w.active cp.plane) : Polls k w (.ok ()) w
  | empty (hcap : w.active cp.plane < cp.maxConcurrent) (hnone : w.db.readable[k]? = none) :
    Polls k w (.ok ()) w
  | took {msg : Message} {a : Except Error Unit} {w' : World}
      (hcap : w.active cp.plane < cp.maxConcurrent) (hmsg : w.db.readable[k]? = some msg)
      (h : cp.Handles i H { w with db := w.db.setHidden msg.msgId true } msg a w') : Polls k w a w'

variable {cp i H} {w w' : World} {a : Except Error Unit}

theorem claim_apply {jsonb : Json → Json} {t : Sql.Timestamp} {r : Row}
    (h : Sql.Value.inInt4 r.attempts) :
    (Change.transition .queued .claimed).apply jsonb t r ≠ none := by
  intro hnone
  simp only [Change.apply, reduceCtorEq, if_false, Int.add_zero, h, if_true] at hnone

theorem start_apply {jsonb : Json → Json} {t : Sql.Timestamp} {r : Row} :
    (Change.transition .claimed .running).apply jsonb t r = none ↔
      ¬ Sql.Value.inInt4 (r.attempts + 1) := by
  simp [Change.apply]

/-- The claim and the start of a row, and what is left of it where they stop. -/
theorem ends_start (hH : ∀ x, H x → x.fault = none) {id : WorkId} {r : Row}
    (hr : w.db.row id = some r) (hatt : Sql.Value.inInt4 r.attempts)
    {rest : Fallible Eff Error Unit} (h : Ends (handle i) H (do
      perform (.recordStateTransition id "queued" "claimed")
      let _ ← transitionState id .queued .claimed
      perform (.recordStateTransition id "claimed" "running")
      let _ ← transitionState id .claimed .running
      rest : Fallible Eff Error Unit).run w a w') :
    (r.state ≠ .queued ∧ a = .error (.invalidTransition "queued" "claimed") ∧ w' = w) ∨
    r.state = .queued ∧ ((¬ Sql.Value.inInt4 (r.attempts + 1) ∧
        a = .error (.database .badValue) ∧ ∃ db r', r.Moved [.transition .queued .claimed] r' ∧
          w.db.Puts db none r' ∧ w' = { w with db := db }) ∨
      Sql.Value.inInt4 (r.attempts + 1) ∧ ∃ db r', r.Moved starting r' ∧ w.db.Puts db none r' ∧
        Ends (handle i) H rest.run { w with db := db } a w') := by
  obtain ⟨x, -, h⟩ := h
  obtain ⟨item, v, hclaim, h⟩ | ⟨e, rfl, hclaim⟩ := ends_run_bind.mp h
  · cases ends_casUpdate hH rfl hr hclaim with
    | @moved _ t r₁ _ db hs happ hput =>
      refine .inr ⟨hs, ?_⟩
      obtain ⟨hst, -, hatt₁⟩ := Change.apply_state _ happ
      have hid : r₁.id = id := (Change.apply_identity _ happ).1.trans (Db.rowOf_id hr)
      have hr₁ : db.row id = some r₁ := hid ▸ hput.rowOf_self
      have hatt₁ : r₁.attempts = r.attempts := hatt₁.trans (Int.add_zero _)
      obtain ⟨y, -, h⟩ := h
      obtain ⟨item₂, v, hstart, h⟩ | ⟨e, rfl, hstart⟩ := ends_run_bind.mp h
      · cases ends_casUpdate (w := { w with db := db }) hH rfl hr₁ hstart with
        | @moved _ t₂ r₂ _ db₂ _ happ₂ hput₂ =>
          have hfit : Sql.Value.inInt4 (r.attempts + 1) := by
            by_contra hfull
            rw [← hatt₁] at hfull
            cases (start_apply.mpr hfull).symm.trans happ₂
          exact .inr ⟨hfit, db₂, r₂, .cons happ (.cons happ₂ (.nil _)),
            hput.trans hput₂ (Change.apply_identity _ happ₂).1, h⟩
      · cases ends_casUpdate (w := { w with db := db }) hH rfl hr₁ hstart with
        | missed hne => exact absurd hst hne
        | overrun _ hnone =>
          exact .inl ⟨hatt₁ ▸ start_apply.mp hnone, rfl, db, r₁, .cons happ (.nil _), hput, rfl⟩
  · cases ends_casUpdate hH rfl hr hclaim with
    | missed hs => exact .inl ⟨hs, rfl, rfl⟩
    | overrun _ hnone => exact absurd hnone (claim_apply hatt)

/-- A slot that is taken and given back. -/
theorem update_taken (active : PlaneId → ℕ) (p : PlaneId) :
    Function.update (Function.update active p (active p + 1)) p
      (Function.update active p (active p + 1) p - 1) = active := by
  rw [Function.update_self, Function.update_idem, Nat.add_sub_cancel, Function.update_eq_self]

/-- The work on a routed item ends in one of the ways listed. -/
theorem ends_runWork (hH : ∀ x, H x → x.fault = none) {msg : PgmqMessage} {id : WorkId} {r : Row}
    {item : WorkItem} {faculty : FacultyMeta} (hr : w.db.row id = some r)
    (hitem : r.tryIntoWorkItem = .ok item) (hatt : Sql.Value.inInt4 r.attempts)
    (h : Ends (handle i) H (runWork cp msg id item faculty).run w a w') :
    cp.Works i H w msg.msgId r item faculty a w' := by
  obtain ⟨hs, rfl, rfl⟩ | ⟨hs, ⟨hfull, rfl, db, r', hmoved, hput, rfl⟩ |
    ⟨hfit, db, r', hmoved, hput, h⟩⟩ := ends_start hH hr hatt h
  · exact .refused hs
  · exact .overrun hs hfull hmoved hput
  · obtain ⟨x, -, h⟩ := h
    obtain ⟨focus, v, hcreate, h⟩ | ⟨e, rfl, hcreate⟩ := ends_run_bind.mp h
    · obtain ⟨dirs, rfl, rfl, rfl⟩ := ends_create hcreate
      obtain ⟨result, v, hrun, h⟩ := ends_lift_bind.mp h
      obtain rfl := ends_run hrun
      obtain ⟨y, -, h⟩ := h
      have hid : r'.id = id := hmoved.identity.1.trans (Db.rowOf_id hr)
      have hr' : db.row id = some r' := hid ▸ hput.rowOf_self
      have hlast : r.Moved ([.transition .queued .claimed] ++ [.transition .claimed .running]) r' :=
        hmoved
      have hst : r'.state = .running := hlast.state
      obtain ⟨u, v, hret, h⟩ | ⟨e, rfl, hret⟩ := ends_run_bind.mp h
      · obtain ⟨db₂, r₂, -, hmoved₂, hput₂, rfl⟩ := ends_retire hH hr' hst hret
        obtain ⟨c, v, hclean, rfl, rfl⟩ := ends_lift_bind.mp h
        have hend : ∀ active dirs, active = w.active → (dirs = w.dirs.filter (· ≠ focus.dir) ∨
            dirs = focus.dir :: w.dirs ∧ ∃ x, H x ∧ x.io.isSome = true) →
            cp.Works i H w msg.msgId r focus.workItem faculty (.ok ())
              ⟨result.settle msg.msgId db₂, active, dirs, (w.count focus.workItem.id).started⟩ := by
          rintro _ dirs rfl hdirs
          exact .retired hs hfit rfl hrun (hmoved.append hmoved₂)
            (hput.trans hput₂ hmoved₂.identity.1) hdirs
        -- the slot that was taken is given back
        have hactive := update_taken w.active cp.plane
        obtain rfl | ⟨rfl, hio⟩ := ends_cleanup hclean
        · exact hend _ _ hactive (.inl (List.filter_cons_of_neg (by simp)))
        · exact hend _ _ hactive (.inr ⟨rfl, hio⟩)
      · obtain ⟨db₂, r₂, hbad, -⟩ := ends_retire hH hr' hst hret
        cases hbad
    · obtain ⟨dirs, rfl, hio⟩ := ends_create hcreate
      exact .uncreated hs hmoved hput hio

theorem exec_pgmqRead_none {db : Db} {ch : Chance} {vt : ℤ} (h : db.readable[ch.pick]? = none) :
    db.exec none ch (.pgmqRead vt) = (.ok none, db) := by
  rw [Db.exec, h]

theorem exec_pgmqRead_some {db : Db} {ch : Chance} {vt : ℤ} {msg : Message}
    (h : db.readable[ch.pick]? = some msg) : db.exec none ch (.pgmqRead vt) =
      (.ok (some ⟨msg.msgId, msg.message⟩), db.setHidden msg.msgId true) := by
  rw [Db.exec, h]

/-- What becomes of the item of a message that was taken. -/
theorem ends_handle (hH : ∀ x, H x → x.fault = none) {msg : Message}
    (hatt : ∀ id r, w.db.row id = some r → Sql.Value.inInt4 r.attempts)
    (h : Ends (handle i) H (match extractId msg.message with
      | none => throw (.other "bad pgmq payload: missing work_item_id")
      | some workId => do
        let item ← getWorkItem workId
        match cp.registry item.faculty with
        | none => pure ()
        | some faculty => runWork cp ⟨msg.msgId, msg.message⟩ workId item faculty :
      Fallible Eff Error Unit).run w a w') : cp.Handles i H w msg a w' := by
  cases hid : extractId msg.message with
  | none =>
    rw [hid] at h
    obtain ⟨rfl, rfl⟩ := h
    exact .unnamed hid
  | some id =>
    rw [hid] at h
    obtain ⟨item, m, hread, hrest⟩ | ⟨e, rfl, hread⟩ := ends_run_bind.mp h
    · obtain ⟨rfl, ⟨-, hbad⟩ | ⟨r, item, hr, hitem, heq⟩⟩ := ends_getWorkItem hH hread
      · cases hbad
      · cases heq
        obtain ⟨-, hfac, -⟩ := Row.of_read hitem
        cases hf : cp.registry r.faculty with
        | none =>
          simp only [hfac, hf] at hrest
          obtain ⟨rfl, rfl⟩ := hrest
          exact .unrouted hid hr hf
        | some faculty =>
          simp only [hfac, hf] at hrest
          exact .routed hid hr hitem hf (ends_runWork hH hr hitem (hatt id r hr) hrest)
    · obtain ⟨rfl, ⟨hr, hbad⟩ | ⟨r, item, -, -, hbad⟩⟩ := ends_getWorkItem hH hread
      · cases hbad
        exact .missing hid hr
      · cases hbad

/-- Every run of `process_work` ends in one of the ways listed. -/
theorem processWork_polls {k : ℕ} (hH : ∀ x, H x → x.Serves k)
    (hatt : ∀ id r, w.db.row id = some r → Sql.Value.inInt4 r.attempts)
    (h : Ends (handle i) H (processWork cp).run w a w') : cp.Polls i H k w a w' := by
  have hfault : ∀ x, H x → x.fault = none := fun x hx => (hH x hx).1
  obtain ⟨x, -, h⟩ := h
  change Ends (handle i) H (if cp.maxConcurrent ≤ w.active cp.plane then _ else _ :
    Fallible Eff Error Unit).run w a w' at h
  split at h
  · next hcap =>
    obtain ⟨rfl, rfl⟩ := h
    exact .full hcap
  · next hcap =>
    rw [not_le] at hcap
    obtain ⟨msg, m, hread, h⟩ | ⟨e, rfl, hread⟩ := ends_run_bind.mp h
    · obtain ⟨y, hy, hmsg, rfl⟩ := ends_pool hfault hread
      cases hk : w.db.readable[k]? with
      | none =>
        rw [exec_pgmqRead_none ((hH y hy).2 ▸ hk)] at hmsg h
        cases hmsg
        obtain ⟨rfl, rfl⟩ := h
        exact .empty hcap hk
      | some msg =>
        rw [exec_pgmqRead_some ((hH y hy).2 ▸ hk)] at hmsg h
        cases hmsg
        exact .took hcap hk (ends_handle hfault hatt h)
    · obtain ⟨y, hy, hmsg, rfl⟩ := ends_pool hfault hread
      cases hk : w.db.readable[y.chance.pick]? with
      | none =>
        rw [exec_pgmqRead_none hk] at hmsg
        cases hmsg
      | some msg =>
        rw [exec_pgmqRead_some hk] at hmsg
        cases hmsg

end Whole

/-! ### Waiting for others -/

/-- Only an insert waits. -/
def Eff.inserts : {β : Type} → Eff β → Bool
  | _, .tx (.insertOnConflict _ _ _ _) | _, .tx (.insertPlain _ _ _) => true
  | _, .tx (.insertMerged _ _ _ _) | _, .pool (.insertOnConflict _ _ _ _) => true
  | _, .pool (.insertPlain _ _ _) | _, .pool (.insertMerged _ _ _ _) => true
  | _, _ => false

theorem Eff.inserts_of_passive {β : Type} {e : Eff β} (h : e.passive = true) :
    e.inserts = false := by
  cases e with
  | pool q => cases q <;> first | rfl | cases h
  | tx q => cases h
  | _ => rfl

theorem not_blocked (i : CallId) (env : Env) (w : World) {β : Type} {e : Eff β}
    (h : e.inserts = false) : blocked i env w e = false := by
  cases e with
  | tx q => cases q <;> first | rfl | cases h
  | pool q => cases q <;> first | rfl | cases h
  | _ => rfl

/-- A call whose protocol has no insert waits for nobody. -/
theorem Op.unblocked {op : Op}
    (hop : ∀ ph {β : Type} (e : Eff β), op.protocol.allowed ph e → e.inserts = false)
    (i : CallId) (env : ℕ → Env) (w : World) : unblocked i op.prog env w = true := by
  have go : ∀ (p : Prog Eff (Except Error op.Result)) ph env w,
      op.protocol.Obeys op.Returns ph p → Animus.unblocked i p env w = true := by
    intro p
    induction p with
    | ret a => exact fun _ _ _ _ => rfl
    | eff e k ih =>
      intro ph env w hp
      rw [Animus.unblocked, not_blocked i (env 0) w (hop ph e hp.1), Bool.not_false, Bool.true_and]
      refine ih _ _ _ _ (hp.2 _ ?_)
      rw [op.answers_eq]
      exact handle_answers i e (env 0) w
  exact go op.prog op.first env w op.prog_obeys

theorem processWork_unblocked (cp : ControlPlane) (i : CallId) (env : ℕ → Env) (w : World) :
    unblocked i (Op.process cp).prog env w = true := by
  refine Op.unblocked ?_ i env w
  intro ph β e ha
  change planeAllowed cp ph e at ha
  cases planeEff_of ha with
  | passive he => exact Eff.inserts_of_passive he
  | _ => rfl

theorem casUpdate_unblocked (c : Change) (id : WorkId) (i : CallId) (env : ℕ → Env) (w : World) :
    unblocked i (Op.change c id).prog env w = true := by
  refine Op.unblocked ?_ i env w
  intro ph β e ha
  change changeAllowed c id ph e at ha
  cases e with
  | pool q => cases q <;> first | rfl | (cases ph <;> exact ha.elim)
  | tx q => cases ph <;> exact ha.elim
  | _ => rfl

/-- The system can run a call to the end of its program, and the world is then where a big step of
the program ends. -/
theorem Sys.exists_run_ends {clients : Op → Bool} {s : Sys} {i : CallId} {op : Op}
    (hi : s.calls i = .idle) (hop : clients op = true)
    (hfree : ∀ env w, Animus.unblocked i op.prog env w = true) {H : Env → Prop} {x : Env}
    (hx : H x) : ∃ ls s' a, (system clients).Run s ls s' ∧
      Ends (handle i) H op.prog s.world a s'.world := by
  obtain ⟨s', ph', hrun, -, hworld⟩ := run_alone hi hop (hfree (fun _ => x) s.world)
  have hends : Ends (handle i) H op.prog s.world _ _ := ends_interp (fun _ => hx) op.prog s.world
  exact ⟨_, s', _, hrun, hworld ▸ hends⟩

/-! ### Hooks that succeed -/

/-- The database reports no error, files can be read and written, every hook ends with exit code
0, and every outcome file holds some data. -/
structure Env.Healthy (k : ℕ) (env : Env) : Prop where
  serves : env.Serves k
  io : env.io = none
  exit : env.exit = some 0
  data : ∃ data, env.json = .ok data

section Healthy

variable {i : CallId} {H : Env → Prop} {k : ℕ} {w w' : World} {focus : Focus}

theorem ends_runHook_healthy (hH : ∀ x, H x → x.Healthy k) {phase command : String}
    {a : Except Error Unit} (h : Ends (handle i) H (focus.runHook phase command).run w a w') :
    a = .ok () := by
  have hstatus : ∀ {absCommand w}, Ends (handle i) H (do
      let code ← attempt .io (.status absCommand focus.dir
        [("ANIMUS_FOCUS_DIR", focus.dir), ("ANIMUS_FACULTY", focus.workItem.faculty),
          ("ANIMUS_WORK_ID", focus.workItem.id.hyphenated), ("ANIMUS_PHASE", phase)])
      if code = some 0 then pure ()
      else throw (.other (phase ++ " hook exited with status " ++ toString (code.getD (-1)))) :
      Fallible Eff Error Unit).run w a w' → a = .ok () := by
    rintro absCommand w ⟨x, hx, h⟩
    simp only [handle, Env.file, (hH x hx).io, (hH x hx).exit] at h
    exact h.1
  unfold Focus.runHook Focus.resolveCommand at h
  by_cases hrel : isRelative command = true
  · rw [if_pos hrel] at h
    obtain ⟨x, hx, h⟩ := h
    simp only [handle, Env.file, (hH x hx).io] at h
    exact hstatus h
  · rw [if_neg hrel] at h
    exact hstatus h

theorem ends_runPhases_healthy (hH : ∀ x, H x → x.Healthy k) {hooks : List (String × String)}
    {failure : Option FocusResult} (h : Ends (handle i) H (focus.runPhases hooks) w failure w') :
    failure = none := by
  induction hooks generalizing w with
  | nil => exact h.1
  | cons hook hooks ih =>
    obtain ⟨a, m, hhook, h⟩ := ends_bind.mp h
    obtain rfl := ends_runHook_healthy hH hhook
    exact ih h

/-- A focus run completes where the hooks and the files are as they should be. -/
theorem ends_run_healthy (hH : ∀ x, H x → x.Healthy k) {faculty : FacultyMeta}
    {result : FocusResult} (h : Ends (handle i) H (focus.run faculty) w result w') :
    ∃ data ms, result = .completed data ms := by
  obtain ⟨_, _, -, h⟩ := ends_bind.mp h
  obtain ⟨failure, m, hphases, h⟩ := ends_bind.mp h
  obtain rfl := ends_runPhases_healthy hH hphases
  obtain ⟨y, -, z, hz, h⟩ := h
  simp only [handle, Env.file, (hH z hz).io] at h
  obtain ⟨v, hv, h⟩ := h
  obtain ⟨data, hdata⟩ := (hH v hv).data
  simp only [handle, hdata] at h
  obtain ⟨u, -, rfl, -⟩ := h
  exact ⟨data, _, rfl⟩

end Healthy

end Animus
