import Animus.Db.Spec
import Animus.Db.Work

/-!
# Errors of the store operations

An operation that runs alone against a store whose statements may report an
error. What it wrote inside its transaction is dropped with the transaction;
what it committed before a failing read of the row stays.

## Main definitions

- `runAlone`: a run of an operation, with its transaction dropped at the end
- `Db.SameStore`: the same rows and the same messages
- `NoTrace`: an operation that reports an error left the store as it was

## Main results

- `store_errors_leave_no_trace_iff`
- `store_errors_leave_a_trace`: an item that is claimed although `Err` was returned
-/

namespace Animus

open Effect Effect.Fallible

/-- The same rows, messages and archived messages. -/
structure Db.SameStore (db db' : Db) : Prop where
  rowOf : ∀ tag k, db'.rowOf tag k = db.rowOf tag k
  queue : db'.queue = db.queue
  archive : db'.archive = db.archive

/-- Call `i` has written nothing. -/
structure Db.Idle (db : Db) (i : CallId) : Prop where
  rowOf : ∀ k, db.rowOf (some i) k = none
  queue : ∀ msg ∈ db.queue, msg.txn ≠ some i

theorem Db.Idle.of_all {db : Db} {i : CallId}
    (hrows : (db.table.rows.all fun v => v.txn ≠ some i) = true)
    (hqueue : (db.queue.all fun m => m.txn ≠ some i) = true) : db.Idle i where
  rowOf k := by
    by_contra hne
    obtain ⟨r, hr⟩ := Option.ne_none_iff_exists'.mp hne
    have := List.all_eq_true.mp hrows _ (Db.rowOf_eq_some.mp hr).1
    simp at this
  queue msg hmsg := of_decide_eq_true (List.all_eq_true.mp hqueue msg hmsg)

/-- Dropping the transaction of call `i` leads back to `db`. -/
def Db.Undoes (db : Db) (i : CallId) (db' : Db) : Prop := db.SameStore (db'.rollback i)

section Undoes

variable {db db₁ db₂ : Db} {i : CallId} {r : Row}

theorem Db.Idle.undoes (h : db.Idle i) : db.Undoes i db where
  rowOf tag k := by
    rw [Db.rowOf_rollback]
    split
    · next ht => rw [ht, h.rowOf]
    · rfl
  queue := List.filter_eq_self.mpr fun msg hmsg => decide_eq_true (h.queue msg hmsg)
  archive := rfl

theorem Db.Undoes.puts (h : db.Undoes i db₁) (hput : db₁.Puts db₂ (some i) r) :
    db.Undoes i db₂ where
  rowOf tag k := by
    have hk := h.rowOf tag k
    rw [Db.rowOf_rollback] at hk ⊢
    split
    · next ht => rwa [if_pos ht] at hk
    · next ht => rwa [if_neg ht, ← hput.rowOf_ne_tag ht] at hk
  queue := by
    rw [← h.queue]
    exact congrArg (List.filter fun m => m.txn ≠ some i) hput.queue
  archive := hput.archive.trans h.archive

theorem Db.Undoes.send (h : db.Undoes i db₁) (payload : Json) :
    db.Undoes i (db₁.send (some i) payload) where
  rowOf tag k := by
    rw [← h.rowOf tag k, Db.rowOf_rollback, Db.rowOf_rollback, Db.rowOf_send]
  queue := by
    refine Eq.trans ?_ h.queue
    simp [Db.rollback, Db.send]
  archive := h.archive

end Undoes

/-- A statement that reports an error has no effect. -/
def Env.harmless (env : Env) : Prop := ∀ f, env.fault = some f → f.took = false

/-- A reported error leaves the store as it was, once the transaction is dropped. -/
def NoTrace {α : Type} (db : Db) (i : CallId) (out : Except Error α × World) : Prop :=
  ∀ e, out.1 = .error e → db.Undoes i out.2.db

section Rules

variable {db : Db} {i : CallId} {env : ℕ → Env} {w : World} {α γ : Type}

theorem NoTrace.ok {a : α} : NoTrace db i (.ok a, w) := fun e h => by cases h

theorem NoTrace.error {e : Error} (h : db.Undoes i w.db) :
    NoTrace db i ((.error e, w) : Except Error α × World) := fun _ _ => h

theorem Env.reply_harmless {env : Env} (h : env.harmless) {f : Fault} (hf : env.fault = some f)
    (db : Db) (r : Except DbError γ × Db) : env.reply db r = (.error f.error, db) := by
  simp [Env.reply, hf, h f hf]

theorem Env.reply_none {env : Env} (hf : env.fault = none) (db : Db) (r : Except DbError γ × Db) :
    env.reply db r = r := by
  simp [Env.reply, hf]

variable {e : Eff (Except DbError γ)} {f : γ → Fallible Eff Error α} {r : Except DbError γ × Db}

/-- A database effect at which an error is reported. -/
theorem interp_attempt_fault {flt : Fault} (hh : (env 0).harmless) (hf : (env 0).fault = some flt)
    (heff : handle i e (env 0) w = w.withDb ((env 0).reply w.db r)) :
    (Fallible.attempt .database e >>= f).run.interp (handle i) env w =
      (.error (.database flt.error), w) := by
  rw [Env.reply_harmless hh hf] at heff
  exact interp_attempt_error (handle i) env w heff

/-- A database effect with a fault, which may have taken effect. -/
theorem interp_attempt_some {flt : Fault} (hf : (env 0).fault = some flt)
    (heff : handle i e (env 0) w = w.withDb ((env 0).reply w.db r)) :
    ((Fallible.attempt .database e >>= f).run.interp (handle i) env w).1 =
      .error (.database flt.error) := by
  rw [Env.reply, hf] at heff
  rw [interp_attempt_error (handle i) env w heff]

/-- A database effect without a fault. -/
theorem interp_attempt_none {a : γ} {db' : Db} (hf : (env 0).fault = none)
    (heff : handle i e (env 0) w = w.withDb ((env 0).reply w.db r)) (hr : r = (.ok a, db')) :
    (Fallible.attempt .database e >>= f).run.interp (handle i) env w =
      (f a).run.interp (handle i) (fun n => env (n + 1)) { w with db := db' } := by
  rw [Env.reply_none hf, hr] at heff
  exact interp_attempt_ok (handle i) env w heff

/-- An attempt that a run gets past was answered. -/
theorem interp_attempt_answered {a : α} {w' : World}
    (heff : handle i e (env 0) w = w.withDb ((env 0).reply w.db r))
    (h : (Fallible.attempt .database e >>= f).run.interp (handle i) env w = (.ok a, w')) :
    ∃ b db', (env 0).fault = none ∧ r = (.ok b, db') ∧
      (f b).run.interp (handle i) (fun n => env (n + 1)) { w with db := db' } = (.ok a, w') := by
  obtain ⟨answer, db'⟩ := r
  cases hf : (env 0).fault with
  | some flt =>
    have hfault := congrArg Prod.fst h
    rw [interp_attempt_some hf heff] at hfault
    cases hfault
  | none =>
    cases answer with
    | ok b => exact ⟨b, db', rfl, rfl, (interp_attempt_none hf heff rfl).symm.trans h⟩
    | error d =>
      rw [Env.reply_none hf] at heff
      rw [interp_attempt_error (handle i) env w heff] at h
      cases h

/-- The rule of a database effect: an error of it, or of what follows. -/
theorem NoTrace.attempt (hh : (env 0).harmless) (hw : db.Undoes i w.db)
    (heff : handle i e (env 0) w = w.withDb ((env 0).reply w.db r))
    (herr : ∀ d db', r = (.error d, db') → db' = w.db)
    (hok : ∀ a db', (env 0).fault = none → r = (.ok a, db') →
      NoTrace db i ((f a).run.interp (handle i) (fun n => env (n + 1)) { w with db := db' })) :
    NoTrace db i ((Fallible.attempt .database e >>= f).run.interp (handle i) env w) := by
  obtain ⟨a, db'⟩ := r
  cases hf : (env 0).fault with
  | some flt =>
    rw [interp_attempt_fault hh hf heff]
    exact .error hw
  | none =>
    cases a with
    | ok a =>
      rw [interp_attempt_none hf heff rfl]
      exact hok a db' hf rfl
    | error d =>
      rw [Env.reply_none hf] at heff
      rw [interp_attempt_error (handle i) env w heff]
      exact .error (herr d db' rfl ▸ hw)

end Rules

/-! ### Reading the row back -/

section ReadBack

variable {i : CallId} {env : ℕ → Env} {w : World} {id : WorkId} {r : Row}

variable (env) in
/-- The read of a row that is there, where the database reports no error. -/
theorem getWorkItem_reads (hf : (env 0).fault = none) (hr : w.db.row id = some r) :
    ∃ item, r.tryIntoWorkItem = .ok item ∧
      (getWorkItem id).run.interp (handle i) env w = (.ok item, w) := by
  obtain ⟨item, hitem, -⟩ := r.tryIntoWorkItem_isOk
  have hsel := w.db.exec_selectById (env 0).chance id
  rw [hr] at hsel
  refine ⟨item, hitem, (interp_attempt_none hf rfl hsel).trans ?_⟩
  simp only [hitem]
  rfl

/-- A read that returns an item found its row, and leaves the world as it is. -/
theorem getWorkItem_ok {item : WorkItem} {w' : World}
    (h : (getWorkItem id).run.interp (handle i) env w = (.ok item, w')) :
    ∃ r, w.db.row id = some r ∧ r.tryIntoWorkItem = .ok item ∧ w' = w := by
  obtain ⟨row, db', -, hsel, h⟩ := interp_attempt_answered rfl h
  cases (w.db.exec_selectById (env 0).chance id).symm.trans hsel
  cases hr : w.db.row id with
  | none =>
    rw [hr] at h
    cases h
  | some r =>
    rw [hr] at h
    exact ⟨r, rfl, congrArg Prod.fst h, (congrArg Prod.snd h).symm⟩

variable (env) in
/-- The read of a row that is there returns its item, unless the database reports an error. -/
theorem getWorkItem_interp (hh : (env 0).harmless) (hr : w.db.row id = some r) :
    (∃ item, (env 0).fault = none ∧
      (getWorkItem id).run.interp (handle i) env w = (.ok item, w)) ∨
    ∃ flt, (env 0).fault = some flt ∧
      (getWorkItem id).run.interp (handle i) env w = (.error (.database flt.error), w) := by
  cases hf : (env 0).fault with
  | some flt => exact .inr ⟨flt, rfl, interp_attempt_fault hh hf rfl⟩
  | none =>
    obtain ⟨item, -, hread⟩ := getWorkItem_reads env (i := i) hf hr
    exact .inl ⟨item, rfl, hread⟩

end ReadBack

/-! ### The compare-and-swap updates -/

section CasUpdate

variable {i : CallId} {env : ℕ → Env} {w : World} {c : Change} {id : WorkId}

/-- The update reaches its row: it is allowed, it finds the row in its source state, and no
error is reported before it took effect. -/
def Change.Takes (c : Change) (env : ℕ → Env) (db : Db) (id : WorkId) : Prop :=
  c.source.canTransitionTo c.target = true ∧ (env 1).fault = none ∧
    ∃ r r', db.row id = some r ∧ r.state = c.source ∧
      c.apply (env 1).chance.jsonb (env 0).clock r = some r'

theorem casUpdate_refused (h : ¬ c.source.canTransitionTo c.target = true) :
    (casUpdate c id).run.interp (handle i) env w =
      (.error (.invalidTransition c.source.toText c.target.toText), w) := by
  unfold casUpdate validateTransition
  rw [if_neg h]
  rfl

theorem casUpdate_allowed (h : c.source.canTransitionTo c.target = true) :
    (casUpdate c id).run.interp (handle i) env w =
      (Fallible.attempt .database (.pool (.change c id (env 0).clock)) >>= fun rowsAffected =>
        if rowsAffected = 0 then throw (.invalidTransition c.source.toText c.target.toText)
        else getWorkItem id : Fallible Eff Error WorkItem).run.interp (handle i)
          (fun n => env (n + 1)) w := by
  unfold casUpdate validateTransition
  rw [if_pos h]
  rfl

/-- An update that does not reach its row reports an error and leaves nothing. -/
theorem casUpdate_noTrace (hh : ∀ n, (env n).harmless) (hidle : w.db.Idle i)
    (h : ¬ c.Takes env w.db id) :
    NoTrace w.db i ((casUpdate c id).run.interp (handle i) env w) := by
  by_cases hc : c.source.canTransitionTo c.target = true
  · rw [casUpdate_allowed hc]
    obtain ⟨hmiss, -⟩ | ⟨r, -, -, -, hbad⟩ | ⟨r, r', db', hr, hs, hap, -⟩ :=
      w.db.exec_change_cases (env 1).chance id (env 0).clock hc
    · refine NoTrace.attempt (hh 1) hidle.undoes rfl ?_ ?_
      · intro d db' hd
        cases hmiss.symm.trans hd
      · intro a db' _ ha
        cases hmiss.symm.trans ha
        exact .error hidle.undoes
    · refine NoTrace.attempt (hh 1) hidle.undoes rfl ?_ ?_
      · intro d db' hd
        cases hbad.symm.trans hd
        rfl
      · intro a db' _ ha
        cases hbad.symm.trans ha
    -- the row could be moved, so only a fault is left
    · cases hf : (env 1).fault with
      | none => exact absurd ⟨hc, hf, r, r', hr, hs, hap⟩ h
      | some flt =>
        rw [interp_attempt_fault (hh 1) hf rfl]
        exact .error hidle.undoes
  · rw [casUpdate_refused hc]
    exact .error hidle.undoes

/-- An update that reaches its row moves it, whatever the read that follows answers. -/
theorem casUpdate_takes (hh : ∀ n, (env n).harmless) (h : c.Takes env w.db id) :
    ∃ db', (∃ r r', w.db.row id = some r ∧ db'.row id = some r' ∧ r'.state ≠ r.state) ∧
      ((∃ item, (env 2).fault = none ∧ (casUpdate c id).run.interp (handle i) env w =
          (.ok item, { w with db := db' })) ∨
        ∃ flt, (env 2).fault = some flt ∧ (casUpdate c id).run.interp (handle i) env w =
          (.error (.database flt.error), { w with db := db' })) := by
  obtain ⟨hc, hf, r, r', hr, hs, hap⟩ := h
  obtain ⟨-, hne⟩ | ⟨x, hx, -, hnone, -⟩ | ⟨x, x', db', hx, -, hx', hok, hput⟩ :=
    w.db.exec_change_cases (env 1).chance id (env 0).clock hc
  · exact absurd hs (hne r hr)
  · rw [hr] at hx
    cases hx
    rw [hap] at hnone
    cases hnone
  · rw [hr] at hx
    cases hx
    rw [hap] at hx'
    cases hx'
    have hid : r'.id = id := (c.apply_identity hap).1.trans (Db.rowOf_id hr)
    have hrow : db'.row id = some r' := hid ▸ hput.rowOf_self
    refine ⟨db', ⟨r, r', hr, hrow, ?_⟩, ?_⟩
    · rw [(c.apply_state hap).1, hs]
      exact (State.ne_of_canTransitionTo hc).symm
    · rw [casUpdate_allowed hc, interp_attempt_none hf rfl hok]
      exact getWorkItem_interp (fun n => env (n + 2)) (w := { w with db := db' }) (hh 2) hrow

end CasUpdate

/-! ### Submissions -/

section SubmitWork

variable {db : Db} {i : CallId} {env : ℕ → Env} {w : World} {new : NewWorkItem} {id : WorkId}
  {now : Sql.Timestamp} {r : Row}

/-- The conflict branch ends with its commit: every error comes before it. -/
theorem mergeWork_noTrace {key : String} (hh : ∀ n, (env n).harmless) (hidle : w.db.Idle i) :
    NoTrace w.db i ((mergeWork new id key now).run.interp (handle i) env w) := by
  have hsel : (w.db.exec (some i) (env 0).chance (.selectCanonical new.faculty key)).2 = w.db := by
    obtain ⟨h, -⟩ | ⟨r, h, -⟩ :=
      w.db.exec_selectCanonical_cases (env 0).chance new.faculty key hidle.rowOf <;> rw [h]
  refine NoTrace.attempt (hh 0) hidle.undoes rfl ?_ ?_
  · intro d db' hd
    rw [← hsel, hd]
  · intro canonical db' _ hok
    obtain rfl : db' = w.db := by rw [← hsel, hok]
    refine NoTrace.attempt (hh 1) hidle.undoes rfl ?_ ?_
    · intro d db' hd
      exact Db.insertRow_refused (Db.exec_insertMerged.symm.trans hd)
    · intro a db' _ ha
      have hput := Db.insertRow_accepted (Db.exec_insertMerged.symm.trans ha)
      exact NoTrace.attempt (r := (.ok (), db'.commit i)) (hh 2) (hidle.undoes.puts hput.1) rfl
        (fun d _ hd => by cases hd) fun _ _ _ _ => .ok

/-- Up to its commit, the tail of a submission leaves nothing behind. -/
theorem queueWork_noTrace (hh : ∀ n, (env n).harmless) (hw : db.Undoes i w.db)
    (hr : w.db.rowOf (some i) id = some r) (hs : r.state.isTerminal = false)
    (hf : ¬ ∀ n ∈ [0, 1, 2, 3], (env n).fault = none) :
    NoTrace db i ((queueWork new id).run.interp (handle i) env w) := by
  let payload := workPayload id new.params
  refine NoTrace.attempt (r := (.ok w.db.nextMsgId, w.db.send (some i) payload)) (hh 0) hw rfl
    (fun d _ hd => by cases hd) ?_
  rintro m _ h0 ⟨⟩
  have hsent : (w.db.send (some i) payload).rowOf (some i) id = some r := hr
  obtain ⟨db', hok, hput⟩ := Db.exec_updateQueued (env 1).chance (m := w.db.nextMsgId) hsent hs
  have hw' := (hw.send payload).puts hput
  refine NoTrace.attempt (hh 1) (hw.send payload) rfl (fun d _ hd => by cases hok.symm.trans hd) ?_
  intro a _ h1 ha
  cases hok.symm.trans ha
  refine NoTrace.attempt (r := (.ok (), db')) (hh 2) hw' rfl (fun d _ hd => by cases hd) ?_
  rintro _ _ h2 ⟨⟩
  cases h3 : (env 3).fault with
  | none => exact absurd (by simp [h0, h1, h2, h3]) hf
  | some flt =>
    rw [interp_attempt_fault (hh 3) h3 rfl]
    exact .error hw'

variable (new) in
/-- Past its commit, the new row stays, whatever the read that follows answers. -/
theorem queueWork_commits (hh : ∀ n, (env n).harmless) (hr : w.db.rowOf (some i) id = some r)
    (hs : r.state.isTerminal = false) (hf : ∀ n ∈ [0, 1, 2, 3], (env n).fault = none) :
    ∃ db', (∃ x, (db'.rollback i).rowOf none id = some x) ∧
      ((∃ res, (env 4).fault = none ∧ (queueWork new id).run.interp (handle i) env w =
          (.ok res, { w with db := db' })) ∨
        ∃ flt, (env 4).fault = some flt ∧ (queueWork new id).run.interp (handle i) env w =
          (.error (.database flt.error), { w with db := db' })) := by
  let payload := workPayload id new.params
  have hsent : (w.db.send (some i) payload).rowOf (some i) id = some r := hr
  obtain ⟨db', hok, hput⟩ := Db.exec_updateQueued (env 1).chance (m := w.db.nextMsgId) hsent hs
  have hid : r.id = id := Db.rowOf_id hr
  obtain ⟨x, hx⟩ : ∃ x, (db'.commit i).row id = some x :=
    ⟨_, hid ▸ (Db.row_commit hput.rowOf_self).2⟩
  refine ⟨db'.commit i, ⟨x, ?_⟩, ?_⟩
  · rw [Db.rowOf_rollback, if_neg (Option.some_ne_none i).symm]
    exact hx
  · have hrun : (queueWork new id).run.interp (handle i) env w =
        (getWorkItem id >>= fun item =>
          pure (.created item) : Fallible Eff Error SubmitResult).run.interp
          (handle i) (fun n => env (n + 4)) { w with db := db'.commit i } := by
      refine (interp_attempt_none (hf 0 (by simp)) rfl rfl).trans ?_
      refine (interp_attempt_none (hf 1 (by simp)) rfl hok).trans ?_
      refine (interp_attempt_none (hf 2 (by simp)) rfl rfl).trans ?_
      exact interp_attempt_none (hf 3 (by simp)) rfl rfl
    rw [hrun, interp_map]
    obtain ⟨item, hn, hget⟩ | ⟨flt, hflt, hget⟩ :=
      getWorkItem_interp (fun n => env (n + 4)) (w := { w with db := db'.commit i }) (hh 4) hx
    · exact .inl ⟨.created item, hn, by rw [hget]; rfl⟩
    · exact .inr ⟨flt, hflt, by rw [hget]; rfl⟩

/-- The row a submission inserts, by the answers to its first effects. -/
abbrev NewWorkItem.rowOf (new : NewWorkItem) (env : ℕ → Env) : Row :=
  new.row (env 3).chance.jsonb (env 1).uuid (env 2).clock

/-- The insert of the new row and everything after it, the commit included, succeeds. -/
def NewWorkItem.Commits (new : NewWorkItem) (i : CallId) (env : ℕ → Env) (db : Db) : Prop :=
  (∀ n ∈ [0, 3, 4, 5, 6, 7], (env n).fault = none) ∧
    db.conflicts (new.rowOf env) = false ∧ (db.insertRow (some i) (new.rowOf env)).1 = .ok ()

/-- A submission with a dedup key, once its transaction is open. -/
theorem submitWork_dedup {key : String} (hk : new.dedupKey = some key) (h0 : (env 0).fault = none) :
    (submitWork new).run.interp (handle i) env w =
      (Fallible.attempt .database (.tx (.insertOnConflict new (env 1).uuid key (env 2).clock)) >>=
        fun inserted => match inserted with
          | none => mergeWork new (env 1).uuid key (env 2).clock
          | some _ => queueWork new (env 1).uuid).run.interp (handle i)
        (fun n => env (n + 3)) w := by
  unfold submitWork
  refine (interp_attempt_none h0 rfl rfl).trans ?_
  rw [interp_perform_bind, interp_perform_bind]
  simp only [hk]
  rfl

/-- A submission without a dedup key, once its transaction is open. -/
theorem submitWork_plain (hk : new.dedupKey = none) (h0 : (env 0).fault = none) :
    (submitWork new).run.interp (handle i) env w =
      (Fallible.attempt .database (.tx (.insertPlain new (env 1).uuid (env 2).clock)) >>= fun _ =>
        queueWork new (env 1).uuid).run.interp (handle i) (fun n => env (n + 3)) w := by
  unfold submitWork
  refine (interp_attempt_none h0 rfl rfl).trans ?_
  rw [interp_perform_bind, interp_perform_bind]
  simp only [hk]
  rfl

/-- A submission that does not commit its new row leaves nothing when it reports an error. -/
theorem submitWork_noTrace (hh : ∀ n, (env n).harmless) (hidle : w.db.Idle i)
    (h : ¬ new.Commits i env w.db) :
    NoTrace w.db i ((submitWork new).run.interp (handle i) env w) := by
  cases h0 : (env 0).fault with
  | some flt =>
    unfold submitWork
    rw [interp_attempt_fault (hh 0) h0 rfl]
    exact .error hidle.undoes
  | none =>
    -- both inserts go on with the same half, once they have put the row
    have hqueue : ∀ db', (env 3).fault = none →
        w.db.conflicts (new.rowOf env) = false →
        w.db.insertRow (some i) (new.rowOf env) = (.ok (), db') →
        NoTrace w.db i ((queueWork new (env 1).uuid).run.interp (handle i) (fun n => env (n + 4))
          { w with db := db' }) := by
      intro db' h3 hc hins
      obtain ⟨hput, -⟩ := Db.insertRow_accepted hins
      refine queueWork_noTrace (fun n => hh (n + 4)) (hidle.undoes.puts hput) hput.rowOf_self rfl
        fun hall => h ⟨?_, hc, by rw [hins]⟩
      simpa [h0, h3] using hall
    cases hk : new.dedupKey with
    | none =>
      rw [submitWork_plain hk h0]
      refine NoTrace.attempt (hh 3) hidle.undoes rfl ?_ ?_
      · intro d db' hd
        exact Db.insertRow_refused ((Db.exec_insertPlain hk).symm.trans hd)
      · intro a db' h3 ha
        have hc := w.db.conflicts_eq_false (r := new.rowOf env)
          (by simp [Row.indexed, NewWorkItem.row, hk])
        exact hqueue db' h3 hc ((Db.exec_insertPlain hk).symm.trans ha)
    | some key =>
      have hins : w.db.exec (some i) (env 3).chance
          (.insertOnConflict new (env 1).uuid key (env 2).clock) = _ := Db.exec_insertOnConflict hk
      rw [submitWork_dedup hk h0]
      by_cases hc : w.db.conflicts (new.rowOf env) = true
      · rw [if_pos hc] at hins
        refine NoTrace.attempt (hh 3) hidle.undoes rfl ?_ ?_
        · intro d _ hd
          cases hins.symm.trans hd
        intro a db' _ ha
        cases hins.symm.trans ha
        exact mergeWork_noTrace (fun n => hh (n + 4)) hidle
      · rw [if_neg hc] at hins
        obtain ⟨e, he⟩ | ⟨db'', hok, -⟩ :=
          w.db.insertRow_cases (some i) (new.rowOf env)
        · rw [he] at hins
          refine NoTrace.attempt (hh 3) hidle.undoes rfl ?_ ?_
          · intro d db' hd
            cases hins.symm.trans hd
            rfl
          · intro a _ _ ha
            cases hins.symm.trans ha
        · rw [hok] at hins
          refine NoTrace.attempt (hh 3) hidle.undoes rfl ?_ ?_
          · intro d _ hd
            cases hins.symm.trans hd
          intro a db' h3 ha
          cases hins.symm.trans ha
          exact hqueue _ h3 ((Bool.not_eq_true _).mp hc) hok

/-- A submission that commits its new row leaves it, whatever the read that follows answers. -/
theorem submitWork_commits (hh : ∀ n, (env n).harmless) (h : new.Commits i env w.db) :
    ∃ db', (∃ k x, w.db.rowOf none k = none ∧ (db'.rollback i).rowOf none k = some x) ∧
      ((∃ res, (env 8).fault = none ∧ (submitWork new).run.interp (handle i) env w =
          (.ok res, { w with db := db' })) ∨
        ∃ flt, (env 8).fault = some flt ∧ (submitWork new).run.interp (handle i) env w =
          (.error (.database flt.error), { w with db := db' })) := by
  obtain ⟨hclear, hc, hins⟩ := h
  have h0 : (env 0).fault = none := hclear 0 (by simp)
  have h3 : (env 3).fault = none := hclear 3 (by simp)
  obtain ⟨e, he⟩ | ⟨db', hok, hput, hfresh⟩ :=
    w.db.insertRow_cases (some i) (new.rowOf env)
  · rw [he] at hins
    cases hins
  -- both branches insert the row with the fourth effect and queue it from there
  · have hrun : (submitWork new).run.interp (handle i) env w =
        (queueWork new (env 1).uuid).run.interp (handle i) (fun n => env (n + 4))
          { w with db := db' } := by
      cases hk : new.dedupKey with
      | none =>
        rw [submitWork_plain hk h0]
        exact interp_attempt_none h3 rfl ((Db.exec_insertPlain hk).trans hok)
      | some key =>
        rw [submitWork_dedup hk h0]
        refine interp_attempt_none (a := some (env 1).uuid) h3 rfl
          ((Db.exec_insertOnConflict hk).trans ?_)
        rw [if_neg (by rw [hc]; exact Bool.false_ne_true), hok]
        rfl
    have hrest : ∀ n ∈ [0, 1, 2, 3], (env (n + 4)).fault = none := by
      intro n hn
      refine hclear (n + 4) ?_
      simp only [List.mem_cons, List.not_mem_nil, or_false] at hn ⊢
      omega
    obtain ⟨db'', ⟨x, hx⟩, hend⟩ := queueWork_commits new (w := { w with db := db' })
      (fun n => hh (n + 4)) hput.rowOf_self rfl hrest
    refine ⟨db'', ⟨_, x, hfresh none, hx⟩, ?_⟩
    rw [hrun]
    exact hend

end SubmitWork

/-! ### Alone against the store -/

/-- Run an operation alone; a transaction still open at its end is dropped. -/
def runAlone {α : Type} (i : CallId) (env : ℕ → Env) (w : World) (p : Fallible Eff Error α) :
    Except Error α × Db :=
  ((p.run.interp (handle i) env w).1, (p.run.interp (handle i) env w).2.db.rollback i)

/-- If the operation returns an error, rows and messages are what they were. -/
def LeavesNoTrace {α : Type} (i : CallId) (env : ℕ → Env) (w : World) (p : Fallible Eff Error α) :
    Prop :=
  ∀ e, (runAlone i env w p).1 = .error e → w.db.SameStore (runAlone i env w p).2

section Alone

variable {i : CallId} {env : ℕ → Env} {w : World} {c : Change} {id : WorkId} {α : Type}
  {p : Fallible Eff Error α}

theorem NoTrace.leavesNoTrace (h : NoTrace w.db i (p.run.interp (handle i) env w)) :
    LeavesNoTrace i env w p := h

/-- An operation that changes a row before a last effect leaves no trace unless that fails. -/
theorem leavesNoTrace_iff_of_writes {db' : Db} {last : Env} {k : Uuid}
    (hwrites : (db'.rollback i).rowOf none k ≠ w.db.rowOf none k)
    (hend : (∃ res, last.fault = none ∧ p.run.interp (handle i) env w =
        (.ok res, { w with db := db' })) ∨
      ∃ flt, last.fault = some flt ∧ p.run.interp (handle i) env w =
        (.error (.database flt.error), { w with db := db' })) :
    LeavesNoTrace i env w p ↔ last.fault = none := by
  obtain ⟨res, hn, hrun⟩ | ⟨flt, hf, hrun⟩ := hend
  · refine iff_of_true (fun e he => ?_) hn
    rw [runAlone, hrun] at he
    cases he
  · refine iff_of_false (fun h => ?_) (by rw [hf]; exact Option.some_ne_none flt)
    have hsame := (h (.database flt.error) (by rw [runAlone, hrun])).rowOf none k
    rw [runAlone, hrun] at hsame
    exact hwrites hsame

theorem submitWork_leavesNoTrace_iff (new : NewWorkItem) (hh : ∀ n, (env n).harmless)
    (hidle : w.db.Idle i) : LeavesNoTrace i env w (submitWork new) ↔
      ¬ (new.Commits i env w.db ∧ (env 8).fault ≠ none) := by
  by_cases hc : new.Commits i env w.db
  · obtain ⟨db', ⟨k, x, hnone, hsome⟩, hend⟩ := submitWork_commits hh hc
    have hwrites : (db'.rollback i).rowOf none k ≠ w.db.rowOf none k := by
      rw [hnone, hsome]
      exact Option.some_ne_none x
    rw [leavesNoTrace_iff_of_writes hwrites hend]
    simp [hc]
  · exact iff_of_true (submitWork_noTrace hh hidle hc).leavesNoTrace fun h => hc h.1

theorem casUpdate_leavesNoTrace_iff (c : Change) (id : WorkId) (hh : ∀ n, (env n).harmless)
    (hidle : w.db.Idle i) : LeavesNoTrace i env w (casUpdate c id) ↔
      ¬ (c.Takes env w.db id ∧ (env 2).fault ≠ none) := by
  by_cases hc : c.Takes env w.db id
  · obtain ⟨db', ⟨r, r', hr, hr', hne⟩, hend⟩ := casUpdate_takes hh hc
    have hwrites : (db'.rollback i).rowOf none id ≠ w.db.rowOf none id := by
      rw [Db.rowOf_rollback, if_neg (Option.some_ne_none i).symm]
      intro heq
      have hrr : some r' = some r := hr'.symm.trans (heq.trans hr)
      exact hne (congrArg Row.state (Option.some.inj hrr))
    rw [leavesNoTrace_iff_of_writes hwrites hend]
    simp [hc]
  · exact iff_of_true (casUpdate_noTrace hh hidle hc).leavesNoTrace fun h => hc h.1

end Alone

/-- An operation that returns an error leaves no trace, except where the read of the row that
follows its commit or its update is what failed. -/
theorem store_errors_leave_no_trace_iff (i : CallId) (env : ℕ → Env) (w : World)
    (hh : ∀ n, (env n).harmless) (hidle : w.db.Idle i) :
    (∀ new, LeavesNoTrace i env w (submitWork new) ↔
      ¬ (new.Commits i env w.db ∧ (env 8).fault ≠ none)) ∧
    (∀ id source target, LeavesNoTrace i env w (transitionState id source target) ↔
      ¬ ((Change.transition source target).Takes env w.db id ∧ (env 2).fault ≠ none)) ∧
    (∀ id outcome, LeavesNoTrace i env w (completeWork id outcome) ↔
      ¬ ((Change.complete outcome).Takes env w.db id ∧ (env 2).fault ≠ none)) ∧
    ∀ id error ms, LeavesNoTrace i env w (failWork id error ms) ↔
      ¬ ((Change.fail error ms).Takes env w.db id ∧ (env 2).fault ≠ none) :=
  ⟨fun new => submitWork_leavesNoTrace_iff new hh hidle,
    fun id _ _ => casUpdate_leavesNoTrace_iff _ id hh hidle,
    fun id _ => casUpdate_leavesNoTrace_iff _ id hh hidle,
    fun id _ _ => casUpdate_leavesNoTrace_iff _ id hh hidle⟩

/-- The connection is lost at effect `n`; the statement has no effect. -/
def lostAt (n : ℕ) : ℕ → Env := fun k =>
  if k = n then { fault := some ⟨.infrastructure "connection reset", false⟩ } else {}

theorem lostAt_harmless (n k : ℕ) : (lostAt n k).harmless := by
  intro f hf
  unfold lostAt at hf
  split at hf
  · cases hf
    rfl
  · cases hf

theorem Db.idle_initial (i : CallId) : Db.initial.Idle i :=
  ⟨fun _ => rfl, fun _ h => by cases h⟩

/-- The conditions on a submission whose read-back is lost, and on the item it left. -/
theorem store_errors_leave_no_trace_iff_lost :
    (LeavesNoTrace 0 (lostAt 8) World.initial (submitWork (.new "social" "cli")) ↔
      ¬ ((NewWorkItem.new "social" "cli").Commits 0 (lostAt 8) Db.initial ∧
        (lostAt 8 8).fault ≠ none)) ∧
    (LeavesNoTrace 0 (lostAt 1) World.initial (failWork ⟨0, by decide⟩ "timeout" 7) ↔
      ¬ ((Change.fail "timeout" 7).Takes (lostAt 1) Db.initial ⟨0, by decide⟩ ∧
        (lostAt 1 2).fault ≠ none)) :=
  ⟨(store_errors_leave_no_trace_iff 0 (lostAt 8) World.initial (lostAt_harmless 8)
      (Db.idle_initial 0)).1 _,
    (store_errors_leave_no_trace_iff 0 (lostAt 1) World.initial (lostAt_harmless 1)
      (Db.idle_initial 0)).2.2.2 _ _ _⟩

/-- The world after one submission. -/
def queuedWorld : World :=
  { World.initial with
    db := (runAlone 0 (fun _ => {}) World.initial (submitWork (.new "social" "cli"))).2 }

/-- A submission and a claim that return an error although the item is queued, and claimed. -/
theorem store_errors_leave_a_trace :
    ¬ (∀ i env w new, (∀ n, Env.harmless (env n)) → w.db.Idle i →
      LeavesNoTrace i env w (submitWork new)) ∧
    ¬ ∀ i env w id source target, (∀ n, Env.harmless (env n)) → w.db.Idle i →
      LeavesNoTrace i env w (transitionState id source target) := by
  constructor
  · intro h
    have hsame := (h 0 (lostAt 8) World.initial (.new "social" "cli") (lostAt_harmless 8)
      (Db.idle_initial 0) (.database (.infrastructure "connection reset")) rfl).queue
    have hlen := congrArg List.length hsame
    cases hlen
  · intro h
    have hidle : queuedWorld.db.Idle 1 := .of_all rfl rfl
    have hsame := (h 1 (lostAt 2) queuedWorld ⟨0, by decide⟩ .queued .claimed (lostAt_harmless 2)
      hidle (.database (.infrastructure "connection reset")) rfl).rowOf none ⟨0, by decide⟩
    have hstate := congrArg (Option.map Row.state) hsame
    cases hstate

end Animus
