import Animus.System.Step

/-!
# What a call does in each phase

The steps of each operation, spelled out over the database. Every invariant of
the system is derived from these relations; none unfolds a statement again.

## Main definitions

- `SubmitStep`, `ChangeStep`, `PlaneStep`: the steps of each operation
- `PlaneEff`: the effects of a `process_work` call in each phase

## Main results

- `submitStep_of`, `changeStep_of`, `planeStep_of`: a call takes no other steps
- `PlaneStep.rank_le`: a `process_work` call does not go back
-/

namespace Animus

open Effect

/-- The phase an effect was meant to lead to, or `failed` where a fault hid that it did. -/
def Lands (env : Env) (target ph' : SubmitPhase) : Prop :=
  ph' = target ∨ (env.fault.isSome = true ∧ ph' = .failed)

/-- The rows a submission may have written in a phase; after a fault, any. -/
def SubmitPhase.Writes (new : NewWorkItem) : SubmitPhase → WorkId → Row → Prop
  | .inserted id, k, r | .sent id _, k, r => k = id ∧ ∃ jsonb now, r = new.row jsonb id now
  | .queued id m, k, r => k = id ∧ ∃ jsonb now t, r = (new.row jsonb id now).queue m t
  | .merging id c, k, r => k = id ∧ ∃ jsonb now, r = new.mergedRow jsonb id c now
  | .failed, _, _ => True
  | _, _, _ => False

/-- The row a submission has written and not committed. -/
def SubmitPhase.pending : SubmitPhase → Option WorkId
  | .inserted id | .sent id _ | .queued id _ | .merging id _ => some id
  | _ => none

/-- Why a submission fails in a phase with the database unchanged. -/
def SubmitFails (new : NewWorkItem) (i : CallId) (env : Env) (db : Db) : SubmitPhase → Prop
  | .named id => env.fault.isSome = true ∨
    ∃ now e, (db.insertRow (some i) (new.row env.chance.jsonb id now)).1 = .error e ∧
      (new.dedupKey = none ∨ db.conflicts (new.row env.chance.jsonb id now) = false)
  | .conflicted _ => env.fault.isSome = true ∨
    ∃ key, new.dedupKey = some key ∧ ¬ ∃ r, db.HoldsActive new.faculty key none r
  | .canonical id c => env.fault.isSome = true ∨
    ∃ now e, (db.insertRow (some i) (new.mergedRow env.chance.jsonb id c now)).1 = .error e
  | .created id => env.fault.isSome = true ∨ db.row id = none
  | _ => env.fault.isSome = true

/-- The steps of a `submit_work` call. -/
inductive SubmitStep (new : NewWorkItem) (i : CallId) (env : Env) (db : Db) :
    SubmitPhase → SubmitPhase → Db → Prop
  | begin : SubmitStep new i env db .start .begun db
  | name : SubmitStep new i env db .begun (.named env.uuid) db
  | clock (id : WorkId) : SubmitStep new i env db (.named id) (.named id) db
  | conflict (id : WorkId) {key : String} {tag : Option CallId} {r : Row}
      (hk : new.dedupKey = some key) (h : db.HoldsActive new.faculty key tag r) :
      SubmitStep new i env db (.named id) (.conflicted id) db
  | insert (id : WorkId) {now : Sql.Timestamp} {ph' : SubmitPhase} {db' : Db}
      (hput : db.Puts db' (some i) (new.row env.chance.jsonb id now))
      (fresh : ∀ tag, db.rowOf tag id = none)
      (hland : Lands env (.inserted id) ph') : SubmitStep new i env db (.named id) ph' db'
  | select (id : WorkId) {key : String} {r : Row} (hk : new.dedupKey = some key)
      (h : db.HoldsActive new.faculty key none r) :
      SubmitStep new i env db (.conflicted id) (.canonical id r.id) db
  | merge (id c : WorkId) {now : Sql.Timestamp} {ph' : SubmitPhase} {db' : Db}
      (hput : db.Puts db' (some i) (new.mergedRow env.chance.jsonb id c now))
      (fresh : ∀ tag, db.rowOf tag id = none) (hland : Lands env (.merging id c) ph') :
      SubmitStep new i env db (.canonical id c) ph' db'
  | send (id : WorkId) {ph' : SubmitPhase} (hland : Lands env (.sent id db.nextMsgId) ph') :
      SubmitStep new i env db (.inserted id) ph' (db.send (some i) (workPayload id new.params))
  | record (id : WorkId) (m : ℤ) {r : Row} {ph' : SubmitPhase} {db' : Db} {t : Sql.Timestamp}
      (hr : db.rowOf (some i) id = some r) (hput : db.Puts db' (some i) (r.queue m t))
      (hland : Lands env (.queued id m) ph') : SubmitStep new i env db (.sent id m) ph' db'
  | notify (id : WorkId) (m : ℤ) : SubmitStep new i env db (.queued id m) (.queued id m) db
  | commitMerged (id c : WorkId) {ph' : SubmitPhase} (hland : Lands env (.merged id c) ph') :
      SubmitStep new i env db (.merging id c) ph' (db.commit i)
  | commitQueued (id : WorkId) (m : ℤ) {ph' : SubmitPhase} (hland : Lands env (.created id) ph') :
      SubmitStep new i env db (.queued id m) ph' (db.commit i)
  | show (id : WorkId) {r : Row} (hr : db.row id = some r) :
      SubmitStep new i env db (.created id) (.shown id) db
  | fail {ph : SubmitPhase} (why : SubmitFails new i env db ph) :
      SubmitStep new i env db ph .failed db

/-- Where a statement ends that would succeed: done, lost in a fault, or not done. -/
theorem Env.reply_ok {γ : Type} (env : Env) (db db' : Db) (a : γ) :
    (env.fault = none ∧ env.reply db (.ok a, db') = (.ok a, db')) ∨
    (env.fault.isSome = true ∧ ∃ e, env.reply db (.ok a, db') = (.error e, db')) ∨
    (env.fault.isSome = true ∧ ∃ e, env.reply db (.ok a, db') = (.error e, db)) := by
  unfold Env.reply
  cases hf : env.fault with
  | none => exact .inl ⟨rfl, rfl⟩
  | some f =>
    cases ht : f.took with
    | true => exact .inr (.inl ⟨rfl, f.error, by simp [ht]⟩)
    | false => exact .inr (.inr ⟨rfl, f.error, by simp [ht]⟩)

/-- A statement that changes nothing. -/
theorem Env.reply_same {γ : Type} (env : Env) (db : Db) (r : Except DbError γ) :
    (env.fault = none ∧ env.reply db (r, db) = (r, db)) ∨
    (env.fault.isSome = true ∧ ∃ e, env.reply db (r, db) = (.error e, db)) := by
  unfold Env.reply
  cases hf : env.fault with
  | none => exact .inl ⟨rfl, rfl⟩
  | some f => exact .inr ⟨rfl, f.error, by simp⟩

section Submit

variable {new : NewWorkItem} {i : CallId} {env : Env} {w : World} {ph : SubmitPhase} {γ : Type}

/-- A statement in phase `ph` that always succeeds and was to lead to `target`. -/
theorem submitStep_ok {e : Eff (Except DbError γ)} {a : γ} {db' : Db}
    (herr : ∀ d, submitNext ph e (.error d) = .failed)
    (hdone : ∀ ph', Lands env (submitNext ph e (.ok a)) ph' → SubmitStep new i env w.db ph ph' db')
    (hfail : env.fault.isSome = true → SubmitFails new i env w.db ph) :
    SubmitStep new i env w.db ph (submitNext ph e (env.reply w.db (.ok a, db')).1)
      (env.reply w.db (.ok a, db')).2 := by
  obtain ⟨-, hr⟩ | ⟨hf, d', hr⟩ | ⟨hf, d', hr⟩ := env.reply_ok w.db db' a
  · rw [hr]
    exact hdone _ (.inl rfl)
  · rw [hr, herr]
    exact hdone _ (.inr ⟨hf, rfl⟩)
  · rw [hr, herr]
    exact .fail (hfail hf)

/-- A statement that changes nothing, answered with `a`. -/
theorem submitStep_same {e : Eff (Except DbError γ)} {a : Except DbError γ}
    (herr : ∀ d, submitNext ph e (.error d) = .failed)
    (hdone : SubmitStep new i env w.db ph (submitNext ph e a) w.db)
    (hfail : env.fault.isSome = true → SubmitFails new i env w.db ph) :
    SubmitStep new i env w.db ph (submitNext ph e (env.reply w.db (a, w.db)).1)
      (env.reply w.db (a, w.db)).2 := by
  obtain ⟨-, hr⟩ | ⟨hf, d', hr⟩ := env.reply_same w.db a
  · rw [hr]
    exact hdone
  · rw [hr, herr]
    exact .fail (hfail hf)

variable (new i env w ph) in
/-- An effect in phase `ph` is a step of the submission. -/
def SubmitTakes {β : Type} (e : Eff β) : Prop :=
  SubmitStep new i env w.db ph (submitNext ph e (handle i e env w).1) (handle i e env w).2.db

variable {id c : WorkId} {now : Sql.Timestamp}

theorem submitTakes_insertOnConflict {key : String} (hk : new.dedupKey = some key) :
    SubmitTakes new i env w (.named id) (.tx (.insertOnConflict new id key now)) := by
  change SubmitStep _ _ _ _ _ (submitNext _ _ (env.reply _ (w.db.exec _ _ _)).1)
    (env.reply _ (w.db.exec _ _ _)).2
  rw [Db.exec_insertOnConflict hk]
  by_cases hc : w.db.conflicts (new.row env.chance.jsonb id now) = true
  · obtain ⟨tag, r, hr⟩ := (Db.conflicts_row_iff hk).mp hc
    rw [if_pos hc]
    exact submitStep_same (fun _ => rfl) (.conflict id hk hr) .inl
  · rw [if_neg hc]
    obtain ⟨d, hd⟩ | ⟨db', hdb, hput, hfresh⟩ :=
      w.db.insertRow_cases (some i) (new.row env.chance.jsonb id now)
    · rw [hd]
      exact submitStep_same (a := .error d) (fun _ => rfl)
        (.fail (.inr ⟨now, d, by rw [hd], .inr ((Bool.not_eq_true _).mp hc)⟩)) .inl
    · rw [hdb]
      exact submitStep_ok (a := some id) (fun _ => rfl)
        (fun _ hland => .insert id hput hfresh hland) .inl

theorem submitTakes_insertPlain (hk : new.dedupKey = none) :
    SubmitTakes new i env w (.named id) (.tx (.insertPlain new id now)) := by
  change SubmitStep _ _ _ _ _ (submitNext _ _ (env.reply _ (w.db.exec _ _ _)).1)
    (env.reply _ (w.db.exec _ _ _)).2
  rw [Db.exec_insertPlain hk]
  obtain ⟨d, hd⟩ | ⟨db', hdb, hput, hfresh⟩ :=
    w.db.insertRow_cases (some i) (new.row env.chance.jsonb id now)
  · rw [hd]
    exact submitStep_same (fun _ => rfl) (.fail (.inr ⟨now, d, by rw [hd], .inl hk⟩)) .inl
  · rw [hdb]
    exact submitStep_ok (fun _ => rfl) (fun _ hland => .insert id hput hfresh hland) .inl

theorem submitTakes_selectCanonical {key : String} (hk : new.dedupKey = some key)
    (hown : ∀ k, w.db.rowOf (some i) k = none) :
    SubmitTakes new i env w (.conflicted id) (.tx (.selectCanonical new.faculty key)) := by
  change SubmitStep _ _ _ _ _ (submitNext _ _ (env.reply _ (w.db.exec _ _ _)).1)
    (env.reply _ (w.db.exec _ _ _)).2
  obtain ⟨hsel, hnone⟩ | ⟨r, hsel, hr⟩ :=
    Db.exec_selectCanonical_cases env.chance new.faculty key hown
  · rw [hsel]
    exact submitStep_same (fun _ => rfl) (.fail (.inr ⟨key, hk, hnone⟩)) .inl
  · rw [hsel]
    exact submitStep_same (fun _ => rfl) (.select id hk hr) .inl

theorem submitTakes_insertMerged :
    SubmitTakes new i env w (.canonical id c) (.tx (.insertMerged new id c now)) := by
  change SubmitStep _ _ _ _ _ (submitNext _ _ (env.reply _ (w.db.exec _ _ _)).1)
    (env.reply _ (w.db.exec _ _ _)).2
  rw [Db.exec_insertMerged]
  obtain ⟨d, hd⟩ | ⟨db', hdb, hput, hfresh⟩ :=
    w.db.insertRow_cases (some i) (new.mergedRow env.chance.jsonb id c now)
  · rw [hd]
    exact submitStep_same (fun _ => rfl) (.fail (.inr ⟨now, d, by rw [hd]⟩)) .inl
  · rw [hdb]
    exact submitStep_ok (fun _ => rfl) (fun _ hland => .merge id c hput hfresh hland) .inl

theorem submitTakes_updateQueued {m : ℤ} {jsonb : Json → Json}
    (hr : w.db.rowOf (some i) id = some (new.row jsonb id now)) :
    SubmitTakes new i env w (.sent id m) (.tx (.updateQueued m id)) := by
  change SubmitStep _ _ _ _ _ (submitNext _ _ (env.reply _ (w.db.exec _ _ _)).1)
    (env.reply _ (w.db.exec _ _ _)).2
  obtain ⟨db', hdb, hput⟩ := Db.exec_updateQueued env.chance (m := m) hr rfl
  rw [hdb]
  exact submitStep_ok (fun _ => rfl) (fun _ hland => .record id m hr hput hland) fun h => h

theorem submitTakes_selectById :
    SubmitTakes new i env w (.created id) (.pool (.selectById id)) := by
  change SubmitStep _ _ _ _ _ (submitNext _ _ (env.reply _ (w.db.exec _ _ _)).1)
    (env.reply _ (w.db.exec _ _ _)).2
  rw [Db.exec_selectById]
  cases hr : w.db.row id with
  | none => exact submitStep_same (fun _ => rfl) (.fail (.inr hr)) .inl
  | some r => exact submitStep_same (fun _ => rfl) (.show id hr) .inl

variable (i env w) in
/-- A submission takes no other steps, and touches nothing but the database. -/
theorem submitStep_of {β : Type} {e : Eff β} (ha : submitAllowed new ph e)
    (hw : ∀ k r, w.db.rowOf (some i) k = some r → ph.Writes new k r)
    (hp : ∀ id, ph.pending = some id → ∃ r, w.db.rowOf (some i) id = some r) :
    SubmitStep new i env w.db ph (submitNext ph e (handle i e env w).1) (handle i e env w).2.db ∧
      (handle i e env w).2 = { w with db := (handle i e env w).2.db } := by
  cases ph with
  | start =>
    cases e with
    | begin => exact ⟨submitStep_same (fun _ => rfl) .begin fun h => h, rfl⟩
    | _ => exact ha.elim
  | begun =>
    cases e with
    | newV4 => exact ⟨.name, rfl⟩
    | _ => exact ha.elim
  | named id =>
    cases e with
    | utcNow => exact ⟨.clock id, rfl⟩
    | tx q =>
      cases q with
      | insertOnConflict new' id' key now =>
        obtain ⟨rfl, rfl, hk⟩ := ha
        exact ⟨submitTakes_insertOnConflict hk, rfl⟩
      | insertPlain new' id' now =>
        obtain ⟨rfl, rfl, hk⟩ := ha
        exact ⟨submitTakes_insertPlain hk, rfl⟩
      | _ => exact ha.elim
    | _ => exact ha.elim
  | conflicted id =>
    cases e with
    | tx q =>
      cases q with
      | selectCanonical faculty key =>
        obtain ⟨rfl, hk⟩ := ha
        refine ⟨submitTakes_selectCanonical hk fun k => ?_, rfl⟩
        exact Option.eq_none_iff_forall_ne_some.mpr fun r hr => hw k r hr
      | _ => exact ha.elim
    | _ => exact ha.elim
  | canonical id c =>
    cases e with
    | tx q =>
      cases q with
      | insertMerged new' id' c' now =>
        obtain ⟨rfl, rfl, rfl⟩ := ha
        exact ⟨submitTakes_insertMerged, rfl⟩
      | _ => exact ha.elim
    | _ => exact ha.elim
  | merging id c =>
    cases e with
    | commit =>
      exact ⟨submitStep_ok (fun _ => rfl) (fun _ hland => .commitMerged id c hland) fun h => h, rfl⟩
    | _ => exact ha.elim
  | inserted id =>
    cases e with
    | tx q =>
      cases q with
      | pgmqSend payload =>
        obtain rfl := ha
        exact ⟨submitStep_ok (fun _ => rfl) (fun _ hland => .send id hland) fun h => h, rfl⟩
      | _ => exact ha.elim
    | _ => exact ha.elim
  | sent id m =>
    cases e with
    | tx q =>
      cases q with
      | updateQueued m' id' =>
        obtain ⟨rfl, rfl⟩ := ha
        obtain ⟨r, hr⟩ := hp id' rfl
        obtain ⟨-, jsonb, now, rfl⟩ := hw id' r hr
        exact ⟨submitTakes_updateQueued hr, rfl⟩
      | _ => exact ha.elim
    | _ => exact ha.elim
  | queued id m =>
    cases e with
    | tx q =>
      cases q with
      | pgNotify faculty => exact ⟨submitStep_same (fun _ => rfl) (.notify id m) fun h => h, rfl⟩
      | _ => exact ha.elim
    | commit =>
      exact ⟨submitStep_ok (fun _ => rfl) (fun _ hland => .commitQueued id m hland) fun h => h, rfl⟩
    | _ => exact ha.elim
  | created id =>
    cases e with
    | pool q =>
      cases q with
      | selectById id' =>
        obtain rfl := ha
        exact ⟨submitTakes_selectById, rfl⟩
      | _ => exact ha.elim
    | _ => exact ha.elim
  | merged _ _ | shown _ | failed => exact ha.elim

end Submit

/-! ### Updates -/

/-- A compare-and-swap update, with its answer. -/
inductive UpdateStep (env : Env) (db : Db) (c : Change) (id : WorkId) :
    Except DbError ℕ → Db → Prop
  | missed (h : ∀ r, db.row id = some r → r.state ≠ c.source) : UpdateStep env db c id (.ok 0) db
  | moved {r r' : Row} {now : Sql.Timestamp} {db' : Db} {a : Except DbError ℕ}
      (hr : db.row id = some r) (hs : r.state = c.source)
      (happ : c.apply env.chance.jsonb now r = some r')
      (hput : db.Puts db' none r') (ha : a = .ok 1 ∨ env.fault.isSome = true ∧ ∃ d, a = .error d) :
      UpdateStep env db c id a db'
  | refused {d : DbError} (why : env.fault.isSome = true ∨
        ∃ r now, db.row id = some r ∧ r.state = c.source ∧
          c.apply env.chance.jsonb now r = none) :
      UpdateStep env db c id (.error d) db

theorem updateStep_of (env : Env) (db : Db) {c : Change} {id : WorkId} {now : Sql.Timestamp}
    (hc : c.source.canTransitionTo c.target = true) :
    UpdateStep env db c id (env.reply db (db.exec none env.chance (.change c id now))).1
      (env.reply db (db.exec none env.chance (.change c id now))).2 := by
  obtain ⟨hex, hne⟩ | ⟨r, hr, hs, happ, hex⟩ | ⟨r, r', db', hr, hs, happ, hex, hput⟩ :=
    Db.exec_change_cases db env.chance id now hc
  · rw [hex]
    obtain ⟨-, hrep⟩ | ⟨hf, d, hrep⟩ := env.reply_same db (.ok 0 : Except DbError ℕ)
    · rw [hrep]
      exact .missed hne
    · rw [hrep]
      exact .refused (.inl hf)
  · rw [hex]
    obtain ⟨-, hrep⟩ | ⟨hf, d, hrep⟩ := env.reply_same db (.error .badValue : Except DbError ℕ)
    · rw [hrep]
      exact .refused (.inr ⟨r, now, hr, hs, happ⟩)
    · rw [hrep]
      exact .refused (.inl hf)
  · rw [hex]
    obtain ⟨-, hrep⟩ | ⟨hf, d, hrep⟩ | ⟨hf, d, hrep⟩ := env.reply_ok db db' 1
    · rw [hrep]
      exact .moved hr hs happ hput (.inl rfl)
    · rw [hrep]
      exact .moved hr hs happ hput (.inr ⟨hf, d, rfl⟩)
    · rw [hrep]
      exact .refused (.inl hf)

/-- The phase after the update of a `transition_state`, `complete_work` or `fail_work` call. -/
def ChangePhase.afterUpdate : Except DbError ℕ → ChangePhase
  | .ok n => if n = 0 then .failed else .moved
  | .error _ => .failed

/-- The steps of such a call. -/
inductive ChangeStep (c : Change) (id : WorkId) (env : Env) (db : Db) :
    ChangePhase → ChangePhase → Db → Prop
  | clock : ChangeStep c id env db .ready .ready db
  | update {a : Except DbError ℕ} {db' : Db} (hc : c.source.canTransitionTo c.target = true)
      (h : UpdateStep env db c id a db') : ChangeStep c id env db .ready (.afterUpdate a) db'
  | show {r : Row} (hr : db.row id = some r) : ChangeStep c id env db .moved .shown db
  | fail (why : env.fault.isSome = true ∨ db.row id = none) :
      ChangeStep c id env db .moved .failed db

theorem changeStep_of {c : Change} {id : WorkId} (i : CallId) (env : Env) (w : World)
    {ph : ChangePhase} {β : Type} {e : Eff β} (ha : changeAllowed c id ph e) :
    ChangeStep c id env w.db ph (changeNext ph e (handle i e env w).1) (handle i e env w).2.db ∧
      (handle i e env w).2 = { w with db := (handle i e env w).2.db } := by
  cases ph with
  | ready =>
    cases e with
    | utcNow => exact ⟨.clock, rfl⟩
    | pool q =>
      cases q with
      | change c' id' now =>
        obtain ⟨rfl, rfl, hc⟩ := ha
        refine ⟨?_, rfl⟩
        have hphase : ∀ a, changeNext .ready (.pool (.change c' id' now)) a = .afterUpdate a := by
          intro a
          cases a <;> rfl
        rw [hphase]
        exact .update hc (updateStep_of env w.db hc)
      | _ => exact ha.elim
    | _ => exact ha.elim
  | moved =>
    cases e with
    | pool q =>
      cases q with
      | selectById id' =>
        obtain rfl := ha
        refine ⟨?_, rfl⟩
        change ChangeStep _ _ _ _ _ (changeNext _ _ (env.reply _ (w.db.exec _ _ _)).1)
          (env.reply _ (w.db.exec _ _ _)).2
        rw [Db.exec_selectById]
        obtain ⟨-, hrep⟩ | ⟨hf, d, hrep⟩ :=
          env.reply_same w.db (.ok (w.db.row id') : Except DbError (Option Row))
        · rw [hrep]
          cases hr : w.db.row id' with
          | none => exact .fail (.inr hr)
          | some r => exact .show hr
        · rw [hrep]
          exact .fail (.inl hf)
      | _ => exact ha.elim
    | _ => exact ha.elim
  | shown => exact ha.elim
  | failed => exact ha.elim

/-! ### Processing -/

/-- The effects of a `process_work` call in each phase. -/
inductive PlaneEff (cp : ControlPlane) : PlanePhase → (β : Type) → Eff β → Prop
  | read (vt : ℤ) : PlaneEff cp .idle _ (.pool (.pgmqRead vt))
  | fetch (m : ℤ) (id : WorkId) : PlaneEff cp (.read m id) _ (.pool (.selectById id))
  | update {ph : PlanePhase} {c : Change} {id : WorkId} (now : Sql.Timestamp)
      (h : ph.Issues c id) : PlaneEff cp ph _ (.pool (.change c id now))
  | count (m : ℤ) (id : WorkId) : PlaneEff cp (.owning .running m id) _ (.addActive cp.plane)
  | focus (m : ℤ) (id : WorkId) : PlaneEff cp (.owning .counted m id) _ (.focusStart id)
  | uncount (m : ℤ) (id : WorkId) : PlaneEff cp (.owning .focused m id) _ (.subActive cp.plane)
  | archive (m : ℤ) (id : WorkId) : PlaneEff cp (.completed m id) _ (.pool (.pgmqArchive m))
  | passive {ph : PlanePhase} {β : Type} {e : Eff β} (he : e.passive = true)
      (hstay : ∀ r, planeNext cp ph e r = ph) : PlaneEff cp ph β e

/-- The steps of a `process_work` call. -/
inductive PlaneStep (cp : ControlPlane) (env : Env) (w : World) :
    PlanePhase → PlanePhase → World → Prop
  | passive (ph : PlanePhase) (dirs : List String) :
      PlaneStep cp env w ph ph { w with dirs := dirs }
  | read {msg : Message} {ph' : PlanePhase} (hmem : msg ∈ w.db.queue) (htxn : msg.txn = none)
      (hhid : msg.hidden = false) (hland : ph' = .afterRead (some ⟨msg.msgId, msg.message⟩) ∨
        env.fault.isSome = true ∧ ph' = .closed) :
      PlaneStep cp env w .idle ph' { w with db := w.db.setHidden msg.msgId true }
  | unread (why : env.fault.isSome = true ∨ w.db.readable[env.chance.pick]? = none) :
      PlaneStep cp env w .idle .closed w
  | fetch {m : ℤ} {id : WorkId} {r : Row} (hr : w.db.row id = some r) :
      PlaneStep cp env w (.read m id)
        (if (cp.registry r.faculty).isSome then .fetched m id else .closed) w
  | unfetched {m : ℤ} {id : WorkId} (why : env.fault.isSome = true ∨ w.db.row id = none) :
      PlaneStep cp env w (.read m id) .closed w
  | update {ph : PlanePhase} {c : Change} {id : WorkId} {a : Except DbError ℕ} {db' : Db}
      (hph : ph.Issues c id) (h : UpdateStep env w.db c id a db') :
      PlaneStep cp env w ph (ph.afterUpdate c a) { w with db := db' }
  | count (m : ℤ) (id : WorkId) : PlaneStep cp env w (.owning .running m id)
      (.owning .counted m id)
      { w with active := Function.update w.active cp.plane (w.active cp.plane + 1) }
  | focus (m : ℤ) (id : WorkId) : PlaneStep cp env w (.owning .counted m id)
      (.owning .focused m id) { w with started := Function.update w.started id (w.started id + 1) }
  | uncount (m : ℤ) (id : WorkId) : PlaneStep cp env w (.owning .focused m id) (.owning .ran m id)
      { w with active := Function.update w.active cp.plane (w.active cp.plane - 1) }
  | archive (m : ℤ) (id : WorkId) : PlaneStep cp env w (.completed m id) .closed
      { w with db := w.db.archiveMessage m }
  | unarchived (m : ℤ) (id : WorkId) (why : env.fault.isSome = true) :
      PlaneStep cp env w (.completed m id) .closed w

/-- The updates a `process_work` call issues are edges of the lifecycle graph. -/
theorem PlanePhase.Issues.valid {ph : PlanePhase} {c : Change} {id : WorkId}
    (h : ph.Issues c id) : c.source.canTransitionTo c.target = true := by
  cases ph with
  | fetched m id' => obtain ⟨rfl, -⟩ := h; rfl
  | owning st m id' =>
    cases st with
    | claimed => obtain ⟨rfl, -⟩ := h; rfl
    | ran => obtain ⟨⟨o, rfl⟩ | ⟨e, ms, rfl⟩, -⟩ := h <;> rfl
    | _ => exact h.elim
  | _ => exact h.elim

/-- An update any operation issues is an edge of the lifecycle graph. -/
theorem Op.change_valid {op : Op} {ph : op.Phase} {c : Change} {id : WorkId} {now : Sql.Timestamp}
    (ha : op.protocol.allowed ph (.pool (.change c id now))) :
    c.source.canTransitionTo c.target = true := by
  cases op with
  | submit new => cases ph <;> exact ha.elim
  | change c' id' =>
    cases ph with
    | ready =>
      obtain ⟨rfl, -, hc⟩ := ha
      exact hc
    | _ => exact ha.elim
  | process cp =>
    have hissues : PlanePhase.Issues ph c id := by cases ph <;> exact ha
    exact hissues.valid

section Plane

variable {cp : ControlPlane} {i : CallId} {env : Env} {w : World} {ph : PlanePhase} {β : Type}
  {e : Eff β}

variable (i env w) in
theorem handle_passive (he : e.passive = true) :
    ∃ dirs, (handle i e env w).2 = { w with dirs := dirs } := by
  cases e with
  | pool q =>
    cases q with
    | selectById id =>
      refine ⟨w.dirs, ?_⟩
      change { w with db := (env.reply _ (w.db.exec _ _ _)).2 } = _
      rw [Db.exec_selectById]
      obtain ⟨-, hrep⟩ | ⟨hf, d, hrep⟩ :=
        env.reply_same w.db (.ok (w.db.row id) : Except DbError (Option Row))
      · rw [hrep]
      · rw [hrep]
    | _ => exact absurd he Bool.false_ne_true
  | createDirAll dir =>
    simp only [handle]
    cases env.file () <;> exact ⟨_, rfl⟩
  | removeDirAll dir =>
    simp only [handle]
    cases env.file () <;> exact ⟨_, rfl⟩
  | _ =>
    first
    | exact absurd he Bool.false_ne_true
    | exact ⟨_, rfl⟩

/-- A call takes no other effects. -/
theorem planeEff_of (ha : planeAllowed cp ph e) : PlaneEff cp ph β e := by
  by_cases hp : ph.settled = true ∧ e.passive = true
  · exact .passive hp.2 (passive_step cp hp.1 e hp.2).2
  cases e with
  | pool q =>
    cases q with
    | change c id now =>
      have hissues : ph.Issues c id := by cases ph <;> exact ha
      exact .update now hissues
    | pgmqRead vt =>
      cases ph with
      | idle => exact .read vt
      | owning st m id => cases st <;> cases ha
      | _ => cases ha
    | selectById id =>
      cases ph with
      | read m id' =>
        obtain rfl := ha
        exact .fetch m id
      | _ => exact absurd ⟨rfl, rfl⟩ hp
    | pgmqArchive m' =>
      cases ph with
      | completed m id =>
        obtain rfl := ha
        exact .archive m' id
      | owning st m id => cases st <;> cases ha
      | _ => cases ha
    | _ =>
      cases ph with
      | owning st m id => cases st <;> cases ha
      | _ => cases ha
  | addActive p =>
    cases ph with
    | owning st m id =>
      cases st with
      | running =>
        obtain rfl := ha
        exact .count m id
      | _ => cases ha
    | _ => cases ha
  | focusStart work =>
    cases ph with
    | owning st m id =>
      cases st with
      | counted =>
        obtain rfl := ha
        exact .focus m work
      | _ => cases ha
    | _ => cases ha
  | subActive p =>
    cases ph with
    | owning st m id =>
      cases st with
      | focused =>
        obtain rfl := ha
        exact .uncount m id
      | _ => cases ha
    | _ => cases ha
  | _ =>
    cases ph with
    -- a call that read a message is not settled, and still only waits for its row
    | read m id => exact .passive ha fun _ => rfl
    | owning st m id => cases st <;> first | exact absurd ⟨rfl, rfl⟩ hp | cases ha
    | _ => first | exact absurd ⟨rfl, rfl⟩ hp | cases ha

/-- A message that was read leads to its item, or to nothing. -/
theorem PlanePhase.afterRead_cases (o : Option PgmqMessage) :
    PlanePhase.afterRead o = .closed ∨ ∃ m id, PlanePhase.afterRead o = .read m id := by
  cases o with
  | none => exact .inl rfl
  | some msg =>
    rw [PlanePhase.afterRead]
    cases extractId msg.message with
    | none => exact .inl rfl
    | some id => exact .inr ⟨msg.msgId, id, rfl⟩

theorem planeNext_change {c : Change} {id : WorkId} {now : Sql.Timestamp}
    (r : Except DbError ℕ) : planeNext cp ph (.pool (.change c id now)) r = ph.afterUpdate c r := by
  cases ph <;> rfl

theorem planeStep_read (vt : ℤ) :
    PlaneStep cp env w .idle
      (planeNext cp .idle (.pool (.pgmqRead vt)) (handle i (.pool (.pgmqRead vt)) env w).1)
      (handle i (.pool (.pgmqRead vt)) env w).2 := by
  change PlaneStep _ _ _ _ (planeNext _ _ _ (env.reply _ (w.db.exec _ _ _)).1)
    { w with db := (env.reply _ (w.db.exec _ _ _)).2 }
  rw [Db.exec]
  cases hm : w.db.readable[env.chance.pick]? with
  | none =>
    obtain ⟨-, hrep⟩ | ⟨hf, d, hrep⟩ :=
      env.reply_same w.db (.ok none : Except DbError (Option PgmqMessage))
    · rw [hrep]
      exact .unread (.inr hm)
    · rw [hrep]
      exact .unread (.inl hf)
  | some msg =>
    obtain ⟨hmem, hvis⟩ := List.mem_filter.mp (List.mem_of_getElem? hm)
    simp only [Bool.and_eq_true, decide_eq_true_eq, Bool.not_eq_true'] at hvis
    obtain ⟨-, hrep⟩ | ⟨hf, d, hrep⟩ | ⟨hf, d, hrep⟩ :=
      env.reply_ok w.db (w.db.setHidden msg.msgId true)
        (some (⟨msg.msgId, msg.message⟩ : PgmqMessage))
    · rw [hrep]
      exact .read hmem hvis.1 hvis.2 (.inl rfl)
    · -- a fault may report an error for a read that hid the message
      rw [hrep]
      exact .read hmem hvis.1 hvis.2 (.inr ⟨hf, rfl⟩)
    · rw [hrep]
      exact .unread (.inl hf)

theorem planeStep_fetch (m : ℤ) (id : WorkId) :
    PlaneStep cp env w (.read m id)
      (planeNext cp (.read m id) (.pool (.selectById id))
        (handle i (.pool (.selectById id)) env w).1)
      (handle i (.pool (.selectById id)) env w).2 := by
  change PlaneStep _ _ _ _ (planeNext _ _ _ (env.reply _ (w.db.exec _ _ _)).1)
    { w with db := (env.reply _ (w.db.exec _ _ _)).2 }
  rw [Db.exec_selectById]
  obtain ⟨-, hrep⟩ | ⟨hf, d, hrep⟩ :=
    env.reply_same w.db (.ok (w.db.row id) : Except DbError (Option Row))
  · rw [hrep]
    cases hr : w.db.row id with
    | none => exact .unfetched (.inr hr)
    | some r => exact .fetch hr
  · rw [hrep]
    exact .unfetched (.inl hf)

theorem planeStep_archive (m : ℤ) (id : WorkId) :
    PlaneStep cp env w (.completed m id)
      (planeNext cp (.completed m id) (.pool (.pgmqArchive m))
        (handle i (.pool (.pgmqArchive m)) env w).1)
      (handle i (.pool (.pgmqArchive m)) env w).2 := by
  change PlaneStep _ _ _ _ (planeNext _ _ _ (env.reply _ (w.db.exec _ _ _)).1)
    { w with db := (env.reply _ (w.db.exec _ _ _)).2 }
  rw [Db.exec]
  obtain ⟨-, hrep⟩ | ⟨hf, d, hrep⟩ | ⟨hf, d, hrep⟩ :=
    env.reply_ok w.db (w.db.archiveMessage m) ()
  · rw [hrep]
    exact .archive m id
  · rw [hrep]
    exact .archive m id
  · rw [hrep]
    exact .unarchived m id hf

/-- A `process_work` call takes no other steps. -/
theorem planeStep_of (ha : planeAllowed cp ph e) :
    PlaneStep cp env w ph (planeNext cp ph e (handle i e env w).1) (handle i e env w).2 := by
  cases planeEff_of ha with
  | read vt => exact planeStep_read vt
  | fetch m id => exact planeStep_fetch m id
  | update now hissues =>
    rw [planeNext_change]
    exact .update hissues (updateStep_of env w.db hissues.valid)
  | count m id => exact .count m id
  | focus m id => exact .focus m id
  | uncount m id => exact .uncount m id
  | archive m id => exact planeStep_archive m id
  | passive he hstay =>
    obtain ⟨dirs, hd⟩ := handle_passive i env w he
    rw [hd, hstay]
    exact .passive ph dirs

/-- How far a call is: before it has read the queue, before the end of its focus, or past it. -/
def PlanePhase.rank : PlanePhase → ℕ
  | .idle => 0
  | .owning .ran _ _ | .completed _ _ | .closed => 2
  | _ => 1

theorem PlanePhase.rank_le_two (ph : PlanePhase) : ph.rank ≤ 2 := by
  unfold rank
  split <;> omega

theorem PlanePhase.rank_le_afterUpdate (ph : PlanePhase) (c : Change) (a : Except DbError ℕ) :
    ph.rank ≤ (ph.afterUpdate c a).rank := by
  fun_cases PlanePhase.afterUpdate ph c a <;> first | exact le_refl 1 | exact rank_le_two _

/-- A call does not go back. -/
theorem PlaneStep.rank_le {ph' : PlanePhase} {w' : World} (h : PlaneStep cp env w ph ph' w') :
    ph.rank ≤ ph'.rank := by
  cases h with
  | read => exact Nat.zero_le _
  | fetch hr =>
    split
    · exact le_refl 1
    · exact PlanePhase.rank_le_two _
  | @update ph c id a db' hph hup => exact ph.rank_le_afterUpdate c a
  | passive => exact le_refl _
  | count | focus => exact le_refl 1
  | _ => exact PlanePhase.rank_le_two _

theorem PlanePhase.rank_eq_zero : ph.rank = 0 ↔ ph = .idle := by
  constructor
  · intro h
    cases ph with
    | idle => rfl
    | owning st m id => cases st <;> cases h
    | _ => cases h
  · rintro rfl
    rfl

end Plane

end Animus
